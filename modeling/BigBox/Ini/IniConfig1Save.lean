import Mathlib.Data.List.Nodup
import Mathlib.Data.List.Perm.Subperm
import BigBox.Ini.IniConfig1Load
import BigBox.Ini.IniConfig1Reads

namespace BigBox.IniConfig1
open StringDic
set_option autoImplicit true

def pairOf (e : Slot) : Op := (e.key, e.val)

/-- The entries that are written below the header of a section. -/
def members (d : Dic) (s : Str) : List Slot :=
  d.entries.filter fun e => (s ++ [COLON]).isPrefixOf e.key

/-- The name of a key in a section. -/
def nameIn (s : Str) (e : Slot) : Str := e.key.drop (s ++ [COLON]).length

def memberLine (s : Str) (e : Slot) : Str :=
  entryLine (nameIn s e) (30 - (nameIn s e).length) (e.val.getD [])

def sectionLines (d : Dic) (s : Str) : List Str :=
  [] :: headerLine s :: ((members d s).map (memberLine s) ++ [[]])

/-- The lines that `config_ini_save_ini` writes. -/
def savedLines (d : Dic) : List Str :=
  if sections d = [] then d.entries.map fun e => entryLine e.key 0 (e.val.getD NULL_TEXT)
  else (sections d).flatMap (sectionLines d) ++ [[]]

theorem fileOf_append (a b : List Str) : fileOf (a ++ b) = fileOf a ++ fileOf b :=
  List.flatMap_append

theorem fileOf_cons (line : Str) (lines : List Str) :
    fileOf (line :: lines) = line ++ [LF] ++ fileOf lines := List.flatMap_cons

theorem fileOf_flatMap (l : List α) (f : α → List Str) :
    fileOf (l.flatMap f) = l.flatMap fun a => fileOf (f a) := List.flatMap_assoc

theorem fileOf_map (l : List α) (f : α → Str) : fileOf (l.map f) = l.flatMap fun a => f a ++ [LF] :=
  List.flatMap_map _ _ _

theorem flatMap_range_getElem? (l : List Str) (f : Str → List α) :
    (List.range l.length).flatMap (fun i => f (l[i]?.getD [])) = l.flatMap f := by
  have hmap : (List.range l.length).map (fun i => l[i]?.getD []) = l := by
    apply List.ext_getElem
    · rw [List.length_map, List.length_range]
    · intro i h₁ h₂
      rw [List.getElem_map, List.getElem_range, List.getElem?_eq_getElem h₂, Option.getD_some]
  calc _ = ((List.range l.length).map fun i => l[i]?.getD []).flatMap f :=
        (List.flatMap_map _ _ _).symm
    _ = _ := by rw [hmap]

theorem mem_sections (hd : d.Holds es) :
    s ∈ sections d ↔ stringDicGet d s ≠ none ∧ COLON ∉ s := by
  rw [sections, List.mem_filter, decide_eq_true_eq, hd.entries_eq, List.mem_map]
  apply and_congr_left
  intro _
  rw [Option.ne_none_iff_exists']
  constructor
  · rintro ⟨e, he, rfl⟩
    exact ⟨e.val, hd.get_mem he⟩
  · rintro ⟨v, hget⟩
    obtain ⟨e, he, hkey, -⟩ := hd.get_iff.1 hget
    exact ⟨e, he, hkey⟩

theorem fileOf_sectionLines (hd : d.Holds es) (h : s ∈ sections d) :
    configIniSavesectionToFile d s = fileOf (sectionLines d s) := by
  have hfind : ¬configIniFindEntry d s = false := by
    rw [configIniFindEntry, Bool.not_eq_false, Option.isSome_iff_ne_none]
    exact ((mem_sections hd).1 h).1
  have hassign : (fun e : Slot => assignment (e.key.drop (s ++ [COLON]).length) (e.val.getD [])) =
      fun e => memberLine s e ++ [LF] := by
    funext e
    rw [assignment, memberLine, entryLine, nameIn]
    simp only [List.append_assoc, List.cons_append, List.nil_append]
  rw [configIniSavesectionToFile, if_neg hfind, sectionLines, fileOf_cons, fileOf_cons,
    fileOf_append, fileOf_map, headerLine]
  dsimp only
  rw [hassign, members]
  simp only [List.append_assoc, List.cons_append, List.nil_append]
  rfl

/-- What is written are these lines. -/
theorem configIniSaveIni_eq (hd : d.Holds es) : configIniSaveIni d = fileOf (savedLines d) := by
  rw [configIniSaveIni, savedLines, configIniGetSectionNum]
  by_cases hnil : sections d = []
  · rw [hnil, List.length_nil, if_pos Nat.zero_lt_one, if_pos rfl, fileOf_map]
    congr 1
    funext e
    rw [entryLine, List.replicate_zero]
    simp only [List.append_assoc, List.cons_append, List.nil_append]
  · have hpos : ¬(sections d).length < 1 := fun h =>
      hnil (List.length_eq_zero_iff.1 (Nat.lt_one_iff.1 h))
    rw [if_neg hpos, if_neg hnil, fileOf_append, fileOf_flatMap]
    simp only [configIniGetSectionName]
    rw [flatMap_range_getElem? (sections d) (configIniSavesectionToFile d)]
    congr 1
    apply List.flatMap_congr
    intro s hs
    exact fileOf_sectionLines hd hs

/-- The lines that are not empty and the keys that stand in them, below a section. -/
inductive Writes : Str → List Str → List Op → Prop
  | nil : Writes sect [] []
  | header (hcolon : COLON ∉ name) (hname : SectionName name) (rest : Writes name lines ops) :
    Writes sect (headerLine name :: lines) ((name, none) :: ops)
  | entry (key : Str) (pad : Nat) (value : Option Str) (rest : Writes sect lines ops) :
    Writes sect (entryLine key pad (value.getD []) :: lines)
      ((sect ++ COLON :: key, value) :: ops)

def savedOps (d : Dic) : List Op :=
  (sections d).flatMap fun s => (s, none) :: (members d s).map pairOf

theorem Writes.length_eq (h : Writes sect lines ops) : ops.length = lines.length := by
  induction h with
  | nil => rfl
  | header _ _ _ ih => exact congrArg Nat.succ ih
  | entry _ _ _ _ ih => exact congrArg Nat.succ ih

theorem key_members (h : e ∈ members d s) : e.key = s ++ COLON :: nameIn s e := by
  rw [members, List.mem_filter, List.isPrefixOf_iff_prefix] at h
  obtain ⟨t, ht⟩ := h.2
  rw [nameIn, ← ht, List.drop_left, List.append_assoc]
  rfl

theorem Writes.members {es : List Slot} (h : ∀ e ∈ es, e.key = s ++ COLON :: nameIn s e)
    (rest : Writes s lines ops) :
    Writes s (es.map (memberLine s) ++ lines) (es.map pairOf ++ ops) := by
  induction es with
  | nil => exact rest
  | cons e es ih =>
    obtain ⟨hkey, hes⟩ := List.forall_mem_cons.1 h
    have hentry := Writes.entry (nameIn s e) (30 - (nameIn s e).length) e.val (ih hes)
    rw [← hkey] at hentry
    exact hentry

theorem Writes.sections {ss : List Str} (h : ∀ s ∈ ss, COLON ∉ s ∧ SectionName s) :
    Writes sect (ss.flatMap fun s => headerLine s :: (IniConfig1.members d s).map (memberLine s))
      (ss.flatMap fun s => (s, none) :: (IniConfig1.members d s).map pairOf) := by
  induction ss generalizing sect with
  | nil => exact .nil
  | cons s ss ih =>
    obtain ⟨hs, hss⟩ := List.forall_mem_cons.1 h
    rw [List.flatMap_cons, List.flatMap_cons]
    exact .header hs.1 hs.2 (.members (fun e he => key_members he) (ih hss))

theorem entryLine_ne_nil (key : Str) (pad : Nat) (value : Str) : entryLine key pad value ≠ [] := by
  rw [entryLine]
  simp

theorem filter_savedLines (h : sections d ≠ []) : (savedLines d).filter (· ≠ []) =
    (sections d).flatMap fun s => headerLine s :: (members d s).map (memberLine s) := by
  have hsection : ∀ s, (sectionLines d s).filter (· ≠ []) =
      headerLine s :: (members d s).map (memberLine s) := by
    intro s
    rw [sectionLines, List.filter_cons_of_neg (by decide), headerLine,
      List.filter_cons_of_pos (by rfl), List.filter_append, List.filter_eq_self.2]
    · rw [List.filter_cons_of_neg (by decide)]
      simp
    · intro line hline
      obtain ⟨e, -, rfl⟩ := List.mem_map.1 hline
      exact decide_eq_true (entryLine_ne_nil _ _ _)
  rw [savedLines, if_neg h, List.filter_append, List.filter_flatMap]
  simp only [hsection]
  rw [List.filter_cons_of_neg (by decide)]
  simp

theorem section_get (hd : d.Holds es) (hl : Loaded d) (h : s ∈ sections d) :
    stringDicGet d s = some none := by
  obtain ⟨hget, hcolon⟩ := (mem_sections hd).1 h
  obtain ⟨v, hv⟩ := Option.ne_none_iff_exists'.1 hget
  cases v with
  | none => exact hv
  | some v =>
    obtain ⟨-, -, -, sect, t, rfl, -, -, -⟩ := hl.value_key hv
    exact absurd (List.mem_append_right _ List.mem_cons_self) hcolon

/-- The lines below the headers, one for each key that is written. -/
theorem writes_savedLines (hd : d.Holds es) (hl : Loaded d) (h : sections d ≠ []) :
    Writes [] ((savedLines d).filter (· ≠ [])) (savedOps d) := by
  rw [filter_savedLines h]
  apply Writes.sections
  intro s hs
  exact ⟨((mem_sections hd).1 hs).2, (hl.section_key (section_get hd hl hs)).1⟩

theorem nodup_pairs {d : Dic} (hd : d.Holds es) : (es.map pairOf).Nodup := by
  have hnodup := hd.nodup
  apply List.Nodup.of_map Prod.fst
  rw [List.map_map]
  exact hnodup

theorem append_colon_inj (hs : COLON ∉ s) (ht : COLON ∉ t) (h : s ++ COLON :: a = t ++ COLON :: b) :
    s = t := by
  rw [← sectionOf_append hs, h, sectionOf_append ht]

theorem colon_mem_members (h : e ∈ members d s) : COLON ∈ e.key := by
  rw [key_members h]
  exact List.mem_append_right _ List.mem_cons_self

theorem not_mem_members (hs : COLON ∉ s) : (s, v) ∉ (members d t).map pairOf := by
  intro hin
  obtain ⟨e, he, heq⟩ := List.mem_map.1 hin
  have hkey : e.key = s := congrArg Prod.fst heq
  rw [← hkey] at hs
  exact hs (colon_mem_members he)

theorem nodup_savedOps {d : Dic} (hd : d.Holds es) : (savedOps d).Nodup := by
  rw [savedOps, List.nodup_flatMap]
  constructor
  · intro s hs
    have hsub : ((members d s).map pairOf).Sublist (es.map pairOf) := by
      rw [← hd.entries_eq]
      exact List.filter_sublist.map _
    exact List.nodup_cons.2 ⟨not_mem_members ((mem_sections hd).1 hs).2,
      (nodup_pairs hd).sublist hsub⟩
  · have hnodup : (sections d).Nodup := by
      rw [sections, hd.entries_eq]
      exact hd.nodup.filter _
    apply hnodup.imp_of_mem
    intro s t hs ht hne op hops hopt
    have hcs := ((mem_sections hd).1 hs).2
    have hct := ((mem_sections hd).1 ht).2
    rcases List.mem_cons.1 hops with rfl | hops
    · rcases List.mem_cons.1 hopt with heq | hopt
      · exact hne (congrArg Prod.fst heq)
      · exact not_mem_members hcs hopt
    · rcases List.mem_cons.1 hopt with rfl | hopt
      · exact not_mem_members hct hops
      · obtain ⟨e, he, rfl⟩ := List.mem_map.1 hops
        obtain ⟨f, hf, heq⟩ := List.mem_map.1 hopt
        have hkey : f.key = e.key := congrArg Prod.fst heq
        rw [key_members he, key_members hf] at hkey
        exact hne (append_colon_inj hct hcs hkey).symm

/-- No key is written twice. -/
theorem savedOps_subperm (hd : d.Holds es) (hl : Loaded d) :
    (savedOps d).Subperm (es.map pairOf) := by
  apply (nodup_savedOps hd).subperm
  intro op hop
  obtain ⟨s, hs, hop⟩ := List.mem_flatMap.1 hop
  rcases List.mem_cons.1 hop with rfl | hop
  · obtain ⟨e, he, hkey, hval⟩ := hd.get_iff.1 (section_get hd hl hs)
    exact List.mem_map.2 ⟨e, he, by rw [pairOf, hkey, hval]⟩
  · obtain ⟨e, he, rfl⟩ := List.mem_map.1 hop
    have hmem := List.mem_of_mem_filter he
    rw [hd.entries_eq] at hmem
    exact List.mem_map_of_mem hmem

set_option autoImplicit true

/-- Writing the dictionary and loading the file gives the same keys and values. -/
def RoundTrips (d : Dic) : Prop := ∃ d', configInitLoad (configIniSaveIni d) = some (some d') ∧
  ∀ k, stringDicGet d' k = stringDicGet d k

theorem clean_entryLine (hk : Clean key) (hv : Clean value) : Clean (entryLine key pad value) := by
  have hblank : Clean (List.replicate pad BLANK) := by
    constructor
    · intro hc
      cases List.eq_of_mem_replicate hc
    · intro hc
      cases List.eq_of_mem_replicate hc
  have hsign : Clean [BLANK, EQUALS, BLANK] := ⟨by decide, by decide⟩
  exact (hk.append hblank).append (hsign.append hv)

theorem clean_headerLine (h : Clean name) : Clean (headerLine name) :=
  Clean.append (s := [OPEN]) ⟨by decide, by decide⟩ (h.append ⟨by decide, by decide⟩)

section
variable {d : Dic} {es : List Slot} (hd : d.Holds es)
include hd

theorem filter_savedLines_nil (h : sections d = []) : (savedLines d).filter (· ≠ []) =
    es.map fun e => entryLine e.key 0 (e.val.getD NULL_TEXT) := by
  rw [savedLines, if_pos h, hd.entries_eq, List.filter_eq_self]
  intro line hline
  obtain ⟨e, -, rfl⟩ := List.mem_map.1 hline
  exact decide_eq_true (entryLine_ne_nil _ _ _)

theorem get_iff_pairs : stringDicGet d k = some v ↔ (k, v) ∈ es.map pairOf := by
  rw [hd.get_iff, List.mem_map]
  apply exists_congr
  intro e
  apply and_congr_right
  intro _
  rw [pairOf, Prod.mk.injEq]

variable (hl : Loaded d)
include hl

theorem clean_entry (he : e ∈ es) : Clean e.key ∧ ∀ v, e.val = some v → Clean v := by
  have hget := hd.get_mem he
  cases hval : e.val with
  | none =>
    rw [hval] at hget
    exact ⟨(hl.section_key hget).2, nofun⟩
  | some v =>
    rw [hval] at hget
    obtain ⟨-, hv, hk, -⟩ := hl.value_key hget
    refine ⟨hk, ?_⟩
    rintro w ⟨⟩
    exact hv

theorem clean_savedLines : ∀ line ∈ savedLines d, Clean line := by
  have hnil : Clean [] := ⟨nofun, nofun⟩
  rw [savedLines]
  split
  · rw [hd.entries_eq]
    intro line hline
    obtain ⟨e, he, rfl⟩ := List.mem_map.1 hline
    obtain ⟨hk, hv⟩ := clean_entry hd hl he
    apply clean_entryLine hk
    cases hval : e.val with
    | none => exact ⟨by decide, by decide⟩
    | some v => exact hv v hval
  · intro line hline
    rcases List.mem_append.1 hline with hline | hline
    · obtain ⟨s, hs, hline⟩ := List.mem_flatMap.1 hline
      rcases List.mem_cons.1 hline with rfl | hline
      · exact hnil
      · rcases List.mem_cons.1 hline with rfl | hline
        · exact clean_headerLine (hl.section_key (section_get hd hl hs)).2
        · rcases List.mem_append.1 hline with hline | hline
          · obtain ⟨e, he, rfl⟩ := List.mem_map.1 hline
            have hmem := List.mem_of_mem_filter he
            rw [hd.entries_eq] at hmem
            obtain ⟨hk, hv⟩ := clean_entry hd hl hmem
            apply clean_entryLine (hk.of_subset fun c hc => List.mem_of_mem_drop hc)
            cases hval : e.val with
            | none => exact hnil
            | some v => exact hv v hval
          · rw [List.mem_singleton.1 hline]
            exact hnil
    · rw [List.mem_singleton.1 hline]
      exact hnil

theorem length_savedLines_le : ((savedLines d).filter (· ≠ [])).length ≤ es.length := by
  by_cases h : sections d = []
  · rw [filter_savedLines_nil hd h, List.length_map]
  · rw [← (writes_savedLines hd hl h).length_eq]
    have hle := (savedOps_subperm hd hl).length_le
    rwa [List.length_map] at hle

theorem reads_of_roundTrips (h : RoundTrips d) :
    (∀ line ∈ savedLines d, line.length + 1 < ASCIILINESZ ∧ ¬Continued line) ∧
      ∃ ops, Reads [] ((savedLines d).filter (· ≠ [])) ops ∧ ops.Perm (es.map pairOf) := by
  obtain ⟨d', hload, hget⟩ := h
  rw [configIniSaveIni_eq hd, configInitLoad] at hload
  obtain ⟨s, hloop, hs⟩ := Option.map_eq_some_iff.1 hload
  have hclean := clean_savedLines hd hl
  split at hs
  case isFalse => cases hs
  case isTrue herrs =>
    cases hs
    have hfits := loadLoop_fits hclean (Int.le_refl _) (Nat.le_refl _) hloop herrs
    rw [loadLoop_lines hclean hfits (Nat.le_refl _)] at hloop
    obtain ⟨ops, hops, hlen, hreads⟩ := foldlM_step_reads hloop
    have hnew : Dic.Holds Loader.start.d [] := Dic.Holds.new 0
    have hnone : ∀ k, stringDicGet Loader.start.d k = none := fun k => hnew.get_none nofun
    have hkeys : es.map Slot.key ⊆ ops.map Prod.fst := by
      intro k hk
      obtain ⟨e, he, rfl⟩ := List.mem_map.1 hk
      have hne : stringDicGet (setAll Loader.start.d ops) e.key ≠ none := by
        rw [← hops, hget, hd.get_mem he]
        exact nofun
      exact (mem_of_get_setAll hnew hne).resolve_right fun h => h (hnone _)
    have hsub := hd.nodup.subperm hkeys
    have hle := length_savedLines_le hd hl
    have hge := hsub.length_le
    rw [List.length_map, List.length_map] at hge
    have hperm : (es.map Slot.key).Perm (ops.map Prod.fst) := by
      apply hsub.perm_of_length_le
      rw [List.length_map, List.length_map]
      exact Nat.le_trans hlen hle
    obtain ⟨hcont, hr⟩ := hreads (Nat.le_antisymm hlen (Nat.le_trans hle hge)) rfl
    refine ⟨fun line hline => ⟨hfits line hline, hcont line hline⟩, ops, hr, ?_⟩
    have hnodup : (ops.map Prod.fst).Nodup := hperm.nodup_iff.1 hd.nodup
    rw [List.perm_ext_iff_of_nodup (List.Nodup.of_map _ hnodup) (nodup_pairs hd)]
    intro op
    obtain ⟨k, v⟩ := op
    rw [← get_iff_pairs hd, ← hget, hops, get_setAll hnew hnodup, hnone]
    exact ⟨.inl, fun h => h.resolve_right fun h => by cases h.2⟩

theorem roundTrips_of_reads
    (hlines : ∀ line ∈ savedLines d, line.length + 1 < ASCIILINESZ ∧ ¬Continued line)
    (hreads : Reads [] ((savedLines d).filter (· ≠ [])) ops) (hperm : ops.Perm (es.map pairOf)) :
    RoundTrips d := by
  obtain ⟨s, hfold, hset, herrs⟩ := hreads.foldlM_step (s := Loader.start) rfl
    (fun line hline => (hlines line hline).2) rfl rfl
  have hnew : Dic.Holds Loader.start.d [] := Dic.Holds.new 0
  have hnone : ∀ k, stringDicGet Loader.start.d k = none := fun k => hnew.get_none nofun
  have hnodup : (ops.map Prod.fst).Nodup := by
    apply (hperm.map Prod.fst).nodup_iff.2
    rw [List.map_map]
    exact hd.nodup
  refine ⟨s.d, ?_, ?_⟩
  · rw [configIniSaveIni_eq hd, configInitLoad,
      loadLoop_lines (clean_savedLines hd hl) (fun line hline => (hlines line hline).1)
        (Nat.le_refl _), hfold, Option.map_some, if_pos herrs]
  · intro k
    apply Option.ext
    intro v
    rw [hset, get_setAll hnew hnodup, hnone, hperm.mem_iff, get_iff_pairs hd]
    exact ⟨fun h => h.resolve_right (fun h => by cases h.2), .inl⟩

end

end BigBox.IniConfig1
