import BigBox.Ini.IniConfig1Save
import BigBox.Lib.Block

namespace BigBox.IniConfig1
open StringDic
set_option autoImplicit true

/-- What an entry needs to be read as it is written. -/
def SavableEntry (d : Dic) (e : Slot) : Prop :=
  match e.val with
  | none => COLON ∉ e.key ∧ e.key.length + 3 < ASCIILINESZ
  | some v => stringDicGet d (sectionOf e.key) ≠ none ∧ Verbatim v ∧ v.getLast? ≠ some BACKSLASH ∧
    ¬((nameOf e.key).head? = some OPEN ∧ v.getLast? = some CLOSE) ∧
    max (nameOf e.key).length 30 + 3 + v.length + 1 < ASCIILINESZ

instance (d : Dic) (e : Slot) : Decidable (SavableEntry d e) := by
  unfold SavableEntry
  split <;> infer_instance

def Savable (d : Dic) : Prop := ∀ e ∈ d.entries, SavableEntry d e

instance (d : Dic) : Decidable (Savable d) := List.decidableBAll _ _

/-- What holds of the written keys of a loaded dictionary. -/
def Proper (d : Dic) (op : Op) : Prop := stringDicGet d op.1 = some op.2

theorem Loaded.trim_value (h : Loaded d) (hop : Proper d op) :
    trim (op.2.getD []) = op.2.getD [] := by
  obtain ⟨k, v⟩ := op
  cases v with
  | none => rfl
  | some v => exact (h.value_key hop).1.trimmed

/-- No section that is read has both a colon and an equals sign in its name. -/
theorem Writes.no_equals (hw : Writes sect lines ops) (hcolon : COLON ∉ sect) (hl : Loaded d)
    (hops : ∀ op ∈ ops, Proper d op) (hr : Reads sect' lines ops') :
    ∀ op ∈ ops', op.2 = none → COLON ∈ op.1 → EQUALS ∉ op.1 := by
  induction hw generalizing sect' ops' with
  | nil =>
    cases hr
    exact nofun
  | header hname hsection rest ih =>
    obtain ⟨-, hops⟩ := List.forall_mem_cons.1 hops
    cases hr with
    | «section» hread rest' =>
      rw [iniparserLine_headerLine hsection] at hread
      cases hread
      exact List.forall_mem_cons.2 ⟨fun _ hc => absurd hc hname, ih hname hops rest'⟩
    | value hread rest' =>
      rw [iniparserLine_headerLine hsection] at hread
      cases hread
  | @entry sect lines ops key pad value rest ih =>
    obtain ⟨hop, hops⟩ := List.forall_mem_cons.1 hops
    have hkey : (behindEquals key).head? ≠ some CLOSE := by
      have := hl.behindEquals_name hop
      rwa [nameOf_append hcolon] at this
    cases hr with
    | «section» hread rest' =>
      refine List.forall_mem_cons.2 ⟨fun _ _ => ?_, ih hcolon hops rest'⟩
      exact section_no_equals hread (behindEquals_entryLine hkey _ _)
    | value hread rest' => exact List.forall_mem_cons.2 ⟨nofun, ih hcolon hops rest'⟩

/-- Lines without a value are read as keys with an empty value. -/
theorem Writes.empty_values (hw : Writes sect lines ops) (hcolon : COLON ∉ sect) (hl : Loaded d)
    (hops : ∀ op ∈ ops, Proper d op) (hname : ∀ op ∈ ops, EQUALS ∉ nameOf op.1)
    (hr : Reads sect' lines ops') :
    List.Forall₂ (fun op op' => (op.2 = none → COLON ∉ op.1 → op'.2 = none) ∧
      (op.2 = none → COLON ∈ op.1 → op'.2 = some []) ∧ (op.2 = some [] → op'.2 = some []))
      ops ops' := by
  induction hw generalizing sect' ops' with
  | nil =>
    cases hr
    exact .nil
  | header hc hsection rest ih =>
    obtain ⟨-, hops⟩ := List.forall_mem_cons.1 hops
    obtain ⟨-, hname⟩ := List.forall_mem_cons.1 hname
    cases hr with
    | «section» hread rest' =>
      rw [iniparserLine_headerLine hsection] at hread
      cases hread
      exact .cons ⟨fun _ _ => rfl, fun _ h => absurd h hc, nofun⟩ (ih hc hops hname rest')
    | value hread rest' =>
      rw [iniparserLine_headerLine hsection] at hread
      cases hread
  | @entry sect lines ops key pad value rest ih =>
    obtain ⟨hop, hops⟩ := List.forall_mem_cons.1 hops
    obtain ⟨hequals, hname⟩ := List.forall_mem_cons.1 hname
    rw [nameOf_append hcolon] at hequals
    have htrim := hl.trim_value hop
    have hmem : COLON ∈ sect ++ COLON :: key := List.mem_append_right _ List.mem_cons_self
    cases hr with
    | «section» hread rest' =>
      have hclose := (entryLine_section htrim hread).2
      refine .cons ⟨fun _ h => absurd hmem h, ?_, ?_⟩ (ih hcolon hops hname rest')
      · rintro rfl
        cases hclose
      · rintro rfl
        cases hclose
    | value hread rest' =>
      obtain ⟨-, rfl⟩ := entryLine_value hequals htrim hread
      refine .cons ⟨fun _ h => absurd hmem h, ?_, ?_⟩ (ih hcolon hops hname rest')
      · rintro rfl _
        rfl
      · rintro rfl
        rfl

/-- Where no line is misread as a section, keys and values are read from their own lines. -/
theorem Writes.in_step (hw : Writes sect lines ops) (hcolon : COLON ∉ sect) (hl : Loaded d)
    (hops : ∀ op ∈ ops, Proper d op)
    (hname : ∀ op ∈ ops, ∀ v, op.2 = some v → KeyName (nameOf op.1))
    (hnull : ∀ op ∈ ops, op.2 = none → COLON ∉ op.1) (hr : Reads sect lines ops')
    (hnone : List.Forall₂ (fun op op' => op'.2 = none → op.2 = none) ops ops') :
    List.Forall₂ (fun op op' => op'.1 = op.1 ∧ ∀ v, op.2 = some v → op'.2 = some (readValue v) ∧
      ¬((nameOf op.1).head? = some OPEN ∧ v.getLast? = some CLOSE)) ops ops' := by
  induction hw generalizing ops' with
  | nil =>
    cases hr
    exact .nil
  | header hc hsection rest ih =>
    obtain ⟨-, hops⟩ := List.forall_mem_cons.1 hops
    obtain ⟨-, hname⟩ := List.forall_mem_cons.1 hname
    obtain ⟨-, hnull⟩ := List.forall_mem_cons.1 hnull
    cases hr with
    | «section» hread rest' =>
      rw [iniparserLine_headerLine hsection] at hread
      cases hread
      obtain ⟨-, hnone⟩ := List.forall₂_cons.1 hnone
      exact .cons ⟨rfl, nofun⟩ (ih hc hops hname hnull rest' hnone)
    | value hread rest' =>
      rw [iniparserLine_headerLine hsection] at hread
      cases hread
  | @entry sect lines ops key pad value rest ih =>
    obtain ⟨hop, hops'⟩ := List.forall_mem_cons.1 hops
    obtain ⟨hkey, hname'⟩ := List.forall_mem_cons.1 hname
    obtain ⟨hcol, hnull'⟩ := List.forall_mem_cons.1 hnull
    have hmem : COLON ∈ sect ++ COLON :: key := List.mem_append_right _ List.mem_cons_self
    have htrim := hl.trim_value hop
    cases value with
    | none => exact absurd hmem (hcol rfl)
    | some v =>
      have hproper := hkey v rfl
      rw [nameOf_append hcolon] at hproper
      cases hr with
      | «section» hread rest' =>
        obtain ⟨hn, -⟩ := List.forall₂_cons.1 hnone
        cases hn rfl
      | value hread rest' =>
        obtain ⟨-, hnone'⟩ := List.forall₂_cons.1 hnone
        obtain ⟨rfl, rfl⟩ := entryLine_value hproper.no_equals htrim hread
        refine .cons ⟨by rw [hproper.trimmed], ?_⟩ (ih hcolon hops' hname' hnull' rest' hnone')
        rintro w ⟨⟩
        have hends := entryLine_value_ends htrim hread
        rw [hproper.trimmed] at hends
        rw [nameOf_append hcolon]
        exact ⟨rfl, hends⟩

/-- Proper lines are read as they are written. -/
theorem Writes.reads (hw : Writes sect lines ops) (hcolon : COLON ∉ sect) (hl : Loaded d)
    (hops : ∀ op ∈ ops, Proper d op)
    (hnull : ∀ op ∈ ops, op.2 = none → COLON ∉ op.1)
    (hvalue : ∀ op ∈ ops, ∀ v, op.2 = some v → KeyName (nameOf op.1) ∧ Verbatim v ∧
      ¬((nameOf op.1).head? = some OPEN ∧ v.getLast? = some CLOSE)) : Reads sect lines ops := by
  induction hw with
  | nil => exact .nil
  | header hc hsection rest ih =>
    obtain ⟨-, hops⟩ := List.forall_mem_cons.1 hops
    obtain ⟨-, hvalue⟩ := List.forall_mem_cons.1 hvalue
    obtain ⟨-, hnull⟩ := List.forall_mem_cons.1 hnull
    exact .section (iniparserLine_headerLine hsection) (ih hc hops hnull hvalue)
  | @entry sect lines ops key pad value rest ih =>
    obtain ⟨hop, hops'⟩ := List.forall_mem_cons.1 hops
    obtain ⟨hval, hvalue'⟩ := List.forall_mem_cons.1 hvalue
    obtain ⟨hcol, hnull'⟩ := List.forall_mem_cons.1 hnull
    have hmem : COLON ∈ sect ++ COLON :: key := List.mem_append_right _ List.mem_cons_self
    cases value with
    | none => exact absurd hmem (hcol rfl)
    | some v =>
      obtain ⟨hproper, hverbatim, hends⟩ := hval v rfl
      rw [nameOf_append hcolon] at hproper hends
      have htext := (hl.value_key hop).1
      have hread := entryLine_reads pad hproper htext.trimmed hends
      rw [(readValue_eq_self_iff htext.trimmed htext.no_quotes).2 hverbatim] at hread
      exact .value hread (ih hcolon hops' hnull' hvalue')

theorem nameIn_eq (hs : COLON ∉ s) (he : e ∈ members d s) : nameIn s e = nameOf e.key := by
  rw [key_members he, nameOf_append hs]

theorem length_memberLine (he : e ∈ members d s) (hs : COLON ∉ s) (hv : e.val = some v) :
    (memberLine s e).length = max (nameOf e.key).length 30 + 3 + v.length := by
  rw [memberLine, nameIn_eq hs he, entryLine, hv]
  simp only [List.length_append, List.length_replicate, List.length_cons, Option.getD_some]
  omega

theorem continued_entryLine (ht : trim value = value) :
    Continued (entryLine key pad value) ↔ value.getLast? = some BACKSLASH := by
  have hlast := getLast?_trim_entryLine key pad ht
  obtain ⟨a, ha⟩ :=
    List.dropWhile_suffix isspace (l := (entryLine key pad value).rdropWhile isspace)
  rw [trim] at hlast
  rw [Continued, ← ha, List.getLast?_append, hlast, Option.some_or]
  cases value.getLast? with
  | none => exact iff_of_false (by decide) (by decide)
  | some c => exact Iff.rfl

/-- What has to hold of the lines that are written. -/
theorem forall_savedLines {P : Str → Prop} (h : sections d ≠ []) : (∀ line ∈ savedLines d, P line) ↔
    P [] ∧ ∀ s ∈ sections d, P (headerLine s) ∧ ∀ e ∈ members d s, P (memberLine s e) := by
  rw [savedLines, if_neg h]
  constructor
  · intro hP
    refine ⟨hP [] (List.mem_append_right _ (List.mem_singleton_self _)), ?_⟩
    intro s hs
    have hsection : ∀ line ∈ sectionLines d s, P line := fun line hline =>
      hP line (List.mem_append_left _ (List.mem_flatMap.2 ⟨s, hs, hline⟩))
    obtain ⟨-, hheader, hrest⟩ := (List.forall_mem_cons.1 hsection).imp_right List.forall_mem_cons.1
    exact ⟨hheader, fun e he => hrest _ (List.mem_append_left _ (List.mem_map_of_mem he))⟩
  · rintro ⟨hnil, hsections⟩ line hline
    rcases List.mem_append.1 hline with hline | hline
    · obtain ⟨s, hs, hline⟩ := List.mem_flatMap.1 hline
      obtain ⟨hheader, hmembers⟩ := hsections s hs
      rcases List.mem_cons.1 hline with rfl | hline
      · exact hnil
      · rcases List.mem_cons.1 hline with rfl | hline
        · exact hheader
        · rcases List.mem_append.1 hline with hline | hline
          · obtain ⟨e, he, rfl⟩ := List.mem_map.1 hline
            exact hmembers e he
          · rw [List.mem_singleton.1 hline]
            exact hnil
    · rw [List.mem_singleton.1 hline]
      exact hnil

section
variable {d : Dic} {es : List Slot} (hd : d.Holds es)
include hd

theorem savable_section (h : Savable d) (hget : stringDicGet d k = some none) :
    COLON ∉ k ∧ k.length + 3 < ASCIILINESZ := by
  obtain ⟨e, he, rfl, hval⟩ := hd.get_iff.1 hget
  have hentry := h e (by rw [hd.entries_eq]; exact he)
  rw [SavableEntry, hval] at hentry
  exact hentry

theorem savable_value (h : Savable d) (hget : stringDicGet d k = some (some v)) :
    stringDicGet d (sectionOf k) ≠ none ∧ Verbatim v ∧ v.getLast? ≠ some BACKSLASH ∧
      ¬((nameOf k).head? = some OPEN ∧ v.getLast? = some CLOSE) ∧
      max (nameOf k).length 30 + 3 + v.length + 1 < ASCIILINESZ := by
  obtain ⟨e, he, rfl, hval⟩ := hd.get_iff.1 hget
  have hentry := h e (by rw [hd.entries_eq]; exact he)
  rw [SavableEntry, hval] at hentry
  exact hentry

variable (hl : Loaded d)
include hl

/-- Lines that are read as a rearrangement of the dictionary are read as they are written. -/
theorem reads_in_place (hsec : sections d ≠ [])
    (hr : Reads [] ((savedLines d).filter (· ≠ [])) ops') (hperm : ops'.Perm (es.map pairOf)) :
    (∀ op, op ∈ savedOps d ↔ Proper d op) ∧ (∀ op ∈ savedOps d, op.2 = none → COLON ∉ op.1) ∧
      ∀ op ∈ savedOps d, ∀ v, op.2 = some v →
        Verbatim v ∧ ¬((nameOf op.1).head? = some OPEN ∧ v.getLast? = some CLOSE) := by
  have hw := writes_savedLines hd hl hsec
  have hall : (savedOps d).Perm (es.map pairOf) := by
    apply (savedOps_subperm hd hl).perm_of_length_le
    rw [hw.length_eq, ← hr.length_eq, hperm.length_eq]
  have hperm' : (savedOps d).Perm ops' := hall.trans hperm.symm
  have hget : ∀ op : Op, op ∈ savedOps d ↔ Proper d op := fun op =>
    hall.mem_iff.trans (get_iff_pairs hd).symm
  have hops : ∀ op ∈ savedOps d, Proper d op := fun op => (hget op).1
  have hequals : ∀ op ∈ savedOps d, EQUALS ∉ nameOf op.1 := by
    intro op hop
    apply hl.name_no_equals _ (hops op hop)
    intro k hk
    have hmem : (k, none) ∈ ops' := hperm'.mem_iff.1 ((hget (k, none)).2 hk)
    exact hw.no_equals nofun hl hops hr _ hmem rfl
  have hread := hw.empty_values nofun hl hops hequals hr
  -- Empty values are counted first: a section below another one would be read with one.
  have hnull : ∀ op ∈ savedOps d, op.2 = none → COLON ∉ op.1 := by
    intro op hop hnone hcolon
    have hback := forall₂_of_perm (p := fun op : Op => decide (op.2 = some []))
      (fun _ _ h hp => decide_eq_true (h.2.2 (of_decide_eq_true hp))) hread hperm'
    obtain ⟨op', -, hop', hp⟩ := exists_of_forall₂ hback hop
    have heq := of_decide_eq_true (hp (decide_eq_true (hop'.2.1 hnone hcolon)))
    rw [hnone] at heq
    cases heq
  -- Then the missing values: no key is read as a section.
  have hnone := forall₂_of_perm (p := fun op : Op => decide (op.2 = none))
    (fun a b h hp => decide_eq_true (h.2.1 (of_decide_eq_true hp) (h.1 (of_decide_eq_true hp))))
    ((List.forall₂_and_left _ _).2 ⟨hnull, hread⟩) hperm'
  have hstep := hw.in_step nofun hl hops
    (fun op hop v hv => hl.keyName (fun k hk => hnull (k, none) ((hget (k, none)).2 hk) rfl)
      ((hops op hop).trans (congrArg some hv)))
    hnull hr (hnone.imp fun a b h hp => of_decide_eq_true (h.2 (decide_eq_true hp)))
  have hkeys : ((savedOps d).map Prod.fst).Nodup := by
    apply (hall.map Prod.fst).nodup_iff.2
    rw [List.map_map]
    exact hd.nodup
  have heq := eq_of_perm_of_keys (hstep.imp fun _ _ h => h.1) hperm' hkeys
  refine ⟨hget, hnull, ?_⟩
  intro op hop v hv
  obtain ⟨op', hop', hkey, hvalue⟩ := exists_of_forall₂ hstep hop
  rw [← heq] at hop'
  obtain rfl := List.inj_on_of_nodup_map hkeys hop' hop hkey
  obtain ⟨hread, hends⟩ := hvalue v hv
  rw [hv, Option.some.injEq] at hread
  have htext := (hl.value_key ((hops op' hop).trans (congrArg some hv))).1
  exact ⟨(readValue_eq_self_iff htext.trimmed htext.no_quotes).1 hread.symm, hends⟩

/-- A dictionary with sections round trips only when every entry is read as it is written. -/
theorem savable_of_sections (hsec : sections d ≠ []) (h : RoundTrips d) : Savable d := by
  obtain ⟨hlines, ops', hr, hperm⟩ := reads_of_roundTrips hd hl h
  obtain ⟨hget, hnull, hvalue⟩ := reads_in_place hd hl hsec hr hperm
  obtain ⟨-, hlines⟩ := (forall_savedLines hsec).1 hlines
  intro e he
  rw [hd.entries_eq] at he
  have hmem : pairOf e ∈ savedOps d := (hget _).2 (hd.get_mem he)
  rw [SavableEntry]
  split
  case h_1 hval =>
    have hcolon := hnull _ hmem hval
    have hsect : e.key ∈ sections d := (mem_sections hd).2
      ⟨by rw [hd.get_mem he]; exact nofun, hcolon⟩
    refine ⟨hcolon, ?_⟩
    have hfit := (hlines _ hsect).1.1
    rw [headerLine, List.length_cons, List.length_append, List.length_singleton] at hfit
    exact hfit
  case h_2 v hval =>
    obtain ⟨hverbatim, hends⟩ := hvalue _ hmem v hval
    obtain ⟨s, hs, hin⟩ := List.mem_flatMap.1 hmem
    rcases List.mem_cons.1 hin with heq | hin
    · have hnone : e.val = none := congrArg Prod.snd heq
      rw [hval] at hnone
      cases hnone
    · obtain ⟨f, hf, heq⟩ := List.mem_map.1 hin
      have hkey : f.key = e.key := congrArg Prod.fst heq
      have hfval : f.val = some v := (congrArg Prod.snd heq).trans hval
      obtain ⟨hsget, hcolon⟩ := (mem_sections hd).1 hs
      obtain ⟨hfit, hcont⟩ := (hlines s hs).2 f hf
      have hget' : stringDicGet d f.key = some (some v) := by
        rw [hkey, hd.get_mem he, hval]
      have htrim := (hl.value_key hget').1.trimmed
      rw [length_memberLine hf hcolon hfval, hkey] at hfit
      rw [memberLine, hfval, Option.getD_some, continued_entryLine htrim] at hcont
      refine ⟨?_, hverbatim, hcont, hends, hfit⟩
      rw [← hkey, key_members hf, sectionOf_append hcolon]
      exact hsget

/-- Every key is written below its section. -/
theorem mem_savedOps (h : Savable d) (hget : stringDicGet d k = some v) : (k, v) ∈ savedOps d := by
  cases v with
  | none =>
    have hcolon := (savable_section hd h hget).1
    have hk : k ∈ sections d := (mem_sections hd).2 ⟨by rw [hget]; exact nofun, hcolon⟩
    exact List.mem_flatMap.2 ⟨k, hk, List.mem_cons_self⟩
  | some v =>
    obtain ⟨-, -, -, sect, t, hk, -⟩ := hl.value_key hget
    have hcolon : COLON ∈ k := by
      rw [hk]
      exact List.mem_append_right _ List.mem_cons_self
    obtain ⟨hnot, hsplit⟩ := exists_colon hcolon
    have hs : sectionOf k ∈ sections d := 
      (mem_sections hd).2 ⟨(savable_value hd h hget).1, hnot⟩
    obtain ⟨e, he, hkey, hval⟩ := hd.get_iff.1 hget
    refine List.mem_flatMap.2 ⟨sectionOf k, hs, List.mem_cons_of_mem _ (List.mem_map.2 ⟨e, ?_, ?_⟩)⟩
    · rw [members, List.mem_filter, hd.entries_eq, List.isPrefixOf_iff_prefix]
      refine ⟨he, nameOf k, ?_⟩
      rw [hkey, List.append_assoc]
      exact hsplit.symm
    · rw [pairOf, hkey, hval]

theorem roundTrips_of_sections (hsec : sections d ≠ []) (h : Savable d) : RoundTrips d := by
  have hw := writes_savedLines hd hl hsec
  have hops : ∀ op ∈ savedOps d, Proper d op := fun op hop =>
    (get_iff_pairs hd).2 ((savedOps_subperm hd hl).subset hop)
  have hnull : ∀ k, stringDicGet d k = some none → COLON ∉ k :=
    fun k hk => (savable_section hd h hk).1
  have hperm : (savedOps d).Perm (es.map pairOf) := by
    rw [List.perm_ext_iff_of_nodup (nodup_savedOps hd) (nodup_pairs hd)]
    intro op
    obtain ⟨k, v⟩ := op
    rw [← get_iff_pairs hd]
    exact ⟨hops (k, v), fun hget => mem_savedOps hd hl h hget⟩
  have hr : Reads [] ((savedLines d).filter (· ≠ [])) (savedOps d) := by
    apply hw.reads nofun hl hops
    · intro op hop hnone
      exact hnull op.1 ((hops op hop).trans (congrArg some hnone))
    · intro op hop v hv
      have hget : stringDicGet d op.1 = some (some v) := (hops op hop).trans (congrArg some hv)
      obtain ⟨-, hverbatim, -, hends, -⟩ := savable_value hd h hget
      exact ⟨hl.keyName hnull hget, hverbatim, hends⟩
  refine roundTrips_of_reads hd hl ((forall_savedLines hsec).2
    ⟨⟨by decide, by decide⟩, ?_⟩) hr hperm
  intro s hs
  obtain ⟨-, hcolon⟩ := (mem_sections hd).1 hs
  constructor
  · have hfit := (savable_section hd h (section_get hd hl hs)).2
    constructor
    · rw [headerLine, List.length_cons, List.length_append, List.length_singleton]
      exact hfit
    · rw [Continued, headerLine, ← List.cons_append,
        List.rdropWhile_concat_neg _ _ _ (by decide), List.getLast?_concat]
      decide
  · intro e he
    have hmem := List.mem_of_mem_filter he
    rw [hd.entries_eq] at hmem
    have hget := hd.get_mem hmem
    cases hval : e.val with
    | none =>
      rw [hval] at hget
      exact absurd (colon_mem_members he) (hnull _ hget)
    | some v =>
      rw [hval] at hget
      obtain ⟨-, -, hcont, -, hfit⟩ := savable_value hd h hget
      constructor
      · rw [length_memberLine he hcolon hval]
        exact hfit
      · rw [memberLine, hval, Option.getD_some, continued_entryLine (hl.value_key hget).1.trimmed]
        exact hcont

end

end BigBox.IniConfig1
