import BigBox.Ini.IniConfig1Savable

namespace BigBox.IniConfig1
open StringDic
set_option autoImplicit true

/-- The line of an entry in a file without sections. -/
def flatLine (e : Slot) : Str := entryLine e.key 0 (e.val.getD NULL_TEXT)

theorem readValue_NULL_TEXT : readValue NULL_TEXT = NULL_TEXT := by decide

section
variable {d : Dic}

theorem trim_flat (hl : Loaded d) (hget : stringDicGet d k = some v) :
    trim (v.getD NULL_TEXT) = v.getD NULL_TEXT := by
  cases v with
  | none => decide
  | some v => exact (hl.value_key hget).1.trimmed

theorem flat_no_equals {es : List Slot} (hl : Loaded d)
    (hes : ∀ e ∈ es, stringDicGet d e.key = some e.val)
    (hr : Reads sect (es.map flatLine) ops) : ∀ op ∈ ops, op.2 = none → EQUALS ∉ op.1 := by
  induction es generalizing sect ops with
  | nil =>
    cases hr
    exact nofun
  | cons e es ih =>
    obtain ⟨he, hes⟩ := List.forall_mem_cons.1 hes
    cases hr with
    | «section» hread rest =>
      refine List.forall_mem_cons.2 ⟨fun _ => ?_, ih hes rest⟩
      exact section_no_equals hread (behindEquals_entryLine (hl.behindEquals_key he) _ _)
    | value hread rest => exact List.forall_mem_cons.2 ⟨nofun, ih hes rest⟩

theorem flat_null {es : List Slot} (hl : Loaded d)
    (hes : ∀ e ∈ es, stringDicGet d e.key = some e.val)
    (hequals : ∀ e ∈ es, EQUALS ∉ e.key) (hr : Reads sect (es.map flatLine) ops) :
    List.Forall₂ (fun op op' => (op.2 = none → op'.2 = some NULL_TEXT) ∧
      (op.2 = some NULL_TEXT → op'.2 = some NULL_TEXT)) (es.map pairOf) ops := by
  induction es generalizing sect ops with
  | nil =>
    cases hr
    exact .nil
  | cons e es ih =>
    obtain ⟨he, hes⟩ := List.forall_mem_cons.1 hes
    obtain ⟨hkey, hequals⟩ := List.forall_mem_cons.1 hequals
    have htrim := trim_flat hl he
    cases hr with
    | «section» hread rest =>
      have hclose := (entryLine_section htrim hread).2
      refine .cons ⟨?_, ?_⟩ (ih hes hequals rest)
      · intro hval
        rw [show e.val = none from hval] at hclose
        exact absurd hclose (by decide)
      · intro hval
        rw [show e.val = some NULL_TEXT from hval] at hclose
        exact absurd hclose (by decide)
    | value hread rest =>
      obtain ⟨-, rfl⟩ := entryLine_value hkey htrim hread
      refine .cons ⟨?_, ?_⟩ (ih hes hequals rest)
      · intro hval
        rw [show e.val = none from hval]
        exact congrArg some readValue_NULL_TEXT
      · intro hval
        rw [show e.val = some NULL_TEXT from hval]
        exact congrArg some readValue_NULL_TEXT

theorem flat_keys {es : List Slot} (hl : Loaded d)
    (hes : ∀ e ∈ es, stringDicGet d e.key = some e.val)
    (hequals : ∀ e ∈ es, EQUALS ∉ e.key) (hr : Reads [] (es.map flatLine) ops)
    (hnone : ∀ op ∈ ops, op.2 ≠ none) :
    ops.map Prod.fst = es.map fun e => COLON :: trim e.key := by
  induction es generalizing ops with
  | nil =>
    cases hr
    rfl
  | cons e es ih =>
    obtain ⟨he, hes⟩ := List.forall_mem_cons.1 hes
    obtain ⟨hkey, hequals⟩ := List.forall_mem_cons.1 hequals
    cases hr with
    | «section» hread rest => exact absurd rfl (hnone _ List.mem_cons_self)
    | value hread rest =>
      obtain ⟨rfl, -⟩ := entryLine_value hkey (trim_flat hl he) hread
      exact congrArg _ (ih hes hequals rest fun op hop => hnone op (List.mem_cons_of_mem _ hop))

end

theorem rdropWhile_trim (s : Str) : (trim s).rdropWhile isspace = trim s := by
  rcases blank_or_middle s with h | ⟨a, c, b, hc, rfl⟩
  · rw [trim_eq_nil_iff.2 h]
    rfl
  · rw [trim_middle hc, rdropWhile_middle hc, List.rdropWhile_idempotent]

theorem sum_length_colon (ks : List Str) :
    ((ks.map (COLON :: ·)).map List.length).sum = (ks.map List.length).sum + ks.length := by
  induction ks with
  | nil => rfl
  | cons k ks ih =>
    simp only [List.map_cons, List.sum_cons, List.length_cons] at ih ⊢
    omega

section
variable {d : Dic} {es : List Slot} (hd : d.Holds es)
include hd

theorem nil_of_savable (hsec : sections d = []) (h : Savable d) : es = [] := by
  apply List.eq_nil_iff_forall_not_mem.2
  intro e he
  have hget := hd.get_mem he
  have hnot : ∀ s, stringDicGet d s ≠ none → COLON ∈ s := by
    intro s hs
    by_contra hcolon
    have hmem := (mem_sections hd).2 ⟨hs, hcolon⟩
    rw [hsec] at hmem
    cases hmem
  cases hval : e.val with
  | none =>
    rw [hval] at hget
    exact (savable_section hd h hget).1 (hnot _ (by rw [hget]; exact nofun))
  | some v =>
    rw [hval] at hget
    have hs := hnot _ (savable_value hd h hget).1
    have hne := List.mem_takeWhile_imp hs
    rw [decide_eq_true_eq] at hne
    exact hne rfl

variable (hl : Loaded d)
include hl

/-- Without sections nothing is read as it is written: each key gets another colon. -/
theorem nil_of_roundTrips (hsec : sections d = []) (h : RoundTrips d) : es = [] := by
  obtain ⟨-, ops, hr, hperm⟩ := reads_of_roundTrips hd hl h
  rw [filter_savedLines_nil hd hsec] at hr
  have hes : ∀ e ∈ es, stringDicGet d e.key = some e.val := fun e he => hd.get_mem he
  have hequals : ∀ e ∈ es, EQUALS ∉ e.key := by
    intro e he
    apply hl.key_no_equals _ (hes e he)
    intro k hk
    exact flat_no_equals hl hes hr _ (hperm.mem_iff.2 ((get_iff_pairs hd).1 hk)) rfl
  have hnull : ∀ op ∈ es.map pairOf, op.2 ≠ none := by
    intro op hop hnone
    have hback := forall₂_of_perm (p := fun op : Op => decide (op.2 = some NULL_TEXT))
      (fun _ _ h hp => decide_eq_true (h.2 (of_decide_eq_true hp)))
      (flat_null hl hes hequals hr) hperm.symm
    obtain ⟨op', -, hop', hp⟩ := exists_of_forall₂ hback hop
    have heq := of_decide_eq_true (hp (decide_eq_true (hop'.1 hnone)))
    rw [hnone] at heq
    cases heq
  have hkeys := flat_keys hl hes hequals hr fun op hop => hnull op (hperm.mem_iff.1 hop)
  have hpermKeys := hperm.map Prod.fst
  rw [hkeys, List.map_map] at hpermKeys
  have htrim : ∀ e ∈ es, trim e.key = e.key := by
    intro e he
    obtain ⟨f, -, hf⟩ := List.mem_map.1 (hpermKeys.mem_iff.2 (List.mem_map_of_mem he))
    have hkey : e.key = COLON :: trim f.key := hf.symm
    rw [hkey, trim_cons (by decide), rdropWhile_trim]
  have hcolon : (es.map fun e => COLON :: trim e.key) = (es.map Slot.key).map (COLON :: ·) := by
    rw [List.map_map]
    apply List.map_congr_left
    intro e he
    rw [htrim e he]
    rfl
  rw [hcolon] at hpermKeys
  have hsum := (hpermKeys.map List.length).sum_nat
  rw [sum_length_colon, List.length_map] at hsum
  apply List.length_eq_zero_iff.1
  have heq : (es.map (Prod.fst ∘ pairOf)) = es.map Slot.key := rfl
  rw [heq] at hsum
  omega

theorem roundTrips_nil (hes : es = []) : RoundTrips d := by
  subst hes
  have hlines : savedLines d = [] := by
    rw [savedLines, sections, hd.entries_eq]
    rfl
  have hr : Reads [] ((savedLines d).filter (· ≠ [])) [] := by
    rw [hlines]
    exact .nil
  apply roundTrips_of_reads hd hl _ hr .nil
  rw [hlines]
  intro line hline
  cases hline

end

/-- A dictionary that was loaded from a file survives being saved and loaded just when every
entry is read as it is written. -/
theorem configIniSaveIni_roundTrips (file : Str) (d : Dic)
    (hload : configInitLoad file = some (some d)) : RoundTrips d ↔ Savable d := by
  have hl := configInitLoad_loaded hload
  obtain ⟨es, hd⟩ := hl.holds
  by_cases hsec : sections d = []
  · constructor
    · intro h
      have hes := nil_of_roundTrips hd hl hsec h
      rw [Savable, hd.entries_eq, hes]
      exact nofun
    · intro h
      exact roundTrips_nil hd hl (nil_of_savable hd hsec h)
  · constructor
    · exact savable_of_sections hd hl hsec
    · exact roundTrips_of_sections hd hl hsec

theorem exists_of_any {x : Option (Option Dic)} {p : Dic → Bool} (h : (x.bind id).any p = true) :
    ∃ d, x = some (some d) ∧ p d = true := by
  rcases x with - | - | d
  · cases h
  · cases h
  · exact ⟨d, rfl, h⟩

/-- The file `[s]` with `k = 1`. -/
theorem configIniSaveIni_roundTrips_plain :
    ∃ d, configInitLoad [91, 115, 93, 10, 107, 32, 61, 32, 49, 10] = some (some d) ∧
      RoundTrips d := by
  obtain ⟨d, hload, hsavable⟩ := exists_of_any (p := fun d => decide (Savable d))
    (x := configInitLoad [91, 115, 93, 10, 107, 32, 61, 32, 49, 10]) (by decide +kernel)
  exact ⟨d, hload, (configIniSaveIni_roundTrips _ d hload).2 (of_decide_eq_true hsavable)⟩

/-- The file `[s]` with `k = "a;b"` is written as `k = a;b` and loaded as `k = a`. -/
theorem not_configIniSaveIni_roundTrips :
    ¬∀ file d, configInitLoad file = some (some d) → RoundTrips d := by
  intro h
  obtain ⟨d, hload, hboth⟩ := exists_of_any
    (x := configInitLoad [91, 115, 93, 10, 107, 32, 61, 32, 34, 97, 59, 98, 34, 10])
    (p := fun d => decide (stringDicGet d [115, 58, 107] = some (some [97, 59, 98])) &&
      ((configInitLoad (configIniSaveIni d)).bind id).any fun d' =>
        decide (stringDicGet d' [115, 58, 107] = some (some [97]))) (by decide +kernel)
  rw [Bool.and_eq_true, decide_eq_true_eq] at hboth
  obtain ⟨e, hreload, hvalue⟩ := exists_of_any hboth.2
  obtain ⟨d', hload', hget⟩ := h _ d hload
  rw [hreload] at hload'
  cases hload'
  have hkey := hget [115, 58, 107]
  rw [of_decide_eq_true hvalue, hboth.1] at hkey
  cases hkey

end BigBox.IniConfig1
