import BigBox.Ini.IniConfig1Load

namespace BigBox.IniConfig1
open StringDic
set_option autoImplicit true

/-- The text of a file with these lines. -/
def fileOf (lines : List Str) : Str := lines.flatMap (· ++ [LF])

/-- The line is continued by the next one. -/
def Continued (line : Str) : Prop := (line.rdropWhile isspace).getLast? = some BACKSLASH

instance (line : Str) : Decidable (Continued line) := inferInstanceAs (Decidable (_ = _))

/-- What a line without its line end does to the state. -/
def Loader.step (s : Loader) (line : Str) : Option Loader :=
  if line = [] then some s
  else if Continued line then
    some { s with fullLine := some (s.fullLine.getD [] ++ (line.rdropWhile isspace).dropLast) }
  else (iniparserLine (s.fullLine.getD [] ++ line.rdropWhile isspace)).map
    ({ s with fullLine := none } : Loader).apply

/-- A line end is white space. -/
theorem rdropWhile_line (line : Str) :
    line.rdropWhile (fun c => c = LF ∨ isspace c) = line.rdropWhile isspace := by
  congr 1
  funext c
  by_cases hc : c = LF
  · subst hc
    rfl
  · rw [Bool.decide_or, decide_eq_false hc, Bool.false_or, Bool.decide_eq_true]

theorem line_eq_step (s : Loader) (h : Clean line) (eof : Bool) :
    s.line (line ++ [LF]) eof = (s.step line).map fun s => (s, true) := by
  have hstrip : (line ++ [LF]).rdropWhile (fun c => c = LF ∨ isspace c) =
      line.rdropWhile isspace := by
    rw [rdropWhile_line, List.rdropWhile_concat_pos _ _ _ (by rfl)]
  rw [Loader.line, Loader.step, if_neg (by simp), List.length_append, List.length_singleton,
    List.getLast?_concat]
  by_cases hnil : line = []
  · subst hnil
    rfl
  · have hlen : line.length + 1 ≠ 1 :=
      fun heq => hnil (List.length_eq_zero_iff.1 (Nat.succ.inj heq))
    rw [if_neg hlen, if_neg (fun h => h.1 rfl), if_neg hnil, hstrip]
    dsimp only
    by_cases hcont : Continued line
    · rw [if_pos (by exact hcont), if_pos hcont]
      rfl
    · rw [if_neg (by exact hcont), if_neg hcont, Option.map_map]
      rfl

theorem findIdx_none {line : Str} (h : LF ∉ line) : line.findIdx (· = LF) = line.length := by
  rw [List.findIdx_eq_length]
  intro c hc
  rw [decide_eq_false_iff_not]
  rintro rfl
  exact h hc

theorem fgetsLength_line (h : LF ∉ line) (rest : Str) :
    fgetsLength (line ++ [LF] ++ rest) = min (ASCIILINESZ - 1) (line.length + 1) := by
  have hidx : (line ++ [LF]).findIdx (· = LF) = line.length := by
    rw [List.findIdx_append, findIdx_none h, if_neg (Nat.lt_irrefl _)]
    exact Nat.zero_add _
  have hlt : (line ++ [LF]).findIdx (· = LF) < (line ++ [LF]).length := by
    rw [hidx, List.length_append]
    exact Nat.lt_succ_self _
  rw [fgetsLength, List.findIdx_append, if_pos hlt, hidx]

theorem not_mem_line (h : Clean line) : 0 ∉ line ++ [LF] := by
  intro hc
  rcases List.mem_append.1 hc with hc | hc
  · exact h.1 hc
  · cases List.mem_singleton.1 hc

theorem loadLoop_line (h : Clean line) (hfit : line.length + 1 < ASCIILINESZ) (rest : Str) :
    loadLoop (fuel + 1) s (line ++ [LF] ++ rest) =
      (s.step line).bind fun s => loadLoop fuel s rest := by
  have hn : fgetsLength (line ++ [LF] ++ rest) = (line ++ [LF]).length := by
    rw [fgetsLength_line h.2, Nat.min_eq_right (Nat.le_sub_one_of_lt hfit), List.length_append]
    rfl
  rw [loadLoop, if_neg (by simp), hn]
  dsimp only
  rw [List.take_left, List.drop_left, cString_clean (not_mem_line h), line_eq_step s h]
  cases s.step line with
  | none => rfl
  | some s => rfl

/-- A file of lines that fit in the buffer is loaded line by line. -/
theorem loadLoop_lines (h : ∀ line ∈ lines, Clean line)
    (hfit : ∀ line ∈ lines, line.length + 1 < ASCIILINESZ) (hfuel : (fileOf lines).length ≤ fuel) :
    loadLoop fuel s (fileOf lines) = lines.foldlM Loader.step s := by
  induction lines generalizing s fuel with
  | nil => cases fuel <;> rfl
  | cons line lines ih =>
    have hfile : fileOf (line :: lines) = line ++ [LF] ++ fileOf lines := List.flatMap_cons
    rw [hfile] at hfuel ⊢
    rw [List.length_append, List.length_append, List.length_singleton] at hfuel
    cases fuel with
    | zero => omega
    | succ fuel =>
      rw [loadLoop_line (h line List.mem_cons_self) (hfit line List.mem_cons_self),
        List.foldlM_cons]
      congr 1
      funext s
      exact ih (fun l hl => h l (List.mem_cons_of_mem _ hl))
        (fun l hl => hfit l (List.mem_cons_of_mem _ hl)) (by omega)

theorem step_errs {s : Loader} (h : s.step line = some s') (hs : 0 ≤ s.errs) :
    0 ≤ s'.errs := by
  rw [Loader.step] at h
  split at h
  case isTrue =>
    cases h
    exact hs
  case isFalse =>
    split at h
    case isTrue =>
      cases h
      exact hs
    case isFalse =>
      obtain ⟨status, -, rfl⟩ := Option.map_eq_some_iff.1 h
      cases status with
      | error => exact Int.add_nonneg hs (Int.zero_le_ofNat 1)
      | empty => exact hs
      | comment => exact hs
      | «section» => exact Int.le_refl _
      | value => exact Int.le_refl _

/-- A line that does not fit in the buffer ends the loop with an error. -/
theorem loadLoop_long (h : Clean line) (hlong : ASCIILINESZ ≤ line.length + 1)
    (hload : loadLoop (fuel + 1) s (line ++ [LF] ++ rest) = some s') : s'.errs = s.errs + 1 := by
  have hsize : ASCIILINESZ - 1 ≤ line.length := Nat.sub_le_of_le_add hlong
  have hn : fgetsLength (line ++ [LF] ++ rest) = ASCIILINESZ - 1 := by
    rw [fgetsLength_line h.2, Nat.min_eq_left (Nat.le_succ_of_le hsize)]
  have htake : (line ++ [LF] ++ rest).take (ASCIILINESZ - 1) = line.take (ASCIILINESZ - 1) := by
    rw [List.append_assoc, List.take_append_of_le_length hsize]
  have hlen : (line.take (ASCIILINESZ - 1)).length = ASCIILINESZ - 1 := by
    rw [List.length_take, Nat.min_eq_left hsize]
  have hzero : 0 ∉ line.take (ASCIILINESZ - 1) := fun hc => h.1 (List.mem_of_mem_take hc)
  have hlast : (line.take (ASCIILINESZ - 1)).getLast? ≠ some LF := by
    intro hlast
    exact h.2 (List.mem_of_mem_take (List.mem_of_getLast? hlast))
  have heof : decide ((line ++ [LF] ++ rest).length < ASCIILINESZ - 1) = false := by
    rw [decide_eq_false_iff_not, List.length_append, List.length_append]
    omega
  have hne : line.take (ASCIILINESZ - 1) ≠ [] := by
    intro hnil
    rw [hnil] at hlen
    cases hlen
  rw [loadLoop, if_neg (by simp), hn] at hload
  dsimp only at hload
  rw [htake, heof, cString_clean hzero, Loader.line, if_neg hne, if_neg (by rw [hlen]; decide),
    if_pos ⟨hlast, rfl⟩] at hload
  dsimp only at hload
  cases hload
  rfl

/-- Every line of a file that is loaded without errors fits in the buffer. -/
theorem loadLoop_fits (h : ∀ line ∈ lines, Clean line) (hs : 0 ≤ s.errs)
    (hfuel : (fileOf lines).length ≤ fuel) (hload : loadLoop fuel s (fileOf lines) = some s')
    (herrs : s'.errs = 0) : ∀ line ∈ lines, line.length + 1 < ASCIILINESZ := by
  induction lines generalizing s fuel with
  | nil => exact nofun
  | cons line lines ih =>
    have hfile : fileOf (line :: lines) = line ++ [LF] ++ fileOf lines := List.flatMap_cons
    rw [hfile] at hfuel hload
    rw [List.length_append, List.length_append, List.length_singleton] at hfuel
    cases fuel with
    | zero => omega
    | succ fuel =>
      by_cases hlong : ASCIILINESZ ≤ line.length + 1
      · have := loadLoop_long (h line List.mem_cons_self) hlong hload
        omega
      · have hfit : line.length + 1 < ASCIILINESZ := Nat.lt_of_not_le hlong
        rw [loadLoop_line (h line List.mem_cons_self) hfit] at hload
        obtain ⟨s₁, hstep, hrest⟩ := Option.bind_eq_some_iff.1 hload
        have hlines := ih (fun l hl => h l (List.mem_cons_of_mem _ hl)) (step_errs hstep hs)
          (by omega) hrest
        exact List.forall_mem_cons.2 ⟨hfit, hlines⟩

/-- A key and the value it is set to. -/
abbrev Op := Str × Option Str

def setAll (d : Dic) (ops : List Op) : Dic := ops.foldl (fun d op => stringDicSet d op.1 op.2) d

/-- Lines that set one key each, when the section in front of them is given. -/
inductive Reads : Str → List Str → List Op → Prop
  | nil : Reads sect [] []
  | section (h : iniparserLine line = some (.section name)) (rest : Reads name lines ops) :
    Reads sect (line :: lines) ((name, none) :: ops)
  | value (h : iniparserLine line = some (.value key value)) (rest : Reads sect lines ops) :
    Reads sect (line :: lines) ((sect ++ COLON :: key, some value) :: ops)

theorem Reads.length_eq (h : Reads sect lines ops) : ops.length = lines.length := by
  induction h with
  | nil => rfl
  | «section» _ _ ih => exact congrArg Nat.succ ih
  | value _ _ ih => exact congrArg Nat.succ ih

theorem iniparserLine_rdropWhile (line : Str) :
    iniparserLine (line.rdropWhile isspace) = iniparserLine line := by
  rw [iniparserLine_eq, iniparserLine_eq, trim_rdropWhile]

/-- Lines set at most one key each, and exactly one only when each of them does. -/
theorem foldlM_step_reads {lines : List Str} {s s' : Loader}
    (h : lines.foldlM Loader.step s = some s') : ∃ ops,
    s'.d = setAll s.d ops ∧ ops.length ≤ (lines.filter (· ≠ [])).length ∧
      (ops.length = (lines.filter (· ≠ [])).length → s.fullLine = none →
        (∀ line ∈ lines, ¬Continued line) ∧ Reads s.sect (lines.filter (· ≠ [])) ops) := by
  induction lines generalizing s with
  | nil =>
    cases h
    exact ⟨[], rfl, Nat.le_refl _, fun _ _ => ⟨nofun, .nil⟩⟩
  | cons line lines ih =>
    rw [List.foldlM_cons] at h
    obtain ⟨s₁, hstep, hrest⟩ := Option.bind_eq_some_iff.1 h
    obtain ⟨ops, hd, hlen, hreads⟩ := ih hrest
    rw [Loader.step] at hstep
    by_cases hnil : line = []
    · subst hnil
      rw [if_pos rfl] at hstep
      cases hstep
      refine ⟨ops, hd, hlen, ?_⟩
      intro heq hfull
      obtain ⟨hcont, hr⟩ := hreads heq hfull
      exact ⟨List.forall_mem_cons.2 ⟨nofun, hcont⟩, hr⟩
    · have hfilter : (line :: lines).filter (· ≠ []) = line :: lines.filter (· ≠ []) :=
        List.filter_cons_of_pos (decide_eq_true hnil)
      rw [hfilter, List.length_cons]
      have hshort : ∀ {P : Prop}, ops.length = (lines.filter (· ≠ [])).length + 1 → P := fun heq =>
        absurd (heq ▸ hlen) (Nat.not_succ_le_self _)
      rw [if_neg hnil] at hstep
      by_cases hc : Continued line
      · rw [if_pos hc] at hstep
        cases hstep
        exact ⟨ops, hd, Nat.le_succ_of_le hlen, fun heq _ => hshort heq⟩
      · rw [if_neg hc] at hstep
        obtain ⟨status, hstatus, rfl⟩ := Option.map_eq_some_iff.1 hstep
        have hread : s.fullLine = none → iniparserLine line = some status := by
          intro hfull
          rwa [hfull, Option.getD_none, List.nil_append, iniparserLine_rdropWhile] at hstatus
        cases status with
        | error => exact ⟨ops, hd, Nat.le_succ_of_le hlen, fun heq _ => hshort heq⟩
        | empty => exact ⟨ops, hd, Nat.le_succ_of_le hlen, fun heq _ => hshort heq⟩
        | comment => exact ⟨ops, hd, Nat.le_succ_of_le hlen, fun heq _ => hshort heq⟩
        | «section» name =>
          refine ⟨(name, none) :: ops, hd, Nat.succ_le_succ hlen, ?_⟩
          intro heq hfull
          obtain ⟨hcont, hr⟩ := hreads (Nat.succ.inj heq) rfl
          exact ⟨List.forall_mem_cons.2 ⟨hc, hcont⟩, .section (hread hfull) hr⟩
        | value key value =>
          refine ⟨(s.sect ++ COLON :: key, some value) :: ops, hd, Nat.succ_le_succ hlen, ?_⟩
          intro heq hfull
          obtain ⟨hcont, hr⟩ := hreads (Nat.succ.inj heq) rfl
          exact ⟨List.forall_mem_cons.2 ⟨hc, hcont⟩, .value (hread hfull) hr⟩

/-- Lines that set one key each and are not continued are loaded without an error. -/
theorem Reads.foldlM_step {lines : List Str} {s : Loader}
    (h : Reads sect (lines.filter (· ≠ [])) ops)
    (hsect : s.sect = sect) (hcont : ∀ line ∈ lines, ¬Continued line) (hfull : s.fullLine = none)
    (herrs : s.errs = 0) :
    ∃ s', lines.foldlM Loader.step s = some s' ∧ s'.d = setAll s.d ops ∧ s'.errs = 0 := by
  induction lines generalizing s sect ops with
  | nil =>
    cases h
    exact ⟨s, rfl, rfl, herrs⟩
  | cons line lines ih =>
    obtain ⟨hc, hrest⟩ := List.forall_mem_cons.1 hcont
    rw [List.foldlM_cons, Loader.step]
    by_cases hnil : line = []
    · subst hnil
      rw [if_pos rfl]
      exact ih h hsect hrest hfull herrs
    · rw [List.filter_cons_of_pos (by exact decide_eq_true hnil)] at h
      rw [if_neg hnil, if_neg hc, hfull, Option.getD_none, List.nil_append,
        iniparserLine_rdropWhile]
      cases h with
      | «section» hline rest =>
        rw [hline]
        exact ih rest rfl hrest rfl rfl
      | value hline rest =>
        rw [hline]
        subst hsect
        exact ih rest rfl hrest rfl rfl

/-- The keys of a dictionary that was filled by `ops`. -/
theorem mem_of_get_setAll {ops : List Op} (hd : d.Holds es)
    (h : stringDicGet (setAll d ops) k ≠ none) :
    k ∈ ops.map Prod.fst ∨ stringDicGet d k ≠ none := by
  induction ops generalizing d es with
  | nil => exact .inr h
  | cons op ops ih =>
    obtain ⟨es', hd', hget⟩ := hd.set op.1 op.2
    rw [List.map_cons]
    rcases ih hd' h with hk | hk
    · exact .inl (List.mem_cons_of_mem _ hk)
    · rw [hget] at hk
      split at hk
      case isTrue heq =>
        rw [heq]
        exact .inl List.mem_cons_self
      case isFalse => exact .inr hk

/-- With distinct keys each one has the value it was set to. -/
theorem get_setAll {ops : List Op} (hd : d.Holds es) (hnodup : (ops.map Prod.fst).Nodup) :
    stringDicGet (setAll d ops) k = some v ↔
      (k, v) ∈ ops ∨ k ∉ ops.map Prod.fst ∧ stringDicGet d k = some v := by
  induction ops generalizing d es with
  | nil => exact ⟨fun h => .inr ⟨nofun, h⟩, fun h => (h.resolve_left nofun).2⟩
  | cons op ops ih =>
    obtain ⟨es', hd', hget⟩ := hd.set op.1 op.2
    rw [List.map_cons, List.nodup_cons] at hnodup
    rw [setAll, List.foldl_cons, ← setAll, ih hd' hnodup.2, hget, List.map_cons]
    by_cases hk : k = op.1
    · subst hk
      rw [if_pos rfl]
      constructor
      · rintro (hmem | ⟨-, heq⟩)
        · exact absurd (List.mem_map_of_mem hmem) hnodup.1
        · cases heq
          exact .inl List.mem_cons_self
      · rintro (hmem | ⟨hnot, -⟩)
        · rcases List.mem_cons.1 hmem with heq | hmem
          · exact .inr ⟨hnodup.1, congrArg some (congrArg Prod.snd heq).symm⟩
          · exact absurd (List.mem_map_of_mem hmem) hnodup.1
        · exact absurd List.mem_cons_self hnot
    · rw [if_neg hk]
      have hne : (k, v) ≠ op := fun heq => hk (congrArg Prod.fst heq)
      simp only [List.mem_cons, hne, hk, false_or]

end BigBox.IniConfig1
