import BigBox.Ini.IniConfig1Reads

namespace BigBox.IniConfig1
open StringDic
set_option autoImplicit true

/-- A file by its lines, and what is behind the last line end. The lines fit in the buffer of
`config_init_load`. -/
structure IniText where
  lines : List Str
  last : Str
  no_end : ∀ line ∈ last :: lines, LF ∉ line
  fits : ∀ line ∈ lines, line.length + 1 < ASCIILINESZ
  last_fits : last.length < ASCIILINESZ

def IniText.file (t : IniText) : Str := fileOf t.lines ++ t.last

/-- The lines of a text, after continued lines are joined. Empty lines are skipped, and a zero
byte ends a line. -/
def logicalLines (full : Option Str) : List Str → List Str
  | [] => full.toList
  | line :: lines =>
    let text := cString (line ++ [LF])
    if text.length ≤ 1 then logicalLines full lines
    else if Continued text then
      logicalLines (some (full.getD [] ++ (text.rdropWhile isspace).dropLast)) lines
    else (full.getD [] ++ text.rdropWhile isspace) :: logicalLines none lines

def IniText.logicalLines (t : IniText) : List Str :=
  IniConfig1.logicalLines none (t.lines ++ [t.last])

/-- The dictionary is null exactly when a line of the file is a syntax error. -/
def IniText.Reports (t : IniText) : Prop :=
  ∃ d, configInitLoad t.file = some d ∧
    (d = none ↔ ∃ l ∈ t.logicalLines, iniparserLine l = some .error)

/-- What `fgets` reads, and whether it meets the end of the file. -/
def IniText.reads (t : IniText) : List (Str × Bool) :=
  t.lines.map (fun line => (cString (line ++ [LF]), false)) ++
    if t.last = [] then [] else [(cString t.last, decide (t.last.length < ASCIILINESZ - 1))]

/-- The lines `config_init_load` hands to `iniparser_line`, and whether it rejects the one behind
them. The result is `none` when an empty string is read. -/
def handed (full : Option Str) : List (Str × Bool) → Option (List Str × Bool)
  | [] => some ([], false)
  | (line, eof) :: rest =>
    if line = [] then none
    else if line.length = 1 then handed full rest
    else if line.getLast? ≠ some LF ∧ eof = false then some ([], true)
    else if Continued line then
      handed (some (full.getD [] ++ (line.rdropWhile isspace).dropLast)) rest
    else (handed none rest).map fun r => ((full.getD [] ++ line.rdropWhile isspace) :: r.1, r.2)

/-- `config_init_load` sets the error counter to what `string_dic_set` returns. -/
def LineStatus.Sets : LineStatus → Prop
  | .section _ => True
  | .value _ _ => True
  | _ => False

/-- A syntax error behind which the error counter is not set. -/
def Remembered (lines : List Str) : Prop :=
  ∃ a l b, lines = a ++ l :: b ∧ iniparserLine l = some .error ∧
    ∀ l' ∈ b, ∀ status, iniparserLine l' = some status → ¬ status.Sets

/-- Every line that is read has defined behaviour, and a syntax error is remembered, or a line is
rejected; a line is rejected only in a file with a syntax error. -/
def IniText.Ok (t : IniText) : Prop :=
  ∃ ls rejected, handed none t.reads = some (ls, rejected) ∧
    (∀ l ∈ ls, iniparserLine l ≠ none) ∧
    ((∃ l ∈ t.logicalLines, iniparserLine l = some .error) → rejected = true ∨ Remembered ls) ∧
    (rejected = true → ∃ l ∈ t.logicalLines, iniparserLine l = some .error)

/-- The loop over the lines that are read. -/
def Loader.readAll (s : Loader) : List (Str × Bool) → Option Loader
  | [] => some s
  | (line, eof) :: rest =>
    match s.line line eof with
    | none => none
    | some (s, true) => s.readAll rest
    | some (s, false) => some s

/-- The error counter after a line. -/
def LineStatus.errs (errs : Int) : LineStatus → Int
  | .error => errs + 1
  | .section _ => 0
  | .value _ _ => 0
  | _ => errs

def errsAfter (errs : Int) (line : Str) : Option Int := (iniparserLine line).map (·.errs errs)

theorem apply_errs (s : Loader) (status : LineStatus) :
    (s.apply status).errs = status.errs s.errs := by
  cases status <;> rfl

theorem apply_fullLine (s : Loader) (status : LineStatus) :
    (s.apply status).fullLine = s.fullLine := by
  cases status <;> rfl

section Read
variable {s : Loader} {last : Str}

theorem loadLoop_nil (fuel : Nat) (s : Loader) : loadLoop fuel s [] = some s := by
  cases fuel <;> rfl

theorem loadLoop_last (hend : LF ∉ last) (hfits : last.length < ASCIILINESZ) (hne : last ≠ []) :
    loadLoop (fuel + 1) s last =
      s.readAll [(cString last, decide (last.length < ASCIILINESZ - 1))] := by
  have hle : last.length ≤ fgetsLength last := by
    rw [fgetsLength, findIdx_none hend]
    exact Nat.le_min.2 ⟨Nat.le_sub_one_of_lt hfits, Nat.le_succ _⟩
  have heof : decide (last.length < fgetsLength last) =
      decide (last.length < ASCIILINESZ - 1) := by
    apply decide_eq_decide.2
    rw [fgetsLength, findIdx_none hend, Nat.lt_min]
    exact and_iff_left (Nat.lt_succ_self _)
  rw [loadLoop, if_neg hne]
  dsimp only
  rw [List.take_of_length_le hle, List.drop_of_length_le hle, heof, Loader.readAll]
  cases s.line (cString last) (decide (last.length < ASCIILINESZ - 1)) with
  | none => rfl
  | some r =>
    obtain ⟨s', b⟩ := r
    cases b with
    | false => rfl
    | true => exact loadLoop_nil fuel s'

theorem loadLoop_ended (hend : LF ∉ line) (hfit : line.length + 1 < ASCIILINESZ) (rest : Str) :
    loadLoop (fuel + 1) s (line ++ [LF] ++ rest) =
      match s.line (cString (line ++ [LF])) false with
      | none => none
      | some (s, true) => loadLoop fuel s rest
      | some (s, false) => some s := by
  have hn : fgetsLength (line ++ [LF] ++ rest) = (line ++ [LF]).length := by
    rw [fgetsLength_line hend, Nat.min_eq_right (Nat.le_sub_one_of_lt hfit), List.length_append]
    rfl
  have heof : decide ((line ++ [LF] ++ rest).length < (line ++ [LF]).length) = false := by
    apply decide_eq_false
    exact Nat.not_lt.2 (List.prefix_append (line ++ [LF]) rest).length_le
  rw [loadLoop, if_neg (by simp), hn]
  dsimp only
  rw [List.take_left, List.drop_left, heof]
  all_goals rfl

/-- The loop of `config_init_load` reads line by line. -/
theorem loadLoop_text (hend : ∀ line ∈ lines, LF ∉ line)
    (hfits : ∀ line ∈ lines, line.length + 1 < ASCIILINESZ) (hlast : LF ∉ last)
    (hlastfits : last.length < ASCIILINESZ) (hfuel : (fileOf lines ++ last).length ≤ fuel) :
    loadLoop fuel s (fileOf lines ++ last) =
      s.readAll (lines.map (fun line => (cString (line ++ [LF]), false)) ++
        if last = [] then [] else [(cString last, decide (last.length < ASCIILINESZ - 1))]) := by
  induction lines generalizing s fuel with
  | nil =>
    change loadLoop fuel s last = s.readAll (if last = [] then [] else _)
    by_cases hnil : last = []
    · rw [if_pos hnil, hnil, loadLoop_nil]
      rfl
    · rw [if_neg hnil]
      cases fuel with
      | zero => exact absurd (List.length_eq_zero_iff.1 (Nat.le_zero.1 hfuel)) hnil
      | succ fuel => exact loadLoop_last hlast hlastfits hnil
  | cons line lines ih =>
    have hfile : fileOf (line :: lines) ++ last = line ++ [LF] ++ (fileOf lines ++ last) := by
      rw [fileOf, List.flatMap_cons, List.append_assoc, ← fileOf]
    rw [hfile] at hfuel ⊢
    rw [List.length_append, List.length_append, List.length_singleton] at hfuel
    obtain ⟨hline, hlines⟩ := List.forall_mem_cons.1 hend
    obtain ⟨hfit, hfits⟩ := List.forall_mem_cons.1 hfits
    cases fuel with
    | zero => omega
    | succ fuel =>
      rw [loadLoop_ended hline hfit, List.map_cons, List.cons_append, Loader.readAll]
      cases s.line (cString (line ++ [LF])) false with
      | none => rfl
      | some r =>
        obtain ⟨s', b⟩ := r
        cases b with
        | false => rfl
        | true => exact ih hlines hfits (by omega)

/-- The error counter depends on the lines handed to `iniparser_line` alone. -/
theorem readAll_errs (s : Loader) (reads : List (Str × Bool)) :
    (s.readAll reads).map Loader.errs = (handed s.fullLine reads).bind fun r =>
      (r.1.foldlM errsAfter s.errs).map fun errs => if r.2 then errs + 1 else errs := by
  induction reads generalizing s with
  | nil => rfl
  | cons read reads ih =>
    obtain ⟨line, eof⟩ := read
    rw [Loader.readAll, Loader.line, handed]
    by_cases hnil : line = []
    · rw [if_pos hnil, if_pos hnil]
      rfl
    · rw [if_neg hnil, if_neg hnil]
      by_cases hone : line.length = 1
      · rw [if_pos hone, if_pos hone]
        exact ih s
      · rw [if_neg hone, if_neg hone]
        by_cases hreject : line.getLast? ≠ some LF ∧ eof = false
        · rw [if_pos hreject, if_pos hreject]
          rfl
        · rw [if_neg hreject, if_neg hreject, rdropWhile_line]
          dsimp only
          by_cases hcont : Continued line
          · rw [if_pos (by exact hcont), if_pos hcont]
            exact ih _
          · rw [if_neg (by exact hcont), if_neg hcont, Option.bind_map]
            generalize s.fullLine.getD [] ++ line.rdropWhile isspace = full
            cases hstatus : iniparserLine full with
            | none =>
              cases handed none reads with
              | none => rfl
              | some r =>
                dsimp only [Option.bind_some, Function.comp_apply]
                rw [List.foldlM_cons, errsAfter, hstatus]
                rfl
            | some status =>
              have hrest := ih (({ s with fullLine := none } : Loader).apply status)
              rw [apply_fullLine, apply_errs] at hrest
              rw [Option.map_some]
              dsimp only
              rw [hrest]
              congr 1
              funext r
              dsimp only [Function.comp_apply]
              rw [List.foldlM_cons, errsAfter, hstatus]
              rfl

end Read

section Errors
variable {ls : List Str} {errs errs' : Int}

theorem remembered_cons (l : Str) (ls : List Str) :
    Remembered (l :: ls) ↔ Remembered ls ∨ iniparserLine l = some .error ∧
      ∀ l' ∈ ls, ∀ status, iniparserLine l' = some status → ¬ status.Sets := by
  constructor
  · rintro ⟨a, m, b, heq, herror, hb⟩
    cases a with
    | nil =>
      cases heq
      exact .inr ⟨herror, hb⟩
    | cons _ a =>
      cases heq
      exact .inl ⟨a, m, b, rfl, herror, hb⟩
  · rintro (⟨a, m, b, rfl, herror, hb⟩ | ⟨herror, hls⟩)
    · exact ⟨l :: a, m, b, rfl, herror, hb⟩
    · exact ⟨[], l, ls, rfl, herror, hls⟩

theorem isSome_foldlM_errsAfter (ls : List Str) (errs : Int) :
    (ls.foldlM errsAfter errs).isSome ↔ ∀ l ∈ ls, iniparserLine l ≠ none := by
  induction ls generalizing errs with
  | nil => exact iff_of_true rfl fun l hl => nomatch hl
  | cons l ls ih =>
    rw [List.foldlM_cons, List.forall_mem_cons, errsAfter]
    cases iniparserLine l with
    | none => exact iff_of_false Bool.false_ne_true fun h => h.1 rfl
    | some status =>
      rw [and_iff_right (Option.some_ne_none status), ← ih]
      rfl

theorem errs_nonneg (h : 0 ≤ errs) (status : LineStatus) : 0 ≤ status.errs errs := by
  cases status with
  | error => exact Int.add_nonneg h (Int.zero_le_ofNat 1)
  | empty => exact h
  | comment => exact h
  | «section» => exact Int.le_refl 0
  | value => exact Int.le_refl 0

theorem errs_ne_zero_iff (h : 0 ≤ errs) (status : LineStatus) :
    status.errs errs ≠ 0 ↔ status = .error ∨ errs ≠ 0 ∧ ¬ status.Sets := by
  cases status with
  | error =>
    have hne : errs + 1 ≠ 0 := by omega
    exact iff_of_true hne (.inl rfl)
  | empty => exact ⟨fun hne => .inr ⟨hne, not_false⟩, fun hor => (hor.resolve_left nofun).1⟩
  | comment => exact ⟨fun hne => .inr ⟨hne, not_false⟩, fun hor => (hor.resolve_left nofun).1⟩
  | «section» =>
    exact iff_of_false (fun hne => hne rfl) fun hor => (hor.resolve_left nofun).2 trivial
  | value => exact iff_of_false (fun hne => hne rfl) fun hor => (hor.resolve_left nofun).2 trivial

/-- The error counter is not 0 in the end when a syntax error is remembered, or it was not 0
before and no line sets it. -/
theorem foldlM_errsAfter (hnonneg : 0 ≤ errs) (h : ls.foldlM errsAfter errs = some errs') :
    0 ≤ errs' ∧ (errs' ≠ 0 ↔ Remembered ls ∨ errs ≠ 0 ∧
      ∀ l ∈ ls, ∀ status, iniparserLine l = some status → ¬ status.Sets) := by
  induction ls generalizing errs with
  | nil =>
    cases h
    refine ⟨hnonneg, fun hne => .inr ⟨hne, fun l hl => nomatch hl⟩, ?_⟩
    rintro (⟨a, l, b, heq, _⟩ | ⟨hne, _⟩)
    · exact absurd heq.symm (List.append_ne_nil_of_right_ne_nil a (List.cons_ne_nil l b))
    · exact hne
  | cons l ls ih =>
    obtain ⟨errs₁, hline, hrest⟩ := Option.bind_eq_some_iff.1 h
    obtain ⟨status, hstatus, rfl⟩ := Option.map_eq_some_iff.1 hline
    have hsets : (∀ status', iniparserLine l = some status' → ¬ status'.Sets) ↔ ¬ status.Sets := by
      rw [hstatus]
      exact ⟨fun hall => hall status rfl, fun hnot status' heq => Option.some.inj heq ▸ hnot⟩
    obtain ⟨hle, hiff⟩ := ih (errs_nonneg hnonneg status) hrest
    refine ⟨hle, hiff.trans ?_⟩
    rw [remembered_cons, List.forall_mem_cons, hsets, hstatus, Option.some_inj, or_assoc,
      errs_ne_zero_iff hnonneg, or_and_right, and_assoc]

end Errors

section Reports
variable {full : Option Str} {lines : List Str} {last : Str}

/-- The line end is only seen when no zero byte is in front of it. -/
theorem cString_line (line : Str) :
    cString (line ++ [LF]) = cString line ∨ cString (line ++ [LF]) = cString line ++ [LF] := by
  rw [cString, List.takeWhile_append]
  split
  case isFalse => exact .inl rfl
  case isTrue hall =>
    have hline : cString line = line := (List.takeWhile_prefix _).eq_of_length hall
    rw [hline]
    exact .inr rfl

theorem rdropWhile_cString (line : Str) :
    (cString (line ++ [LF])).rdropWhile isspace = (cString line).rdropWhile isspace := by
  rcases cString_line line with h | h
  · rw [h]
  · rw [h, List.rdropWhile_concat_pos _ _ _ (by rfl)]

theorem length_cString_le (line : Str) :
    (cString line).length ≤ (cString (line ++ [LF])).length := by
  rcases cString_line line with h | h
  · rw [h]
  · rw [h]
    exact (List.prefix_append _ _).length_le

theorem handed_last (h : handed full [(cString last, eof)] = some (ls, rejected)) :
    ∀ l ∈ ls, l ∈ logicalLines full [last] := by
  rw [handed] at h
  split at h
  case isTrue => cases h
  case isFalse hnil =>
    split at h
    case isTrue =>
      cases h
      exact fun l hl => nomatch hl
    case isFalse hone =>
      split at h
      case isTrue =>
        cases h
        exact fun l hl => nomatch hl
      case isFalse =>
        split at h
        case isTrue =>
          cases h
          exact fun l hl => nomatch hl
        case isFalse hcont =>
          cases h
          have hpos := List.length_pos_of_ne_nil hnil
          have hle := length_cString_le last
          have hcont' : ¬ Continued (cString (last ++ [LF])) := by
            rwa [Continued, rdropWhile_cString]
          rw [logicalLines]
          dsimp only
          rw [if_neg (by omega), if_neg hcont', rdropWhile_cString]
          exact fun l hl => List.mem_cons.2 (.inl (List.mem_singleton.1 hl))

/-- The lines handed to `iniparser_line` are lines of the file. -/
theorem handed_subset
    (h : handed full (lines.map (fun line => (cString (line ++ [LF]), false)) ++
      if last = [] then [] else [(cString last, eof)]) = some (ls, rejected)) :
    ∀ l ∈ ls, l ∈ logicalLines full (lines ++ [last]) := by
  induction lines generalizing full ls rejected with
  | nil =>
    rw [List.map_nil, List.nil_append] at h
    split at h
    case isTrue =>
      cases h
      exact fun l hl => nomatch hl
    case isFalse => exact handed_last h
  | cons line lines ih =>
    rw [List.map_cons, List.cons_append, handed] at h
    rw [List.cons_append, logicalLines]
    split at h
    case isTrue => cases h
    case isFalse hnil =>
      split at h
      case isTrue hone =>
        rw [if_pos (Nat.le_of_eq hone)]
        exact ih h
      case isFalse hone =>
        have hpos := List.length_pos_of_ne_nil hnil
        rw [if_neg (by omega)]
        split at h
        case isTrue =>
          cases h
          exact fun l hl => nomatch hl
        case isFalse =>
          split at h
          case isTrue hcont =>
            rw [if_pos hcont]
            exact ih h
          case isFalse hcont =>
            rw [if_neg hcont]
            obtain ⟨r, hr, heq⟩ := Option.map_eq_some_iff.1 h
            cases heq
            exact List.forall_mem_cons.2 ⟨List.mem_cons_self,
              fun l hl => List.mem_cons_of_mem _ (ih hr l hl)⟩

theorem IniText.configInitLoad_eq (t : IniText) :
    configInitLoad t.file = (Loader.start.readAll t.reads).map fun s =>
      if s.errs = 0 then some s.d else none := by
  obtain ⟨hlast, hlines⟩ := List.forall_mem_cons.1 t.no_end
  rw [configInitLoad, IniText.file, loadLoop_text hlines t.fits hlast t.last_fits (Nat.le_refl _)]
  rfl

/-- A file whose lines are defined has no dictionary when a line is rejected or a syntax error is
remembered. -/
theorem IniText.load_of_handed (t : IniText) (hhanded : handed none t.reads = some (ls, rejected))
    (hdefined : ∀ l ∈ ls, iniparserLine l ≠ none) :
    ∃ d, configInitLoad t.file = some d ∧ (d = none ↔ rejected = true ∨ Remembered ls) := by
  obtain ⟨errs, herrs⟩ := Option.isSome_iff_exists.1 ((isSome_foldlM_errsAfter ls 0).2 hdefined)
  obtain ⟨hnonneg, hiff⟩ := foldlM_errsAfter (Int.le_refl 0) herrs
  have hread := readAll_errs Loader.start t.reads
  change _ = (handed none t.reads).bind _ at hread
  rw [hhanded] at hread
  change _ = (ls.foldlM errsAfter 0).map _ at hread
  rw [herrs] at hread
  obtain ⟨s, hs, hcount⟩ := Option.map_eq_some_iff.1 hread
  rw [t.configInitLoad_eq, hs]
  refine ⟨_, rfl, ?_⟩
  dsimp only at hcount ⊢
  rw [hcount]
  cases rejected with
  | true =>
    have hne : errs + 1 ≠ 0 := by omega
    exact iff_of_true (if_neg hne) (.inl rfl)
  | false =>
    by_cases hzero : errs = 0
    · subst hzero
      apply iff_of_false
      · exact Option.some_ne_none s.d
      · exact fun hor => hiff.2 (.inl (hor.resolve_left Bool.false_ne_true)) rfl
    · exact iff_of_true (if_neg hzero) (.inr ((hiff.1 hzero).resolve_right fun h => h.1 rfl))

theorem IniText.defined_of_load (t : IniText) (h : configInitLoad t.file = some d) :
    ∃ ls rejected, handed none t.reads = some (ls, rejected) ∧
      ∀ l ∈ ls, iniparserLine l ≠ none := by
  rw [t.configInitLoad_eq] at h
  obtain ⟨s, hs, _⟩ := Option.map_eq_some_iff.1 h
  have hread := readAll_errs Loader.start t.reads
  rw [hs] at hread
  obtain ⟨r, hr, hrest⟩ := Option.bind_eq_some_iff.1 hread.symm
  obtain ⟨errs, herrs, _⟩ := Option.map_eq_some_iff.1 hrest
  refine ⟨r.1, r.2, hr, (isSome_foldlM_errsAfter r.1 0).1 ?_⟩
  exact Option.isSome_iff_exists.2 ⟨errs, herrs⟩

/-- A file with a syntax error has no dictionary when no section or value line is handed to
`iniparser_line` behind it, or a line is rejected. -/
theorem IniText.reports_iff (t : IniText) : t.Reports ↔ t.Ok := by
  constructor
  · rintro ⟨d, hload, hnone⟩
    obtain ⟨ls, rejected, hhanded, hdefined⟩ := t.defined_of_load hload
    obtain ⟨d', hload', hnone'⟩ := t.load_of_handed hhanded hdefined
    cases hload.symm.trans hload'
    refine ⟨ls, rejected, hhanded, hdefined, fun herror => hnone'.1 (hnone.2 herror), ?_⟩
    exact fun hrejected => hnone.1 (hnone'.2 (.inl hrejected))
  · rintro ⟨ls, rejected, hhanded, hdefined, hseen, hrejected⟩
    obtain ⟨d, hload, hnone⟩ := t.load_of_handed hhanded hdefined
    refine ⟨d, hload, hnone.trans ⟨?_, hseen⟩⟩
    rintro (h | ⟨a, l, b, rfl, herror, _⟩)
    · exact hrejected h
    · have hmem : l ∈ a ++ l :: b := List.mem_append_right a List.mem_cons_self
      exact ⟨l, handed_subset hhanded l hmem, herror⟩

/-- The section behind the syntax error sets the error counter back. -/
def forgotten : IniText where
  lines := [[120, 121], [91, 115, 93]]
  last := []
  no_end := by decide
  fits := by decide
  last_fits := by decide

theorem not_reports : ¬ forgotten.Reports := by
  rintro ⟨d, hload, hnone⟩
  have hsome : (configInitLoad forgotten.file).map Option.isSome = some true := by decide +kernel
  have herror : ∃ l ∈ forgotten.logicalLines, iniparserLine l = some .error := by decide +kernel
  rw [hload, hnone.2 herror] at hsome
  cases hsome

end Reports

end BigBox.IniConfig1
