import BigBox.Lib.Search
import BigBox.StrOpt.StrOpt

namespace BigBox.StrOpt
open Loop
set_option autoImplicit true

/-- An `int` as a `size_t`. -/
def sizeOfInt (i : Int) : Nat := (i % 18446744073709551616).toNat

/-- `string::substr` up to the end. A position behind the end throws. -/
def substrFrom (s : List UInt8) (pos : Nat) : Option (List UInt8) :=
  if pos ≤ s.length then some (s.drop pos) else none

/-- A round of the loops over the fields of a text. The places of the separators, with their sizes,
and the start of the next field are those of the function. -/
def levelRound (path : List UInt8) (sepAt : Nat → Option (Nat × Nat))
    (next : Nat → Nat → Option Int) (level : Int) :
    Int × Int → Option (Round (Int × Int) (List UInt8 × Int))
  | (an_dir, t_lev) =>
    match sepAt (sizeOfInt an_dir) with
    | none => do
      let field ← if t_lev = level then substrFrom path (sizeOfInt an_dir) else some []
      return .done (field, toInt path.length)
    | some (t_dir, size) =>
      if t_lev = level then do
        let field ← substrFrom path (sizeOfInt an_dir)
        return .done (field.take (t_dir - sizeOfInt an_dir), toInt (t_dir + size))
      else do
        let an_dir ← next t_dir size
        let t_lev ← checkedInt (t_lev + 1)
        return .next (an_dir, t_lev)

/-- A field of a text, and the offset behind it where there is one, up to so many rounds. -/
def levelParse (fuel : Nat) (path : List UInt8) (sepAt : Nat → Option (Nat × Nat))
    (next : Nat → Nat → Option Int) (level : Int) (off : Option Int) :
    Option (List UInt8 × Option Int) :=
  let an_dir := off.getD 0
  if toInt path.length ≤ an_dir then some ([], off)
  else (iterate (levelRound path sepAt next level) fuel (an_dir, 0)).map fun (field, behind) =>
    (field, off.map fun _ => behind)

/-- The start of the field behind a separator. -/
def nextField (t_dir size : Nat) : Option Int := some (toInt (t_dir + size))

/-- The place that `string::find` finds, with the size of the separator. -/
def findSep (path sep : List UInt8) (pos : Nat) : Option (Nat × Nat) :=
  (strstr sep (path.drop pos)).map fun r => (path.length - r.length, sep.length)

/-- The loop over merged separators, which may go so many characters on. -/
def skipSep (path : List UInt8) (sep : UInt8) : Nat → Int → Option Int
  | 0, an_dir => some an_dir
  | n + 1, an_dir => do
    let c ← charAt path (sizeOfInt an_dir)
    if c = sep then skipSep path sep n (an_dir + 1) else some an_dir

/-- The start of the next field of `StrOpt::strParse`. -/
def nextParse (path sep : List UInt8) (mergeSepSymb : Bool) (t_dir size : Nat) : Option Int :=
  match mergeSepSymb, sep with
  | true, [c] =>
    skipSep path c (toInt path.length - toInt t_dir).toNat (toInt t_dir)
  | _, _ => nextField t_dir size

/-- The end of a line in `StrOpt::strLine`, with its size. -/
def lineEnd (str : List UInt8) (pos : Nat) : Option (Nat × Nat) :=
  match (str.drop pos).dropWhile fun c => c ≠ 13 ∧ c ≠ 10 with
  | [] => none
  | c :: rest =>
    some (str.length - (rest.length + 1), if c = 13 ∧ rest.head? = some 10 then 2 else 1)

/-- `StrOpt::strSepParse`. -/
def strSepParse (fuel : Nat) (path : List UInt8) (level : Int) (sep : UInt8) (off : Option Int) :
    Option (List UInt8 × Option Int) :=
  levelParse fuel path (findSep path [sep]) nextField level off

/-- `StrOpt::strParse`. -/
def strParse (fuel : Nat) (path : List UInt8) (level : Int) (sep : List UInt8) (off : Option Int)
    (mergeSepSymb : Bool) : Option (List UInt8 × Option Int) :=
  if sep.length = 0 then some ([], off)
  else levelParse fuel path (findSep path sep) (nextParse path sep mergeSepSymb) level off

/-- `StrOpt::strLine`. -/
def strLine (fuel : Nat) (str : List UInt8) (level : Int) (off : Option Int) :
    Option (List UInt8 × Option Int) :=
  levelParse fuel str (lineEnd str) nextField level off

/-- A function from the rounds, the level and the offset. -/
abbrev Parser := Nat → Int → Option Int → Option (List UInt8 × Option Int)

/-- The result of the last of `k + 1` successive calls, the first from an offset. -/
def NthCall (parse : Parser) : Nat → Int → List UInt8 → Prop
  | 0, off, field => ∃ fuel behind, parse fuel 0 (some off) = some (field, behind)
  | k + 1, off, field => ∃ fuel first behind,
    parse fuel 0 (some off) = some (first, some behind) ∧ NthCall parse k behind field

/-- A call for a level returns what as many successive calls return. -/
def Agrees (parse : Parser) : Prop :=
  ∀ k : Nat, k < 2147483648 → ∃ field,
    (∃ fuel behind, parse fuel k none = some (field, behind)) ∧ NthCall parse k 0 field

/-- The three functions agree for a text. -/
def ParsesAgree (text sep : List UInt8) (c : UInt8) (merge : Bool) : Prop :=
  Agrees (fun fuel level off => strParse fuel text level sep off merge) ∧
    Agrees (fun fuel level off => strSepParse fuel text level c off) ∧
    Agrees (fun fuel level off => strLine fuel text level off)

/-- The field of a level from a position on, and the offset behind it. -/
def levelField (path : List UInt8) (sepAt : Nat → Option (Nat × Nat)) (next : Nat → Nat → Nat) :
    Nat → Nat → List UInt8 × Nat
  | 0, pos =>
    match sepAt pos with
    | none => (path.drop pos, path.length)
    | some (t_dir, size) => ((path.drop pos).take (t_dir - pos), t_dir + size)
  | k + 1, pos =>
    match sepAt pos with
    | none => ([], path.length)
    | some (t_dir, size) => levelField path sepAt next k (next t_dir size)

/-- The separators that are found lie behind the position and inside the text. -/
def Separates (path : List UInt8) (sepAt : Nat → Option (Nat × Nat)) : Prop :=
  ∀ pos t_dir size, sepAt pos = some (t_dir, size) →
    pos ≤ t_dir ∧ 0 < size ∧ t_dir + size ≤ path.length

/-- The next field starts behind the separator, at the latest at the end of the text. -/
def Advances (path : List UInt8) (sepAt : Nat → Option (Nat × Nat))
    (next : Nat → Nat → Option Int) (place : Nat → Nat → Nat) : Prop :=
  ∀ pos t_dir size, sepAt pos = some (t_dir, size) →
    next t_dir size = some (place t_dir size : Int) ∧ t_dir + size ≤ place t_dir size ∧
      place t_dir size ≤ path.length

section Level
variable {path : List UInt8} {sepAt : Nat → Option (Nat × Nat)} {next : Nat → Nat → Option Int}
  {place : Nat → Nat → Nat} {k pos lev : Nat} {out : List UInt8 × Int}

theorem sizeOfInt_natCast {n : Nat} (h : n < 18446744073709551616) : sizeOfInt (n : Int) = n := by
  rw [sizeOfInt]
  omega

theorem substrFrom_of_le {s : List UInt8} (h : pos ≤ s.length) :
    substrFrom s pos = some (s.drop pos) := if_pos h

/-- The loop finds the field of the level. -/
theorem returns_level (hsep : Separates path sepAt) (hnext : Advances path sepAt next place)
    (hlen : path.length < 2147483648) (hpos : pos ≤ path.length) (hlev : lev ≤ pos) :
    Returns (levelRound path sepAt next ((lev + k : Nat) : Int)) ((pos : Int), (lev : Int)) out ↔
      ((levelField path sepAt place k pos).1, ((levelField path sepAt place k pos).2 : Int)) =
        out := by
  have hsize : sizeOfInt (pos : Int) = pos := sizeOfInt_natCast (by omega)
  have hint : toInt path.length = path.length := toInt_of_lt hlen
  induction k generalizing pos lev with
  | zero =>
    rw [levelField]
    cases hfound : sepAt pos with
    | none =>
      apply returns_done
      simp only [levelRound, hsize, hfound, Nat.add_zero, if_true, substrFrom_of_le hpos, hint,
        Option.bind_eq_bind, Option.bind_some]
      rfl
    | some found =>
      obtain ⟨t_dir, size⟩ := found
      obtain ⟨_, _, hle⟩ := hsep pos t_dir size hfound
      apply returns_done
      simp only [levelRound, hsize, hfound, Nat.add_zero, if_true, substrFrom_of_le hpos,
        Option.bind_eq_bind, Option.bind_some]
      rw [toInt_of_lt (by omega)]
      rfl
  | succ k ih =>
    have hne : ¬((lev : Int) = ((lev + (k + 1) : Nat) : Int)) := by
      omega
    rw [levelField]
    cases hfound : sepAt pos with
    | none =>
      apply returns_done
      simp only [levelRound, hsize, hfound, if_neg hne, hint, Option.bind_eq_bind,
        Option.bind_some]
      rfl
    | some found =>
      obtain ⟨t_dir, size⟩ := found
      obtain ⟨hle, hpositive, hend⟩ := hsep pos t_dir size hfound
      obtain ⟨hplace, hbehind, hinside⟩ := hnext pos t_dir size hfound
      have hcheck : checkedInt ((lev : Int) + 1) = some ((lev + 1 : Nat) : Int) :=
        checkedInt_of_lt (by omega) (by omega)
      have hround : levelRound path sepAt next ((lev + (k + 1) : Nat) : Int)
          ((pos : Int), (lev : Int)) =
            some (.next ((place t_dir size : Int), ((lev + 1 : Nat) : Int))) := by
        simp only [levelRound, hsize, hfound, if_neg hne, hplace, hcheck, Option.bind_eq_bind,
          Option.bind_some]
        rfl
      have hlevel : lev + (k + 1) = lev + 1 + k := by
        omega
      rw [returns_next hround, hlevel]
      exact ih hinside (by omega) (sizeOfInt_natCast (by omega))

theorem levelField_end (hsep : Separates path sepAt) (k : Nat) :
    levelField path sepAt place k path.length = ([], path.length) := by
  have hfound : sepAt path.length = none := by
    rw [Option.eq_none_iff_forall_ne_some]
    rintro ⟨t_dir, size⟩ hfound
    obtain ⟨_, _, _⟩ := hsep path.length t_dir size hfound
    omega
  cases k with
  | zero =>
    rw [levelField, hfound]
    exact congrArg (·, path.length) List.drop_length
  | succ k => rw [levelField, hfound]

theorem levelField_snd_le (hsep : Separates path sepAt) (place : Nat → Nat → Nat) (pos : Nat) :
    (levelField path sepAt place 0 pos).2 ≤ path.length := by
  rw [levelField]
  cases hfound : sepAt pos with
  | none => exact Nat.le_refl _
  | some found => exact (hsep pos _ _ hfound).2.2

/-- What a call returns for a text that an `int` can index. -/
theorem parse_iff (hsep : Separates path sepAt) (hnext : Advances path sepAt next place)
    (hlen : path.length < 2147483648) (hpos : pos ≤ path.length) {off : Option Int}
    (hoff : off.getD 0 = pos) (k : Nat) {out : List UInt8 × Option Int} :
    (∃ fuel, levelParse fuel path sepAt next k off = some out) ↔
      ((levelField path sepAt place k pos).1,
        off.map fun _ => ((levelField path sepAt place k pos).2 : Int)) = out := by
  have hint : toInt path.length = path.length := toInt_of_lt hlen
  simp only [levelParse, hoff, hint]
  by_cases hend : pos = path.length
  · subst hend
    simp only [Int.le_refl, if_true, levelField_end hsep]
    cases off with
    | none => simp only [Option.some.injEq, exists_const, Option.map_none]
    | some off =>
      have hsame : off = path.length := hoff
      rw [hsame]
      simp only [Option.some.injEq, exists_const, Option.map_some]
  · have hrun := @returns_level path sepAt next place k pos 0
    rw [Nat.zero_add] at hrun
    have hnot : ¬(path.length : Int) ≤ pos := by
      omega
    simp only [hnot, if_false, Option.map_eq_some_iff]
    constructor
    · rintro ⟨fuel, found, hfound, rfl⟩
      have heq := (hrun hsep hnext hlen hpos (Nat.zero_le pos)).1 ⟨fuel, hfound⟩
      rw [← heq]
    · rintro rfl
      obtain ⟨fuel, hfound⟩ := (hrun hsep hnext hlen hpos (Nat.zero_le pos)).2 rfl
      exact ⟨fuel, _, hfound, rfl⟩

/-- The fields that successive calls return. -/
def fieldAt (path : List UInt8) (sepAt : Nat → Option (Nat × Nat)) (k pos : Nat) : List UInt8 :=
  (levelField path sepAt (· + ·) k pos).1

theorem fieldAt_succ (hsep : Separates path sepAt) (place : Nat → Nat → Nat) (k pos : Nat) :
    fieldAt path sepAt (k + 1) pos =
      fieldAt path sepAt k (levelField path sepAt place 0 pos).2 := by
  rw [fieldAt, levelField, levelField]
  cases hfound : sepAt pos with
  | none => rw [fieldAt, levelField_end hsep]
  | some found => rfl

theorem nthCall_iff (hsep : Separates path sepAt) (hnext : Advances path sepAt next place)
    (hlen : path.length < 2147483648) (hpos : pos ≤ path.length) {field : List UInt8} :
    NthCall (fun fuel level off => levelParse fuel path sepAt next level off) k pos field ↔
      field = fieldAt path sepAt k pos := by
  have hcall : ∀ {pos : Nat}, pos ≤ path.length → ∀ out : List UInt8 × Option Int,
      (∃ fuel, levelParse fuel path sepAt next 0 (some (pos : Int)) = some out) ↔
        ((levelField path sepAt place 0 pos).1,
          some ((levelField path sepAt place 0 pos).2 : Int)) = out :=
    fun hpos out => parse_iff hsep hnext hlen hpos rfl 0
  have hzero : ∀ pos, (levelField path sepAt place 0 pos).1 = fieldAt path sepAt 0 pos :=
    fun _ => rfl
  induction k generalizing pos with
  | zero =>
    constructor
    · rintro ⟨fuel, behind, hrun⟩
      have heq := (hcall hpos _).1 ⟨fuel, hrun⟩
      exact (Prod.mk.inj heq).1.symm.trans (hzero pos)
    · rintro rfl
      obtain ⟨fuel, hrun⟩ := (hcall hpos _).2 rfl
      exact ⟨fuel, _, hrun⟩
  | succ k ih =>
    have hle := levelField_snd_le hsep place pos
    rw [fieldAt_succ hsep place]
    refine Iff.trans ?_ (ih hle)
    constructor
    · rintro ⟨fuel, first, behind, hrun, hrest⟩
      have heq := (hcall hpos _).1 ⟨fuel, hrun⟩
      rw [Option.some.inj (Prod.mk.inj heq).2]
      exact hrest
    · intro hrest
      obtain ⟨fuel, hrun⟩ := (hcall hpos _).2 rfl
      exact ⟨fuel, _, _, hrun, hrest⟩

/-- A call for a level agrees with successive calls where the next field starts behind the
separator. -/
theorem agrees_iff (hsep : Separates path sepAt) (hnext : Advances path sepAt next place)
    (hlen : path.length < 2147483648) :
    Agrees (fun fuel level off => levelParse fuel path sepAt next level off) ↔
      ∀ k < 2147483648, (levelField path sepAt place k 0).1 = fieldAt path sepAt k 0 := by
  have hlevel : ∀ (k : Nat) (out : List UInt8 × Option Int),
      (∃ fuel, levelParse fuel path sepAt next k none = some out) ↔
        ((levelField path sepAt place k 0).1, none) = out :=
    fun k out => parse_iff hsep hnext hlen (Nat.zero_le _) rfl k
  have hcalls : ∀ (k : Nat) (field : List UInt8),
      NthCall (fun fuel level off => levelParse fuel path sepAt next level off) k 0 field ↔
        field = fieldAt path sepAt k 0 :=
    fun k field => nthCall_iff hsep hnext hlen (Nat.zero_le _)
  constructor
  · intro h k hk
    obtain ⟨field, ⟨fuel, behind, hrun⟩, hcall⟩ := h k hk
    have heq := (hlevel k _).1 ⟨fuel, hrun⟩
    exact (Prod.mk.inj heq).1.trans ((hcalls k field).1 hcall)
  · intro h k hk
    obtain ⟨fuel, hrun⟩ := (hlevel k _).2 rfl
    exact ⟨_, ⟨fuel, _, hrun⟩, (hcalls k _).2 (h k hk)⟩

/-- Where a call returns nothing and leaves the offset, so does every call. -/
theorem agrees_of_nothing {parse : Parser} (hlevel : ∀ k : Nat, parse 0 k none = some ([], none))
    (hcall : parse 0 0 (some 0) = some ([], some 0)) : Agrees parse := by
  have hnth : ∀ k, NthCall parse k 0 [] := by
    intro k
    induction k with
    | zero => exact ⟨0, _, hcall⟩
    | succ k ih => exact ⟨0, _, 0, hcall, ih⟩
  exact fun k _ => ⟨[], ⟨0, _, hlevel k⟩, hnth k⟩

/-- A text of which an `int` sees nothing has no fields. -/
theorem agrees_of_toInt (h : toInt path.length ≤ 0) :
    Agrees (fun fuel level off => levelParse fuel path sepAt next level off) :=
  agrees_of_nothing (fun _ => if_pos h) (if_pos h)

end Level

section Separators
variable {path sep : List UInt8} {c : UInt8}

theorem findSep_separates (path : List UInt8) (hsep : sep ≠ []) :
    Separates path (findSep path sep) := by
  intro pos t_dir size hfound
  obtain ⟨r, hr, heq⟩ := Option.map_eq_some_iff.1 hfound
  obtain ⟨a, t, hsplit, rfl⟩ := strstr_some hr
  cases heq
  have hlen := congrArg List.length hsplit
  have hpos := List.length_pos_iff.2 hsep
  rw [List.length_drop, List.length_append, List.length_append] at hlen
  rw [List.length_append]
  omega

theorem lineEnd_separates (path : List UInt8) : Separates path (lineEnd path) := by
  intro pos t_dir size hfound
  rw [lineEnd] at hfound
  split at hfound
  · cases hfound
  · next c rest hdrop =>
    cases hfound
    have hsuffix : c :: rest <:+ path.drop pos := hdrop ▸ List.dropWhile_suffix _
    have hle := hsuffix.length_le
    rw [List.length_drop, List.length_cons] at hle
    split
    case isTrue hcrlf =>
      obtain ⟨t, rfl⟩ := List.head?_eq_some_iff.1 hcrlf.2
      rw [List.length_cons] at hle ⊢
      omega
    case isFalse => omega

theorem nextField_advances {sepAt : Nat → Option (Nat × Nat)} (hsep : Separates path sepAt)
    (hlen : path.length < 2147483648) : Advances path sepAt nextField (· + ·) := by
  intro pos t_dir size hfound
  obtain ⟨_, _, hle⟩ := hsep pos t_dir size hfound
  refine ⟨?_, Nat.le_refl _, hle⟩
  rw [nextField, toInt_of_lt (by omega)]

theorem nextField_agrees {sepAt : Nat → Option (Nat × Nat)} (hsep : Separates path sepAt)
    (hlen : toInt path.length ≤ 0 ∨ path.length < 2147483648) :
    Agrees (fun fuel level off => levelParse fuel path sepAt nextField level off) := by
  rcases hlen with hint | hlen
  · exact agrees_of_toInt hint
  · exact (agrees_iff hsep (nextField_advances hsep hlen) hlen).2 fun _ _ => rfl

theorem strstr_char (c : UInt8) (s : List UInt8) :
    strstr [c] s = if s.dropWhile (· ≠ c) = [] then none else some (s.dropWhile (· ≠ c)) := by
  induction s with
  | nil => rfl
  | cons a s ih =>
    by_cases hc : a = c
    · subst hc
      rw [List.dropWhile_cons_of_neg (by rw [decide_eq_true_iff]; exact not_not.2 rfl),
        if_neg (List.cons_ne_nil _ _)]
      exact strstr_self [a] s
    · have hno : ¬[c] <+: a :: s := by
        rintro ⟨t, ht⟩
        exact hc (List.cons.inj ht).1.symm
      rw [strstr_cons hno, ih, List.dropWhile_cons_of_pos (by rw [decide_eq_true_iff]; exact hc)]

/-- Where a separator is found, the text in front of it has none. -/
theorem findSep_char (path : List UInt8) (c : UInt8) (pos : Nat) :
    (findSep path [c] pos = none ∧ c ∉ path.drop pos) ∨
      ∃ a r, path.drop pos = a ++ c :: r ∧ c ∉ a ∧
        findSep path [c] pos = some (pos + a.length, 1) ∧ path.drop (pos + a.length) = c :: r := by
  by_cases hmem : c ∈ path.drop pos
  · right
    obtain ⟨a, r, hsplit, ha⟩ := List.eq_append_cons_of_mem hmem
    have hlen := congrArg List.length hsplit
    rw [List.length_drop, List.length_append, List.length_cons] at hlen
    refine ⟨a, r, hsplit, ha, ?_, ?_⟩
    · rw [findSep, strstr_char, hsplit, dropWhile_at ha, if_neg (List.cons_ne_nil _ _),
        Option.map_some, List.length_cons]
      have hplace : path.length - (r.length + 1) = pos + a.length := by
        omega
      rw [hplace]
      rfl
    · rw [← List.drop_drop, hsplit, List.drop_left]
  · left
    refine ⟨?_, hmem⟩
    rw [findSep, strstr_char, if_pos]
    · rfl
    · rw [List.dropWhile_eq_nil_iff]
      exact decide_ne_of_not_mem hmem

/-- The fields of a text, with what is left out in front of each but the first. -/
def charField (c : UInt8) (gap : List UInt8 → List UInt8) : Nat → List UInt8 → List UInt8
  | 0, s => s.takeWhile (· ≠ c)
  | k + 1, s =>
    match s.dropWhile (· ≠ c) with
    | [] => []
    | _ :: r => charField c gap k (gap r)

theorem charField_none {gap : List UInt8 → List UInt8} (h : c ∉ s) (k : Nat) :
    charField c gap k s = if k = 0 then s else [] := by
  cases k with
  | zero => exact List.takeWhile_eq_self_iff.2 (decide_ne_of_not_mem h)
  | succ k => rw [charField, List.dropWhile_eq_nil_iff.2 (decide_ne_of_not_mem h)]; rfl

theorem charField_at {gap : List UInt8 → List UInt8} {a : List UInt8} (ha : c ∉ a)
    (r : List UInt8) : charField c gap 0 (a ++ c :: r) = a ∧
      ∀ k, charField c gap (k + 1) (a ++ c :: r) = charField c gap k (gap r) := by
  constructor
  · exact takeWhile_at ha r
  · intro k
    rw [charField, dropWhile_at ha]

/-- The field of a level is told by what is left of the text. -/
theorem levelField_char {gap : List UInt8 → List UInt8} {place : Nat → Nat → Nat}
    (hplace : ∀ t r, path.drop t = c :: r → path.drop (place t 1) = gap r) (k pos : Nat) :
    (levelField path (findSep path [c]) place k pos).1 = charField c gap k (path.drop pos) := by
  induction k generalizing pos with
  | zero =>
    rw [levelField]
    rcases findSep_char path c pos with ⟨hfound, hnone⟩ | ⟨a, r, hsplit, ha, hfound, hdrop⟩
    · rw [hfound, charField_none hnone]
      rfl
    · rw [hfound, hsplit, (charField_at ha r).1]
      dsimp only
      rw [Nat.add_sub_cancel_left, List.take_left]
  | succ k ih =>
    rw [levelField]
    rcases findSep_char path c pos with ⟨hfound, hnone⟩ | ⟨a, r, hsplit, ha, hfound, hdrop⟩
    · rw [hfound, charField_none hnone]
      rfl
    · rw [hfound, hsplit, (charField_at ha r).2]
      dsimp only
      rw [ih, hplace _ r hdrop]

theorem charField_of_all {gap : List UInt8 → List UInt8} (h : ∀ x ∈ s, x = c)
    (hgap : ∀ r, gap r <:+ r) (k : Nat) : charField c gap k s = [] := by
  induction k generalizing s with
  | zero =>
    cases s with
    | nil => rfl
    | cons x s =>
      rw [charField, List.takeWhile_cons_of_neg]
      rw [decide_eq_true_iff]
      exact not_not.2 (h x List.mem_cons_self)
  | succ k ih =>
    rw [charField]
    split
    · rfl
    · next y r hdrop =>
      apply ih
      intro x hx
      have hsuffix : y :: r <:+ s := hdrop ▸ List.dropWhile_suffix _
      exact h x (hsuffix.subset (List.mem_cons_of_mem _ ((hgap r).subset hx)))

/-- Two separators next to each other with another character somewhere behind them. -/
def Inner (c : UInt8) (s : List UInt8) : Prop :=
  ∃ a b, s = a ++ c :: c :: b ∧ ∃ x ∈ b, x ≠ c

theorem inner_append {a r : List UInt8} (ha : c ∉ a) :
    Inner c (a ++ c :: r) ↔ (∃ b, r = c :: b ∧ ∃ x ∈ b, x ≠ c) ∨ Inner c r := by
  constructor
  · rintro ⟨a', b, heq, x, hx, hne⟩
    obtain ⟨t, rfl⟩ : a <+: a' := by
      rcases List.append_eq_append_iff.1 heq with ⟨t, rfl, _⟩ | ⟨t, rfl, hrest⟩
      · exact List.prefix_append _ _
      · cases t with
        | nil => exact ⟨[], (List.append_nil _).trans (List.append_nil _)⟩
        | cons y t =>
          have hy := (List.cons.inj hrest).1
          exact absurd (hy ▸ List.mem_append_right a' List.mem_cons_self) ha
    rw [List.append_assoc] at heq
    have hrest := List.append_cancel_left heq
    cases t with
    | nil =>
      left
      exact ⟨b, (List.cons.inj hrest).2, x, hx, hne⟩
    | cons y t =>
      right
      exact ⟨t, b, (List.cons.inj hrest).2, x, hx, hne⟩
  · rintro (⟨b, rfl, hb⟩ | ⟨a', b, rfl, hb⟩)
    · exact ⟨a, b, rfl, hb⟩
    · exact ⟨a ++ c :: a', b, by rw [List.append_assoc, List.cons_append], hb⟩

/-- Leaving out separators changes the fields only where separators stand next to each other. -/
theorem charField_merged (s : List UInt8) :
    (∀ k, charField c (List.dropWhile (· = c)) k s = charField c id k s) ↔ ¬Inner c s := by
  by_cases hmem : c ∈ s
  case neg =>
    constructor
    · rintro - ⟨a, b, rfl, -⟩
      exact hmem (List.mem_append_right _ List.mem_cons_self)
    · intro _ k
      rw [charField_none hmem, charField_none hmem]
  case pos =>
    obtain ⟨a, r, rfl, ha⟩ := List.eq_append_cons_of_mem hmem
    have hsucc : (∀ k, charField c (List.dropWhile (· = c)) k (a ++ c :: r) =
        charField c id k (a ++ c :: r)) ↔
          ∀ k, charField c (List.dropWhile (· = c)) k (r.dropWhile (· = c)) =
            charField c id k r := by
      constructor
      · intro h k
        have hk := h (k + 1)
        rwa [(charField_at ha r).2, (charField_at ha r).2] at hk
      · intro h k
        cases k with
        | zero => rw [(charField_at ha r).1, (charField_at ha r).1]
        | succ k =>
          rw [(charField_at ha r).2, (charField_at ha r).2]
          exact h k
    rw [hsucc, inner_append ha, not_or]
    by_cases hhead : ∃ b, r = c :: b
    case neg =>
      have hgap : r.dropWhile (· = c) = r := by
        cases r with
        | nil => rfl
        | cons x r =>
          rw [List.dropWhile_cons_of_neg]
          rw [decide_eq_true_iff]
          rintro rfl
          exact hhead ⟨r, rfl⟩
      rw [hgap, charField_merged r]
      constructor
      · exact fun h => ⟨fun ⟨b, hb, _⟩ => hhead ⟨b, hb⟩, h⟩
      · exact And.right
    case pos =>
      obtain ⟨b, rfl⟩ := hhead
      have hgap : (c :: b).dropWhile (· = c) = b.dropWhile (· = c) :=
        List.dropWhile_cons_of_pos (decide_eq_true rfl)
      rw [hgap]
      by_cases hall : ∀ x ∈ b, x = c
      case pos =>
        have hnil : b.dropWhile (· = c) = [] := by
          rw [List.dropWhile_eq_nil_iff]
          exact fun x hx => decide_eq_true (hall x hx)
        have hend : ∀ x ∈ c :: b, x = c := List.forall_mem_cons.2 ⟨rfl, hall⟩
        constructor
        · rintro -
          constructor
          · rintro ⟨b', hb, x, hx, hne⟩
            cases hb
            exact hne (hall x hx)
          · rintro ⟨a', b', hb, x, hx, hne⟩
            rw [hb] at hend
            exact hne (hend x (List.mem_append_right _
              (List.mem_cons_of_mem _ (List.mem_cons_of_mem _ hx))))
        · intro _ k
          have hmerged : charField c (List.dropWhile (· = c)) k [] = [] :=
            charField_of_all (List.forall_mem_nil _) (fun _ => List.dropWhile_suffix _) k
          have hsingle : charField c id k (c :: b) = [] :=
            charField_of_all hend (fun _ => List.suffix_refl _) k
          rw [hnil, hmerged, hsingle]
      case neg =>
        have hne : ∃ x ∈ b, x ≠ c := by
          simpa only [not_forall, exists_prop] using hall
        constructor
        · intro h
          have hzero := h 0
          obtain ⟨y, t, hy⟩ : ∃ y t, b.dropWhile (· = c) = y :: t := by
            apply List.exists_cons_of_ne_nil
            rw [Ne, List.dropWhile_eq_nil_iff]
            obtain ⟨x, hx, hxc⟩ := hne
            exact fun hc => hxc (of_decide_eq_true (hc x hx))
          have hyc := List.head?_dropWhile_not (fun x => decide (x = c)) b
          rw [hy, List.head?_cons] at hyc
          have hne : y ≠ c := of_decide_eq_false hyc
          have hfirst : charField c (List.dropWhile (· = c)) 0 (y :: t) =
              y :: t.takeWhile (· ≠ c) :=
            List.takeWhile_cons_of_pos (decide_eq_true hne)
          have hempty : charField c id 0 (c :: b) = [] := by
            apply List.takeWhile_cons_of_neg
            rw [decide_eq_true_iff]
            exact not_not.2 rfl
          rw [hy, hfirst, hempty] at hzero
          cases hzero
        · rintro ⟨h, -⟩
          exact absurd ⟨b, rfl, hne⟩ h
termination_by s.length

/-- Behind the end of the fields there is nothing. -/
theorem charField_of_length {gap : List UInt8 → List UInt8} (hgap : ∀ r, gap r <:+ r)
    (h : s.length < k) : charField c gap k s = [] := by
  induction k generalizing s with
  | zero => exact absurd h (Nat.not_lt_zero _)
  | succ k ih =>
    rw [charField]
    split
    · rfl
    · next y r hdrop =>
      have hsuffix : y :: r <:+ s := hdrop ▸ List.dropWhile_suffix _
      have hle := hsuffix.length_le
      have hrest := (hgap r).length_le
      rw [List.length_cons] at hle
      exact ih (by omega)

theorem charField_short (h : s.length < n) :
    (∀ k < n, charField c (List.dropWhile (· = c)) k s = charField c id k s) ↔
      ∀ k, charField c (List.dropWhile (· = c)) k s = charField c id k s := by
  constructor
  · intro hall k
    by_cases hk : k < n
    · exact hall k hk
    · have hmerged : charField c (List.dropWhile (· = c)) k s = [] :=
        charField_of_length (fun _ => List.dropWhile_suffix _) (by omega)
      have hsingle : charField c id k s = [] :=
        charField_of_length (fun _ => List.suffix_refl _) (by omega)
      rw [hmerged, hsingle]
  · exact fun hall k _ => hall k

/-- The loop stops behind the separators. -/
theorem skipSep_eq (hlen : path.length < 2147483648) {i : Nat} (hi : i ≤ path.length) :
    skipSep path c (path.length - i) i =
      some ((path.length - ((path.drop i).dropWhile (· = c)).length : Nat) : Int) := by
  obtain ⟨n, hn⟩ : ∃ n, n = path.length - i := ⟨_, rfl⟩
  induction n generalizing i with
  | zero =>
    have hend : i = path.length := by
      omega
    subst hend
    rw [Nat.sub_self, skipSep, List.drop_length]
    rfl
  | succ n ih =>
    have hlt : i < path.length := by
      omega
    have hsize : sizeOfInt (i : Int) = i := sizeOfInt_natCast (by omega)
    have hchar : charAt path i = some path[i] := by
      rw [charAt, if_pos hlt, List.getD_eq_getElem _ _ hlt]
    have hstep : n = path.length - (i + 1) := by
      omega
    rw [← hn, skipSep, hsize, hchar, List.drop_eq_getElem_cons hlt, Option.bind_eq_bind,
      Option.bind_some]
    by_cases hc : path[i] = c
    · have hskip : (path[i] :: path.drop (i + 1)).dropWhile (· = c) =
          (path.drop (i + 1)).dropWhile (· = c) := List.dropWhile_cons_of_pos (decide_eq_true hc)
      rw [if_pos hc, hskip, ← ih (by omega) hstep, hstep]
      rfl
    · rw [if_neg hc, List.dropWhile_cons_of_neg (by rw [decide_eq_true_iff]; exact hc),
        List.length_cons, List.length_drop]
      have hplace : path.length - (path.length - (i + 1) + 1) = i := by
        omega
      rw [hplace]

/-- The place behind merged separators. -/
def mergedPlace (path : List UInt8) (c : UInt8) (t_dir size : Nat) : Nat :=
  path.length - ((path.drop (t_dir + size)).dropWhile (· = c)).length

theorem drop_mergedPlace (t_dir size : Nat) :
    path.drop (mergedPlace path c t_dir size) = (path.drop (t_dir + size)).dropWhile (· = c) := by
  obtain ⟨t, ht⟩ := List.dropWhile_suffix (l := path.drop (t_dir + size)) (fun x => decide (x = c))
  obtain ⟨u, hu⟩ := List.drop_suffix (t_dir + size) path
  rw [mergedPlace]
  generalize (path.drop (t_dir + size)).dropWhile (· = c) = r at ht ⊢
  rw [← ht, ← List.append_assoc] at hu
  rw [← hu, List.length_append, Nat.add_sub_cancel, List.drop_left]

theorem nextMerged_advances (hlen : path.length < 2147483648) :
    Advances path (findSep path [c]) (nextParse path [c] true) (mergedPlace path c) := by
  intro pos t_dir size hfound
  rcases findSep_char path c pos with ⟨hnone, -⟩ | ⟨a, r, -, -, hplace, hdrop⟩
  · rw [hnone] at hfound
    cases hfound
  · rw [hplace] at hfound
    cases hfound
    have hlast := congrArg List.length hdrop
    rw [List.length_drop, List.length_cons] at hlast
    have hrest : path.drop (pos + a.length + 1) = r := by
      rw [← List.drop_drop, hdrop]
      rfl
    have hskip : (c :: r).dropWhile (· = c) = r.dropWhile (· = c) :=
      List.dropWhile_cons_of_pos (decide_eq_true rfl)
    have hle := (List.dropWhile_suffix (l := r) (fun x => decide (x = c))).length_le
    have hcount : ((path.length : Int) - ((pos + a.length : Nat) : Int)).toNat =
        path.length - (pos + a.length) := by
      omega
    rw [mergedPlace, hrest]
    refine ⟨?_, by omega, Nat.sub_le _ _⟩
    rw [nextParse, toInt_of_lt hlen, toInt_of_lt (by omega), hcount, skipSep_eq hlen (by omega),
      hdrop, hskip]

theorem nextParse_of_not {merge : Bool} (h : ¬(merge = true ∧ ∃ d, sep = [d])) (path : List UInt8) :
    nextParse path sep merge = nextField := by
  funext t_dir size
  cases merge with
  | false => rfl
  | true =>
    cases sep with
    | nil => rfl
    | cons d sep =>
      cases sep with
      | nil => exact absurd ⟨rfl, d, rfl⟩ h
      | cons e sep => rfl

end Separators

section Parses
variable {text sep : List UInt8} {c : UInt8} {merge : Bool}

/-- An `int` sees no length, or it holds the length and no separators are merged inside the text. -/
def Meets (text sep : List UInt8) (merge : Bool) : Prop :=
  toInt text.length ≤ 0 ∨
    text.length < 2147483648 ∧ ¬(merge = true ∧ ∃ d, sep = [d] ∧ Inner d text)

theorem strParse_agrees_empty :
    Agrees (fun fuel level off => strParse fuel text level [] off merge) :=
  agrees_of_nothing (fun _ => if_pos rfl) (if_pos rfl)

theorem strParse_agrees (hlen : text.length < 2147483648) :
    Agrees (fun fuel level off => strParse fuel text level sep off merge) ↔
      ¬(merge = true ∧ ∃ d, sep = [d] ∧ Inner d text) := by
  by_cases hsep : sep = []
  case pos =>
    subst hsep
    constructor
    · rintro - ⟨-, d, hd, -⟩
      cases hd
    · exact fun _ => strParse_agrees_empty
  case neg =>
    have hne : ¬sep.length = 0 := fun h => hsep (List.eq_nil_of_length_eq_zero h)
    have hfind := findSep_separates text hsep
    simp only [strParse, if_neg hne]
    by_cases hmerge : merge = true ∧ ∃ d, sep = [d]
    case pos =>
      obtain ⟨rfl, d, rfl⟩ := hmerge
      rw [agrees_iff hfind (nextMerged_advances hlen) hlen]
      have hlevel : ∀ k, (levelField text (findSep text [d]) (mergedPlace text d) k 0).1 =
          charField d (List.dropWhile (· = d)) k text := by
        intro k
        apply levelField_char
        intro t r hdrop
        rw [drop_mergedPlace, ← List.drop_drop, hdrop]
        rfl
      have hfield : ∀ k, fieldAt text (findSep text [d]) k 0 = charField d id k text := by
        intro k
        apply levelField_char
        intro t r hdrop
        rw [← List.drop_drop, hdrop]
        rfl
      simp only [hlevel, hfield]
      rw [charField_short hlen, charField_merged]
      constructor
      · rintro h ⟨-, d', hd, hinner⟩
        cases hd
        exact h hinner
      · exact fun h hinner => h ⟨trivial, d, rfl, hinner⟩
    case neg =>
      rw [nextParse_of_not hmerge]
      constructor
      · rintro - ⟨htrue, d, hd, -⟩
        exact hmerge ⟨htrue, d, hd⟩
      · exact fun _ => nextField_agrees hfind (Or.inr hlen)

theorem strSepParse_agrees (h : toInt text.length ≤ 0 ∨ text.length < 2147483648) :
    Agrees (fun fuel level off => strSepParse fuel text level c off) :=
  nextField_agrees (findSep_separates text (List.cons_ne_nil c [])) h

theorem strLine_agrees (h : toInt text.length ≤ 0 ∨ text.length < 2147483648) :
    Agrees (fun fuel level off => strLine fuel text level off) :=
  nextField_agrees (lineEnd_separates text) h

/-- Random and successive access return the same fields, up to 2^32 characters only then. -/
theorem parsesAgree_iff (text sep : List UInt8) (c : UInt8) (merge : Bool) :
    (Meets text sep merge → ParsesAgree text sep c merge) ∧
      (text.length ≤ 4294967296 → ParsesAgree text sep c merge → Meets text sep merge) := by
  constructor
  · rintro (hint | ⟨hlen, hmerge⟩)
    · refine ⟨?_, strSepParse_agrees (Or.inl hint), strLine_agrees (Or.inl hint)⟩
      by_cases hsep : sep = []
      · subst hsep
        exact strParse_agrees_empty
      · have hne : ¬sep.length = 0 := fun h => hsep (List.eq_nil_of_length_eq_zero h)
        simp only [strParse, if_neg hne]
        exact agrees_of_toInt hint
    · exact ⟨(strParse_agrees hlen).2 hmerge, strSepParse_agrees (Or.inr hlen),
        strLine_agrees (Or.inr hlen)⟩
  · intro hle h
    by_cases hlen : text.length < 2147483648
    · exact Or.inr ⟨hlen, (strParse_agrees hlen).1 h.1⟩
    · left
      unfold toInt
      rw [Int.bmod_def]
      omega

/-- The text `a,b` with a line end behind it. -/
theorem parsesAgree_iff_fields : ParsesAgree [97, 44, 98, 13, 10] [44] 44 true := by
  apply (parsesAgree_iff [97, 44, 98, 13, 10] [44] 44 true).1
  right
  refine ⟨by decide, ?_⟩
  rintro ⟨-, d, hd, hinner⟩
  cases hd
  have hfirst : (44 : UInt8) ∉ [97] := by decide
  rcases (inner_append (r := [98, 13, 10]) hfirst).1 hinner with ⟨b, hb, -⟩ | ⟨a, b, hb, -⟩
  · cases hb
  · have hmem : (44 : UInt8) ∈ [98, 13, 10] := hb ▸ List.mem_append_right a List.mem_cons_self
    exact absurd hmem (by decide)

/-- Behind `a` and two separators the second call finds an empty field. -/
theorem not_parsesAgree : ¬ParsesAgree [97, 44, 44, 98] [44] 44 true := by
  intro h
  have hinner : Inner 44 [97, 44, 44, 98] := ⟨[97], [98], rfl, 98, List.mem_cons_self, by decide⟩
  exact (strParse_agrees (by decide)).1 h.1 ⟨rfl, 44, rfl, hinner⟩

end Parses

end BigBox.StrOpt
