import BigBox.Lib.CInt
import BigBox.Lib.Hex
import BigBox.Lib.Numeral
import Mathlib.Tactic.IntervalCases

namespace BigBox.TypeC
open Hex Numeral
set_option autoImplicit true

def tIsspace (x : UInt8) : Bool := x = 0x20 ∨ x > 0x8 ∧ x < 0xe
def tIsdigit2 (x : UInt8) : Bool := x = 48 ∨ x = 49
def tIsdigit8 (x : UInt8) : Bool := x > 0x2f ∧ x < 0x38
def tIsdigit10 (x : UInt8) : Bool := x > 0x2f ∧ x < 0x3a

/-- Two characters that are skipped behind a zero. -/
def skip0 (lower upper : UInt8) : List UInt8 → List UInt8
  | 48 :: x :: s => if x = lower ∨ x = upper then s else 48 :: x :: s
  | s => s

/-- The loop ends at the first character that is no digit. -/
def computeNumber (digit : UInt64 → UInt8 → Option UInt64) (val : UInt64) : List UInt8 → UInt64
  | [] => val
  | ch :: s =>
    match digit val ch with
    | some val => computeNumber digit val s
    | none => val

def takeSign : List UInt8 → Bool × List UInt8
  | 45 :: s => (true, s)
  | 43 :: s => (false, s)
  | s => (false, s)

/-- What the four converters have in common. The end of the list is the zero behind the string. -/
def convert (skip : List UInt8 → List UInt8) (digit : UInt64 → UInt8 → Option UInt64)
    (s : List UInt8) : UInt64 :=
  let (sign, s) := takeSign (s.dropWhile tIsspace)
  let s := (skip s).dropWhile (· = 48)
  let val := computeNumber digit 0 s
  if sign then ~~~val + 1 else val

def digit2 (val : UInt64) (ch : UInt8) : Option UInt64 :=
  if tIsdigit2 ch then some ((val <<< 1) + (ch - 48).toUInt64) else none

def digit8 (val : UInt64) (ch : UInt8) : Option UInt64 :=
  if tIsdigit8 ch then some ((val <<< 3) + (ch - 48).toUInt64) else none

def digit10 (val : UInt64) (ch : UInt8) : Option UInt64 :=
  if tIsdigit10 ch then some (val * 10 + (ch - 48).toUInt64) else none

def digit16 (val : UInt64) (ch : UInt8) : Option UInt64 :=
  if tIsdigit10 ch then some ((val <<< 4) + (ch - 48).toUInt64)
  else if ch > 96 ∧ ch < 103 then some ((val <<< 4) + (ch - 97).toUInt64 + 10)
  else if ch > 64 ∧ ch < 71 then some ((val <<< 4) + (ch - 65).toUInt64 + 10)
  else none

def tS2ToU64 : List UInt8 → UInt64 := convert (skip0 98 66) digit2
def tS8ToU64 : List UInt8 → UInt64 := convert id digit8
def tS10ToU64 : List UInt8 → UInt64 := convert id digit10
def tS16ToU64 : List UInt8 → UInt64 := convert (skip0 120 88) digit16

def sConv : List (Option (List UInt8 → UInt64)) :=
  [none, none, some tS2ToU64, none, none, none, none, none, some tS8ToU64, none, some tS10ToU64,
    none, none, none, none, none, some tS16ToU64]

/-- The range test is made on the base as a `size_t`. No result is an index out of range. -/
def tSbToU64 (s : List UInt8) (base : Int32) : Option UInt64 :=
  if (base.toInt % 18446744073709551616).toNat > sConv.length then some 0
  else
    match sConv[base.toInt.toNat]? with
    | none => none
    | some none => some 0
    | some (some conv) => some (conv s)

/-- The digits of a base. -/
def isDigit (base : Nat) (c : UInt8) : Bool := isxdigit c ∧ hexValue c < base

def afterSign : List UInt8 → List UInt8
  | 45 :: s => s
  | 43 :: s => s
  | s => s

def basePrefixes (base : Nat) : List (List UInt8) :=
  if base = 2 then [[48, 98], [48, 66]] else if base = 16 then [[48, 120], [48, 88]] else []

def afterPrefix (base : Nat) (s : List UInt8) : List UInt8 :=
  if s.take 2 ∈ basePrefixes base then s.drop 2 else s

/-- The number that a string spells in a base. -/
def strValue (base : Nat) (s : List UInt8) : Int :=
  let s := s.dropWhile isspace
  let n := number base hexValue 0 ((afterPrefix base (afterSign s)).takeWhile (isDigit base))
  if s.head? = some 45 then -n else n

/-- A supported base gives the number modulo 2 ^ 64, and the others give 0. -/
def Converts (s : List UInt8) (base : Int32) : Prop :=
  ∃ val, tSbToU64 s base = some val ∧
    if base = 2 ∨ base = 8 ∨ base = 10 ∨ base = 16 then
      (val.toNat : Int) = strValue base.toInt.toNat s % 2 ^ 64
    else val = 0

/-- A step of the loop takes in one digit of the base and nothing else. -/
def Reads (base : Nat) (digit : UInt64 → UInt8 → Option UInt64) : Prop :=
  ∀ val ch, (isDigit base ch = true → ∃ val', digit val ch = some val' ∧
      val'.toNat = (val.toNat * base + hexValue ch) % 2 ^ 64) ∧
    (isDigit base ch = false → digit val ch = none)

section convert
variable {base : Nat} {digit : UInt64 → UInt8 → Option UInt64} {skip : List UInt8 → List UInt8}

/-- What the tests of the source say about a character. -/
theorem tests_eq (c : UInt8) : tIsspace c = isspace c ∧ isDigit 2 c = tIsdigit2 c ∧
    isDigit 8 c = tIsdigit8 c ∧ isDigit 10 c = tIsdigit10 c ∧ isDigit 16 c =
      (tIsdigit10 c || decide (c > 96 ∧ c < 103) || decide (c > 64 ∧ c < 71)) ∧
    (tIsdigit2 c = true → tIsdigit10 c = true) ∧ (tIsdigit8 c = true → tIsdigit10 c = true) := by
  revert c
  apply forall_byte
  decide +kernel

theorem values_eq (c : UInt8) : (tIsdigit10 c = true → (c - 48).toNat = hexValue c) ∧
    (c > 96 ∧ c < 103 → (c - 97).toNat + 10 = hexValue c) ∧
    (c > 64 ∧ c < 71 → (c - 65).toNat + 10 = hexValue c) := by
  revert c
  apply forall_byte
  decide +kernel

theorem tIsspace_eq (c : UInt8) : tIsspace c = isspace c := (tests_eq c).1

theorem computeNumber_eq (h : Reads base digit) (val : UInt64) (s : List UInt8) :
    (computeNumber digit val s).toNat =
      number base hexValue val.toNat (s.takeWhile (isDigit base)) % 2 ^ 64 := by
  induction s generalizing val with
  | nil => exact (Nat.mod_eq_of_lt val.toNat_lt).symm
  | cons ch s ih =>
    rw [computeNumber, List.takeWhile_cons]
    cases hdigit : isDigit base ch with
    | false =>
      rw [(h val ch).2 hdigit]
      exact (Nat.mod_eq_of_lt val.toNat_lt).symm
    | true =>
      obtain ⟨val', hstep, hval⟩ := (h val ch).1 hdigit
      rw [hstep, if_pos rfl, number_cons]
      exact (ih val').trans (number_mod (by rw [hval, Nat.mod_mod]))

theorem toNat_negate (val : UInt64) : ((~~~val + 1).toNat : Int) = -(val.toNat : Int) % 2 ^ 64 := by
  have hlt := val.toNat_lt
  rw [← UInt64.neg_eq_not_add, UInt64.toNat_neg]
  simp only [UInt64.size]
  omega

theorem takeSign_eq (s : List UInt8) :
    takeSign s = (decide (s.head? = some 45), afterSign s) := by
  unfold takeSign afterSign
  split
  · rfl
  · rfl
  · next _ hminus hplus =>
    have hhead : s.head? ≠ some 45 := by
      intro hhead
      obtain ⟨t, rfl⟩ := List.head?_eq_some_iff.1 hhead
      exact hminus t rfl
    rw [decide_eq_false hhead]

theorem convert_eq (h : Reads base digit) (hbase : 0 < base)
    (hskip : ∀ s, skip s = afterPrefix base s) (s : List UInt8) :
    ((convert skip digit s).toNat : Int) = strValue base s % 2 ^ 64 := by
  have hblank : tIsspace = isspace := funext tIsspace_eq
  have hzero : ∀ c : UInt8, decide (c = 48) = true → isDigit base c = true ∧ hexValue c = 0 := by
    intro c hc
    rw [decide_eq_true_eq] at hc
    subst hc
    exact ⟨decide_eq_true ⟨rfl, hbase⟩, rfl⟩
  have hnumber : ∀ t, (computeNumber digit 0 ((skip t).dropWhile (· = 48))).toNat =
      number base hexValue 0 ((afterPrefix base t).takeWhile (isDigit base)) % 2 ^ 64 := by
    intro t
    rw [computeNumber_eq h, hskip, ← number_takeWhile_dropWhile hzero (afterPrefix base t)]
    rfl
  rw [convert, strValue, hblank, takeSign_eq]
  dsimp only
  split
  · next hsign =>
    rw [if_pos (of_decide_eq_true hsign), toNat_negate, hnumber, Int.natCast_mod]
    omega
  · next hsign =>
    rw [if_neg (of_decide_eq_false (Bool.eq_false_of_not_eq_true hsign)), hnumber]
    rfl

theorem afterPrefix_none (hbase : base ≠ 2) (hbase' : base ≠ 16) (s : List UInt8) :
    afterPrefix base s = s := by
  rw [afterPrefix, basePrefixes, if_neg hbase, if_neg hbase']
  exact if_neg List.not_mem_nil

theorem skip0_eq (lower upper : UInt8) (s : List UInt8) :
    skip0 lower upper s = if s.take 2 ∈ [[48, lower], [48, upper]] then s.drop 2 else s := by
  have hshort : ∀ t : List UInt8, t.length < 2 → t ∉ [[48, lower], [48, upper]] := by
    intro t ht hmem
    obtain rfl | hmem := List.mem_cons.1 hmem
    · exact absurd ht (Nat.lt_irrefl 2)
    · rw [List.mem_singleton.1 hmem] at ht
      exact absurd ht (Nat.lt_irrefl 2)
  match s with
  | [] => exact (if_neg (hshort _ (by decide))).symm
  | [c] =>
    have hnone : [c].take 2 ∉ [[48, lower], [48, upper]] := hshort [c] (Nat.lt_succ_self 1)
    rw [if_neg hnone]
    unfold skip0
    split
    · next heq => cases heq
    · rfl
  | c :: x :: s =>
    by_cases hc : c = 48
    · subst hc
      rw [skip0]
      by_cases hx : x = lower ∨ x = upper
      · rw [if_pos hx, if_pos]
        · rfl
        · rcases hx with rfl | rfl
          · exact List.mem_cons_self
          · exact List.mem_cons_of_mem _ List.mem_cons_self
      · rw [if_neg hx, if_neg]
        intro hmem
        obtain heq | hmem := List.mem_cons.1 hmem
        · exact hx (.inl (List.cons.inj (List.cons.inj heq).2).1)
        · exact hx (.inr (List.cons.inj (List.cons.inj (List.mem_singleton.1 hmem)).2).1)
    · rw [if_neg]
      · unfold skip0
        split
        · next heq => exact absurd (List.cons.inj heq).1 hc
        · rfl
      · intro hmem
        obtain heq | hmem := List.mem_cons.1 hmem
        · exact hc (List.cons.inj heq).1
        · exact hc (List.cons.inj (List.mem_singleton.1 hmem)).1

theorem toNat_shift_add (val k x : UInt64) (hk : k.toNat % 64 = m) :
    ((val <<< k) + x).toNat = (val.toNat * 2 ^ m + x.toNat) % 2 ^ 64 := by
  rw [UInt64.toNat_add, UInt64.toNat_shiftLeft, hk, Nat.shiftLeft_eq, Nat.mod_add_mod]

theorem isDigit2_eq (c : UInt8) : isDigit 2 c = tIsdigit2 c := (tests_eq c).2.1
theorem isDigit8_eq (c : UInt8) : isDigit 8 c = tIsdigit8 c := (tests_eq c).2.2.1
theorem isDigit10_eq (c : UInt8) : isDigit 10 c = tIsdigit10 c := (tests_eq c).2.2.2.1
theorem isDigit16_eq (c : UInt8) : isDigit 16 c =
    (tIsdigit10 c || decide (c > 96 ∧ c < 103) || decide (c > 64 ∧ c < 71)) :=
  (tests_eq c).2.2.2.2.1

theorem value_decimal (c : UInt8) : tIsdigit10 c = true → (c - 48).toNat = hexValue c :=
  (values_eq c).1

theorem value_lower (c : UInt8) : c > 96 ∧ c < 103 → (c - 97).toNat + 10 = hexValue c :=
  (values_eq c).2.1

theorem value_upper (c : UInt8) : c > 64 ∧ c < 71 → (c - 65).toNat + 10 = hexValue c :=
  (values_eq c).2.2

/-- A converter of decimal digits tests for the digits of its base. -/
theorem reads_decimal {test : UInt8 → Bool} {f : UInt64 → UInt64}
    (htest : ∀ c, isDigit base c = test c) (hten : ∀ c, test c = true → tIsdigit10 c = true)
    (hf : ∀ val x, (f val + x).toNat = (val.toNat * base + x.toNat) % 2 ^ 64) :
    Reads base fun val ch => if test ch then some (f val + (ch - 48).toUInt64) else none := by
  intro val ch
  rw [htest ch]
  refine ⟨fun hdigit => ⟨_, if_pos hdigit, ?_⟩, fun hdigit => ?_⟩
  · rw [hf, UInt8.toNat_toUInt64, value_decimal ch (hten ch hdigit)]
  · exact if_neg (Bool.not_eq_true _ ▸ hdigit)

theorem reads_digit2 : Reads 2 digit2 :=
  reads_decimal isDigit2_eq (fun c => (tests_eq c).2.2.2.2.2.1)
    fun val x => toNat_shift_add val 1 x rfl

theorem reads_digit8 : Reads 8 digit8 :=
  reads_decimal isDigit8_eq (fun c => (tests_eq c).2.2.2.2.2.2)
    fun val x => toNat_shift_add val 3 x rfl

theorem reads_digit10 : Reads 10 digit10 := by
  refine reads_decimal isDigit10_eq (fun _ => id) fun val x => ?_
  rw [UInt64.toNat_add, UInt64.toNat_mul, Nat.mod_add_mod]
  rfl

theorem reads_digit16 : Reads 16 digit16 := by
  intro val ch
  have hletter : ∀ x : UInt64, ((val <<< 4) + x + 10).toNat =
      (val.toNat * 16 + (x.toNat + 10)) % 2 ^ 64 := by
    intro x
    rw [UInt64.toNat_add, toNat_shift_add val 4 x rfl, Nat.mod_add_mod, Nat.add_assoc]
    rfl
  rw [isDigit16_eq, digit16]
  cases hten : tIsdigit10 ch with
  | true =>
    refine ⟨fun _ => ⟨_, if_pos rfl, ?_⟩, nofun⟩
    rw [toNat_shift_add val 4 _ rfl, UInt8.toNat_toUInt64, value_decimal ch hten]
    rfl
  | false =>
    rw [if_neg Bool.false_ne_true, Bool.false_or]
    by_cases hlower : ch > 96 ∧ ch < 103
    · rw [if_pos hlower, decide_eq_true hlower, Bool.true_or]
      refine ⟨fun _ => ⟨_, rfl, ?_⟩, nofun⟩
      rw [hletter, UInt8.toNat_toUInt64, value_lower ch hlower]
    · rw [if_neg hlower, decide_eq_false hlower, Bool.false_or]
      by_cases hupper : ch > 64 ∧ ch < 71
      · rw [if_pos hupper, decide_eq_true hupper]
        refine ⟨fun _ => ⟨_, rfl, ?_⟩, nofun⟩
        rw [hletter, UInt8.toNat_toUInt64, value_upper ch hupper]
      · rw [if_neg hupper, decide_eq_false hupper]
        exact ⟨nofun, fun _ => rfl⟩

theorem tS2ToU64_eq (s : List UInt8) : ((tS2ToU64 s).toNat : Int) = strValue 2 s % 2 ^ 64 :=
  convert_eq reads_digit2 (by decide) (fun s => skip0_eq 98 66 s) s

theorem tS8ToU64_eq (s : List UInt8) : ((tS8ToU64 s).toNat : Int) = strValue 8 s % 2 ^ 64 :=
  convert_eq reads_digit8 (by decide)
    (fun s => (afterPrefix_none (by decide) (by decide) s).symm) s

theorem tS10ToU64_eq (s : List UInt8) : ((tS10ToU64 s).toNat : Int) = strValue 10 s % 2 ^ 64 :=
  convert_eq reads_digit10 (by decide)
    (fun s => (afterPrefix_none (by decide) (by decide) s).symm) s

theorem tS16ToU64_eq (s : List UInt8) : ((tS16ToU64 s).toNat : Int) = strValue 16 s % 2 ^ 64 :=
  convert_eq reads_digit16 (by decide) (fun s => skip0_eq 120 88 s) s

end convert

section tSbToU64
variable {base : Int32} {s : List UInt8}

/-- A base outside the table. -/
theorem tSbToU64_outside (s : List UInt8) (h : base.toInt < 0 ∨ 17 < base.toInt) :
    tSbToU64 s base = some 0 := by
  have hlow := base.le_toInt
  have hhigh := base.toInt_lt
  exact if_pos (by change 17 < _; omega)

theorem tSbToU64_inside (s : List UInt8) (h : 0 ≤ base.toInt) (h' : base.toInt ≤ 17) :
    tSbToU64 s base = (sConv[base.toInt.toNat]?).map fun conv => conv.elim 0 (· s) := by
  rw [tSbToU64, if_neg (by change ¬ 17 < _; omega)]
  cases sConv[base.toInt.toNat]? with
  | none => rfl
  | some conv => cases conv <;> rfl

theorem sConv_null (n : Nat) (hn : n < 17) (h : n ≠ 2 ∧ n ≠ 8 ∧ n ≠ 10 ∧ n ≠ 16) :
    sConv[n]? = some none := by
  interval_cases n
  all_goals first
    | rfl
    | exact absurd h (by decide)

/-- A converter of the table has the law of its base. -/
theorem converts_of_conv {conv : List UInt8 → UInt64} (hval : tSbToU64 s base = some (conv s))
    (hbase : base = 2 ∨ base = 8 ∨ base = 10 ∨ base = 16)
    (hconv : ((conv s).toNat : Int) = strValue base.toInt.toNat s % 2 ^ 64) : Converts s base :=
  ⟨conv s, hval, by rwa [if_pos hbase]⟩

theorem converts_of_zero (hval : tSbToU64 s base = some 0)
    (hbase : ¬ (base = 2 ∨ base = 8 ∨ base = 10 ∨ base = 16)) : Converts s base :=
  ⟨0, hval, by rw [if_neg hbase]⟩

/-- The base 17 passes the range test and is not in the table. -/
theorem converts_iff (s : List UInt8) (base : Int32) : Converts s base ↔ base ≠ 17 := by
  by_cases htwo : base = 2
  · subst htwo
    exact iff_of_true (@converts_of_conv 2 s tS2ToU64 rfl (by decide) (tS2ToU64_eq s))
      (by decide)
  by_cases height : base = 8
  · subst height
    exact iff_of_true (@converts_of_conv 8 s tS8ToU64 rfl (by decide) (tS8ToU64_eq s))
      (by decide)
  by_cases hten : base = 10
  · subst hten
    exact iff_of_true (@converts_of_conv 10 s tS10ToU64 rfl (by decide) (tS10ToU64_eq s))
      (by decide)
  by_cases hsixteen : base = 16
  · subst hsixteen
    exact iff_of_true (@converts_of_conv 16 s tS16ToU64 rfl (by decide) (tS16ToU64_eq s))
      (by decide)
  by_cases hlast : base = 17
  · subst hlast
    refine iff_of_false ?_ (fun h => h rfl)
    rintro ⟨val, hval, _⟩
    cases hval
  have hbase : ¬ (base = 2 ∨ base = 8 ∨ base = 10 ∨ base = 16) := by
    rintro (h | h | h | h)
    · exact htwo h
    · exact height h
    · exact hten h
    · exact hsixteen h
  refine iff_of_true (converts_of_zero ?_ hbase) hlast
  by_cases hin : 0 ≤ base.toInt ∧ base.toInt < 17
  · have hne : ∀ (b : Int32) (n : Nat), b.toInt = n → base ≠ b → base.toInt.toNat ≠ n := by
      intro b n hb hne h
      exact hne (Int32.toInt_inj.1 (by omega))
    have hnull := sConv_null base.toInt.toNat (by omega) ⟨hne 2 2 (by decide) htwo,
      hne 8 8 (by decide) height, hne 10 10 (by decide) hten, hne 16 16 (by decide) hsixteen⟩
    rw [tSbToU64_inside s hin.1 (Int.le_of_lt hin.2), hnull]
    rfl
  · have hne : base.toInt ≠ 17 := fun h => hlast (Int32.toInt_inj.1 h)
    exact tSbToU64_outside s (by omega)

theorem not_converts : ¬ Converts [] 17 := by
  rintro ⟨val, hval, _⟩
  have hnone : tSbToU64 [] 17 = none := by decide
  rw [hnone] at hval
  cases hval

end tSbToU64

end BigBox.TypeC
