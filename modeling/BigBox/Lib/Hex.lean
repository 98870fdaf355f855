import BigBox.Lib.CString

namespace BigBox.Hex
set_option autoImplicit true

def isxdigit (c : UInt8) : Bool := 48 ≤ c ∧ c ≤ 57 ∨ 65 ≤ c ∧ c ≤ 70 ∨ 97 ≤ c ∧ c ≤ 102

def hexValue (c : UInt8) : Nat :=
  if c ≤ 57 then c.toNat - 48 else if c ≤ 70 then c.toNat - 55 else c.toNat - 87

/-- The number that the digits at the start are. -/
def hexNumber (text : List UInt8) : Nat :=
  (text.takeWhile isxdigit).foldl (fun n c => n * 16 + hexValue c) 0

/-- `0x` is skipped where a digit follows. -/
def skipPrefix : List UInt8 → List UInt8
  | 48 :: x :: c :: rest =>
    if (x = 88 ∨ x = 120) ∧ isxdigit c then c :: rest else 48 :: x :: c :: rest
  | text => text

/-- `strtol` in base 16, of a number that a `long` holds. -/
def strtolHex (text : List UInt8) : Int :=
  match text.dropWhile isspace with
  | 45 :: rest => -(hexNumber (skipPrefix rest) : Int)
  | 43 :: rest => hexNumber (skipPrefix rest)
  | rest => hexNumber (skipPrefix rest)

def hexDigit (n : Nat) : UInt8 := if n < 10 then .ofNat (48 + n) else .ofNat (55 + n)

/-- `%02X` of a byte. -/
def hexPair (c : UInt8) : List UInt8 := [hexDigit (c.toNat / 16), hexDigit (c.toNat % 16)]

theorem isxdigit_hexDigit (h : n < 16) : isxdigit (hexDigit n) = true := by
  revert n
  decide

theorem hexValue_hexDigit (h : n < 16) : hexValue (hexDigit n) = n := by
  revert n
  decide

theorem not_isspace_of_isxdigit (h : isxdigit c = true) : isspace c = false := by
  simp only [isxdigit, decide_eq_true_eq] at h
  simp only [isspace, decide_eq_false_iff_not]
  simp only [UInt8.le_iff_toNat_le, ← UInt8.toNat_inj] at h ⊢
  simp only [UInt8.reduceToNat] at h ⊢
  omega

/-- Two digits are the number they spell. -/
theorem strtolHex_digits (ha : isxdigit a = true) (hb : isxdigit b = true) :
    strtolHex [a, b] = (hexValue a * 16 + hexValue b : Nat) := by
  have hspace := not_isspace_of_isxdigit ha
  have hnumber : hexNumber [a, b] = hexValue a * 16 + hexValue b := by
    simp only [hexNumber, List.takeWhile_cons, ha, hb, if_true, List.takeWhile_nil,
      List.foldl_cons, List.foldl_nil, Nat.zero_mul, Nat.zero_add]
  have hminus : a ≠ 45 := by
    rintro rfl
    exact absurd ha (by decide)
  have hplus : a ≠ 43 := by
    rintro rfl
    exact absurd ha (by decide)
  have hskip : skipPrefix [a, b] = [a, b] := by
    unfold skipPrefix
    split
    · next heq => cases heq
    · rfl
  unfold strtolHex
  rw [List.dropWhile_cons_of_neg (by rw [hspace]; exact Bool.false_ne_true)]
  split
  · next heq => exact absurd (List.cons.inj heq).1 hminus
  · next heq => exact absurd (List.cons.inj heq).1 hplus
  · rw [hskip, hnumber]

theorem strtolHex_hexPair (c : UInt8) : UInt8.ofInt (strtolHex (hexPair c)) = c := by
  have hlt := c.toNat_lt
  have hhigh : c.toNat / 16 < 16 := by omega
  have hlow : c.toNat % 16 < 16 := by omega
  rw [hexPair, strtolHex_digits (isxdigit_hexDigit hhigh) (isxdigit_hexDigit hlow),
    hexValue_hexDigit hhigh, hexValue_hexDigit hlow]
  have hsum : c.toNat / 16 * 16 + c.toNat % 16 = c.toNat := by omega
  have hmod : (((c.toNat : Nat) : Int) % 2 ^ 8).toNat = c.toNat := by omega
  rw [hsum, UInt8.ofInt, hmod, UInt8.ofNat_toNat]

end BigBox.Hex
