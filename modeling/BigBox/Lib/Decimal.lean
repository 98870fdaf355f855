import BigBox.Lib.CString
import Mathlib.Algebra.Order.Ring.Int
import Mathlib.Data.Nat.Digits.Defs

namespace BigBox
set_option autoImplicit true

/-- The character of a digit. -/
def digitChar (d : Nat) : UInt8 := .ofNat (48 + d)

/-- A number in decimal. -/
def decimal (n : Nat) : List UInt8 :=
  if n = 0 then [digitChar 0] else ((Nat.digits 10 n).map digitChar).reverse

/-- What `sprintf` writes for `%d`. -/
def decimalInt (i : Int) : List UInt8 :=
  if i < 0 then 45 :: decimal i.natAbs else decimal i.natAbs

theorem digitChar_toNat (h : d < 10) : (digitChar d).toNat = 48 + d := by
  rw [digitChar, UInt8.toNat_ofNat']
  exact Nat.mod_eq_of_lt (by omega)

/-- The value of the digits of a number is the number. -/
theorem decimal_value (n : Nat) :
    Nat.ofDigits 10 ((decimal n).reverse.map fun c => c.toNat - 48) = n := by
  rw [decimal]
  split
  case isTrue h =>
    subst h
    rfl
  case isFalse =>
    have hid : ∀ d ∈ Nat.digits 10 n, (digitChar d).toNat - 48 = d := by
      intro d hd
      rw [digitChar_toNat (Nat.digits_lt_base (by decide) hd), Nat.add_sub_cancel_left]
    have hmap : (Nat.digits 10 n).map (fun d => (digitChar d).toNat - 48) = Nat.digits 10 n :=
      (List.map_congr_left hid).trans (List.map_id' _)
    rw [List.reverse_reverse, List.map_map]
    exact (congrArg (Nat.ofDigits 10) hmap).trans (Nat.ofDigits_digits 10 n)

theorem decimal_inj (h : decimal m = decimal n) : m = n := by
  rw [← decimal_value m, h, decimal_value]

theorem le_of_mem_decimal (h : c ∈ decimal n) : 48 ≤ c.toNat := by
  rw [decimal] at h
  split at h
  case isTrue =>
    rw [List.mem_singleton.1 h]
    decide
  case isFalse =>
    obtain ⟨d, hd, rfl⟩ := List.mem_map.1 (List.mem_reverse.1 h)
    rw [digitChar_toNat (Nat.digits_lt_base (by decide) hd)]
    exact Nat.le_add_right 48 d

theorem not_mem_decimal (h : c.toNat < 48) : c ∉ decimal n :=
  fun hc => Nat.not_le.2 h (le_of_mem_decimal hc)

theorem zero_not_mem_decimalInt (i : Int) : 0 ∉ decimalInt i := by
  have hno : (0 : UInt8) ∉ decimal i.natAbs := not_mem_decimal (by decide)
  rw [decimalInt]
  split
  case isTrue =>
    rw [List.mem_cons, not_or]
    exact ⟨by decide, hno⟩
  case isFalse => exact hno

/-- The sign stands in no number without one. -/
theorem sign_ne_decimal (s : List UInt8) (n : Nat) : 45 :: s ≠ decimal n := by
  intro h
  have hmem : (45 : UInt8) ∈ decimal n := h ▸ List.mem_cons_self
  exact not_mem_decimal (by decide) hmem

theorem decimalInt_inj (h : decimalInt i = decimalInt j) : i = j := by
  rw [decimalInt, decimalInt] at h
  split at h
  case isTrue hi =>
    split at h
    case isTrue hj =>
      have habs : i.natAbs = j.natAbs := decimal_inj (List.cons.inj h).2
      omega
    case isFalse hj => exact (sign_ne_decimal _ _ h).elim
  case isFalse hi =>
    split at h
    case isTrue hj => exact (sign_ne_decimal _ _ h.symm).elim
    case isFalse hj =>
      have habs : i.natAbs = j.natAbs := decimal_inj h
      omega

end BigBox
