import Mathlib.Algebra.Order.Ring.Int
import Mathlib.Data.List.Basic

namespace BigBox
set_option autoImplicit true

/-- A number in groups of seven bits, the lowest first. Every group but the last has the upper bit
set. -/
def varint (n : Nat) : List UInt8 :=
  if n < 128 then [UInt8.ofNat n] else UInt8.ofNat (n % 128 + 128) :: varint (n / 128)
termination_by n

/-- What groups of seven bits add up to. -/
def groups : List UInt8 → Nat
  | [] => 0
  | b :: bs => b.toNat % 128 + 128 * groups bs

theorem varint_of_lt (h : n < 128) : varint n = [UInt8.ofNat n] := by
  rw [varint, if_pos h]

theorem varint_of_le (h : 128 ≤ n) :
    varint n = UInt8.ofNat (n % 128 + 128) :: varint (n / 128) := by
  rw [varint, if_neg (Nat.not_lt.2 h)]

theorem toNat_last (h : n < 128) : (UInt8.ofNat n).toNat = n := by
  rw [UInt8.toNat_ofNat']
  exact Nat.mod_eq_of_lt (by omega)

theorem toNat_more (n : Nat) : (UInt8.ofNat (n % 128 + 128)).toNat = n % 128 + 128 := by
  rw [UInt8.toNat_ofNat']
  exact Nat.mod_eq_of_lt (by omega)

theorem groups_varint (n : Nat) : groups (varint n) = n := by
  induction n using varint.induct with
  | case1 n h =>
    rw [varint_of_lt h, groups, groups, toNat_last h, Nat.mod_eq_of_lt h]
    rfl
  | case2 n h ih =>
    rw [varint_of_le (Nat.not_lt.1 h), groups, ih, toNat_more]
    omega

theorem varint_ne_nil (n : Nat) : varint n ≠ [] := by
  rw [varint]
  split
  · exact List.cons_ne_nil _ _
  · exact List.cons_ne_nil _ _

/-- So many groups are enough for the numbers below so many powers. -/
theorem length_varint_le (hk : 0 < k) : (varint n).length ≤ k ↔ n < 128 ^ k := by
  induction k generalizing n with
  | zero => cases hk
  | succ k ih =>
    by_cases hn : n < 128
    · rw [varint_of_lt hn]
      apply iff_of_true (Nat.le_add_left 1 k)
      exact Nat.lt_of_lt_of_le hn (Nat.le_self_pow (Nat.succ_ne_zero k) 128)
    · rw [varint_of_le (Nat.not_lt.1 hn), List.length_cons, Nat.add_le_add_iff_right, Nat.pow_succ,
        ← Nat.div_lt_iff_lt_mul (by decide)]
      cases k with
      | zero =>
        have hlen := List.length_pos_iff.2 (varint_ne_nil (n / 128))
        have hpos : 0 < n / 128 := Nat.div_pos (Nat.not_lt.1 hn) (by decide)
        rw [Nat.pow_zero]
        omega
      | succ k => exact ih (Nat.succ_pos k)

theorem groups_lt (bs : List UInt8) : groups bs < 128 ^ bs.length := by
  induction bs with
  | nil => exact Nat.zero_lt_one
  | cons b bs ih =>
    have hb := Nat.mod_lt b.toNat (by decide : 0 < 128)
    rw [groups, List.length_cons, Nat.pow_succ']
    omega

end BigBox
