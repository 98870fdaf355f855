import Mathlib.Algebra.Order.Ring.Int
import Mathlib.Data.Int.DivMod

namespace BigBox
set_option autoImplicit true

/-- A number as an `unsigned int`. -/
@[irreducible] def unsigned (n : Nat) : Nat := n % 4294967296

/-- A number as an `int`. -/
@[irreducible] def toInt (n : Nat) : Int := (n : Int).bmod 4294967296

/-- A number as a `size_t`. -/
@[irreducible] def sizeT (n : Nat) : Nat := n % 18446744073709551616

/-- The value of a signed operation. An overflow has no result. -/
def checkedInt (n : Int) : Option Int :=
  if -2147483648 ≤ n ∧ n < 2147483648 then some n else none

theorem checkedInt_of_lt {n : Int} (hlow : -2147483648 ≤ n) (hhigh : n < 2147483648) :
    checkedInt n = some n :=
  if_pos ⟨hlow, hhigh⟩

theorem checkedInt_eq_some {n : Int} (h : checkedInt n = some m) : m = n := by
  rw [checkedInt] at h
  split at h
  case isTrue => exact (Option.some.inj h).symm
  case isFalse => cases h

theorem checkedInt_range {n : Int} (h : checkedInt n = some m) :
    -2147483648 ≤ m ∧ m < 2147483648 := by
  rw [checkedInt] at h
  split at h
  case isTrue hrange =>
    cases h
    exact hrange
  case isFalse => cases h

theorem sizeT_of_lt {n : Nat} (h : n < 18446744073709551616) : sizeT n = n := by
  unfold sizeT
  exact Nat.mod_eq_of_lt h

theorem sizeT_lt (n : Nat) : sizeT n < 18446744073709551616 := by
  unfold sizeT
  exact Nat.mod_lt _ (by decide)

theorem sizeT_le (n : Nat) : sizeT n ≤ n := by
  unfold sizeT
  exact Nat.mod_le _ _

/-- What holds of every number below 256 holds of every byte. -/
theorem forall_byte {P : UInt8 → Prop} (h : ∀ n < 256, P (UInt8.ofNat n)) (x : UInt8) : P x := by
  have hx := h x.toNat x.toNat_lt
  rwa [UInt8.ofNat_toNat] at hx

theorem bmod_of_lt {n c : Nat} (h : 2 * n < c) : (n : Int).bmod c = n := by
  apply Int.bmod_eq_of_le
  · omega
  · omega

theorem toInt_of_lt {n : Nat} (h : n < 2147483648) : toInt n = n := by
  unfold toInt
  apply bmod_of_lt
  omega

theorem unsigned_of_lt {n : Nat} (h : n < 4294967296) : unsigned n = n := by
  unfold unsigned
  exact Nat.mod_eq_of_lt h

theorem unsigned_lt (n : Nat) : unsigned n < 4294967296 := by
  unfold unsigned
  exact Nat.mod_lt _ (by decide)

theorem toInt_of_le {n : Nat} (h : 2147483648 ≤ n) (hn : n < 4294967296) :
    toInt n = n - 4294967296 := by
  unfold toInt
  rw [Int.bmod_def]
  omega

theorem toInt_le (n : Nat) : toInt n ≤ n := by
  unfold toInt
  rw [Int.bmod_def]
  omega

theorem toInt_lt (n : Nat) : toInt n < 2147483648 := by
  unfold toInt
  exact Int.bmod_lt (by decide)

theorem le_toInt (n : Nat) : -2147483648 ≤ toInt n := by
  unfold toInt
  exact Int.le_bmod (by decide)

theorem toInt_succ {n : Nat} (h : toInt (n + 1) ≠ -2147483648) : toInt (n + 1) = toInt n + 1 := by
  unfold toInt at h ⊢
  rw [Int.bmod_def] at h
  rw [Int.bmod_def, Int.bmod_def]
  omega

theorem toInt_lt_of_succ {n : Nat} (h : toInt (n + 1) ≠ -2147483648) : toInt n < 2147483647 := by
  have hlt := toInt_lt (n + 1)
  rw [toInt_succ h] at hlt
  omega

/-- A number that wraps around is a multiple of 2 ^ 32 away. -/
theorem toInt_wraps {n m : Nat} (h : toInt n = m) (hlt : m < n) : m + 4294967296 ≤ n := by
  unfold toInt at h
  rw [Int.bmod_def] at h
  omega

/-- The copy of the first characters of a text, whose number goes through an `int`. A negative
number and one that cannot be incremented have no copy. -/
def copyText (text : List α) (len : Nat) : Option (List α) :=
  let n := toInt len
  if 0 ≤ n ∧ n + 1 < 2147483648 then some (text.take n.toNat) else none

theorem toNat_toInt_le (n : Nat) : (toInt n).toNat ≤ n := by
  have hle := toInt_le n
  omega

theorem copyText_append {s : List α} (h : s.length < 2147483647) (t : List α) :
    copyText (s ++ t) s.length = some s := by
  have hlen : toInt s.length = (s.length : Int) := toInt_of_lt (Nat.lt_succ_of_lt h)
  rw [copyText, hlen, Int.toNat_natCast, List.take_left]
  exact if_pos (by omega)

/-- A text is copied whole if its length and the size of the copy do not overflow. -/
theorem copyText_eq_some_iff (s t : List α) :
    copyText (s ++ t) s.length = some s ↔ s.length < 2147483647 := by
  refine ⟨fun h => ?_, fun h => copyText_append h t⟩
  rw [copyText] at h
  split at h
  · next hfit =>
    have htake := congrArg List.length (Option.some.inj h)
    have hle := toNat_toInt_le s.length
    rw [List.length_take, List.length_append] at htake
    omega
  · cases h

theorem isPrefix_of_copyText {s t : List α} (h : copyText (s ++ t) s.length = some r) :
    r <+: s := by
  rw [copyText] at h
  split at h
  · cases h
    rw [List.take_append_of_le_length (toNat_toInt_le _)]
    exact List.take_prefix _ _
  · cases h

end BigBox
