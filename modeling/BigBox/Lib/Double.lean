import Mathlib.Algebra.Order.Ring.Int

/-! Sums and products of nonnegative doubles, which are kept in units of 2 ^ -54. -/
namespace BigBox.Double
set_option autoImplicit true

/-- How many low bits do not fit in 53 bits. -/
def cut (x : Nat) : Nat := x.log2 - 52

/-- The nearest number of 53 bits. Of two that are as near it is the even one. -/
def round (x : Nat) : Nat :=
  let ulp := 2 ^ cut x
  let q := x / ulp
  let r := x % ulp
  (if ulp < 2 * r ∨ 2 * r = ulp ∧ q % 2 = 1 then q + 1 else q) * ulp

def ofNat (n : Nat) : Nat := round (n * 2 ^ 54)

def add (x y : Nat) : Nat := round (x + y)

/-- The product of a whole number and another. -/
def mul (x y : Nat) : Nat := round (x / 2 ^ 54 * y)

/-- The fraction is cut off. -/
def toNat (x : Nat) : Nat := x / 2 ^ 54

section Round
variable {m t x n k : Nat}

theorem le_div_cut (hcut : cut x ≠ 0) : 2 ^ 52 ≤ x / 2 ^ cut x := by
  have hx : x ≠ 0 := by
    rintro rfl
    exact hcut rfl
  have hlog : 52 + cut x = x.log2 := by
    unfold cut at hcut ⊢
    omega
  rw [Nat.le_div_iff_mul_le (Nat.two_pow_pos _), ← Nat.pow_add, hlog]
  exact Nat.log2_self_le hx

/-- What has fewer low bits than are cut off is small. -/
theorem mul_pow_le (hm : m ≤ 2 ^ 53) (ht : t < cut x) :
    m * 2 ^ t ≤ x / 2 ^ cut x * 2 ^ cut x := by
  calc m * 2 ^ t ≤ 2 ^ 53 * 2 ^ (cut x - 1) :=
        Nat.mul_le_mul hm (Nat.pow_le_pow_right (by decide) (by omega))
    _ = 2 ^ 52 * 2 ^ cut x := by
        rw [← Nat.pow_add, ← Nat.pow_add]
        congr 1
        omega
    _ ≤ x / 2 ^ cut x * 2 ^ cut x := Nat.mul_le_mul_right _ (le_div_cut (by omega))

theorem pow_cut (ht : cut x ≤ t) (m : Nat) : m * 2 ^ t = m * 2 ^ (t - cut x) * 2 ^ cut x := by
  rw [Nat.mul_assoc, ← Nat.pow_add, Nat.sub_add_cancel ht]

/-- Rounding does not pass a number of 53 bits. -/
theorem le_round (hm : m ≤ 2 ^ 53) (h : m * 2 ^ t ≤ x) : m * 2 ^ t ≤ round x := by
  have hfloor : m * 2 ^ t ≤ x / 2 ^ cut x * 2 ^ cut x := by
    by_cases ht : cut x ≤ t
    · rw [pow_cut ht] at h ⊢
      exact Nat.mul_le_mul_right _ ((Nat.le_div_iff_mul_le (Nat.two_pow_pos _)).2 h)
    · exact mul_pow_le hm (Nat.lt_of_not_le ht)
  refine Nat.le_trans hfloor (Nat.mul_le_mul_right _ ?_)
  split
  · exact Nat.le_succ _
  · exact Nat.le_refl _

theorem round_le (hm : m ≤ 2 ^ 53) (h : x ≤ m * 2 ^ t) : round x ≤ m * 2 ^ t := by
  have hdiv : x / 2 ^ cut x * 2 ^ cut x + x % 2 ^ cut x = x := by
    rw [Nat.mul_comm]
    exact Nat.div_add_mod _ _
  unfold round
  dsimp only
  split
  case isFalse => exact Nat.le_trans (Nat.div_mul_le_self _ _) h
  case isTrue hup =>
    have hpos : 0 < 2 ^ cut x := Nat.two_pow_pos _
    have hrest : 0 < x % 2 ^ cut x := by omega
    by_cases ht : cut x ≤ t
    · rw [pow_cut ht] at h ⊢
      have hne : x ≠ m * 2 ^ (t - cut x) * 2 ^ cut x := by
        intro he
        have hmod := Nat.mul_mod_left (m * 2 ^ (t - cut x)) (2 ^ cut x)
        rw [← he] at hmod
        omega
      exact Nat.mul_le_mul_right _ ((Nat.div_lt_iff_lt_mul hpos).2 (Nat.lt_of_le_of_ne h hne))
    · have hsmall := mul_pow_le (x := x) hm (Nat.lt_of_not_le ht)
      omega

theorem round_eq (hm : m ≤ 2 ^ 53) : round (m * 2 ^ t) = m * 2 ^ t :=
  Nat.le_antisymm (round_le hm (Nat.le_refl _)) (le_round hm (Nat.le_refl _))

theorem ofNat_eq (hn : n ≤ 2 ^ 53) : ofNat n = n * 2 ^ 54 :=
  round_eq hn

/-- A number and no more than seven eighths. -/
def Near (n x : Nat) : Prop := n * 2 ^ 54 ≤ x ∧ x ≤ (8 * n + 7) * 2 ^ 51

theorem near_round (hn : n < 2 ^ 50) (h : Near n x) : Near n (round x) :=
  ⟨le_round (by omega) h.1, round_le (by omega) h.2⟩

theorem Near.add_ofNat (h : Near n x) (hsum : n + k < 2 ^ 50) : Near (n + k) (add x (ofNat k)) := by
  obtain ⟨hle, hge⟩ := h
  rw [add, ofNat_eq (by omega)]
  have hlow : (n + k) * 2 ^ 54 = n * 2 ^ 54 + k * 2 ^ 54 := Nat.add_mul ..
  have hhigh : (8 * (n + k) + 7) * 2 ^ 51 = (8 * n + 7) * 2 ^ 51 + k * 2 ^ 54 := by
    clear hle hge hlow
    omega
  apply near_round hsum
  constructor
  · rw [hlow]
    exact Nat.add_le_add_right hle _
  · rw [hhigh]
    exact Nat.add_le_add_right hge _

theorem Near.ofNat_add (h : Near n x) (hsum : k + n < 2 ^ 50) : Near (k + n) (add (ofNat k) x) := by
  rw [add, Nat.add_comm (ofNat k), Nat.add_comm k]
  exact h.add_ofNat (Nat.add_comm k n ▸ hsum)

theorem Near.toNat_eq (h : Near n x) : toNat x = n := by
  unfold Near at h
  unfold toNat
  omega

/-- `0.2` -/
def fifth : Nat := 3602879701896397

theorem near_mul_fifth (hn : n < 2 ^ 50) : Near (n / 5) (mul (ofNat n) fifth) := by
  rw [mul, ofNat_eq (by omega), Nat.mul_div_cancel _ (by decide), fifth]
  apply near_round (by omega)
  unfold Near
  omega

end Round

end BigBox.Double
