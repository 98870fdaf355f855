import Mathlib.Data.Finset.Card
import Mathlib.Data.Nat.Prime.Basic
import Mathlib.Dynamics.PeriodicPts.Defs
import Mathlib.Order.Interval.Finset.Nat
import BigBox.Lib.ShiftRegister

namespace BigBox
set_option autoImplicit true

open Function (minimalPeriod)

/-- The sum of the rows at the bits that are set, the lowest first. -/
def combine : List Nat → Nat → Nat
  | [], _ => 0
  | row :: rows, r => r % 2 * row ^^^ combine rows (r / 2)

/-- The values of a function at the powers of two. -/
def rowsOf (g : Nat → Nat) : Nat → List Nat
  | 0 => []
  | w + 1 => g 1 :: rowsOf (fun r => g (2 * r)) w

/-- A continuation gets a list whose numbers are evaluated. -/
def withList : List Nat → (List Nat → α) → α
  | [], k => k []
  | 0 :: rows, k => withList rows fun rows => k (0 :: rows)
  | (n + 1) :: rows, k => withList rows fun rows => k ((n + 1) :: rows)

theorem withList_eq (rows : List Nat) (k : List Nat → α) : withList rows k = k rows := by
  induction rows generalizing k with
  | nil => rfl
  | cons n rows ih =>
    cases n with
    | zero => exact ih _
    | succ n => exact ih _

/-- A linear map over and over, as many times as the bits say, the lowest first. The map is squared
for every bit. -/
def squaring : List Bool → List Nat → Nat → Nat
  | [], _, r => r
  | bit :: bits, rows, r =>
    withList (rows.map (combine rows)) fun rows' =>
      squaring bits rows' (if bit then combine rows r else r)

/-- A number in bits. -/
def bitsValue : List Bool → Nat
  | [] => 0
  | bit :: bits => (if bit then 1 else 0) + 2 * bitsValue bits

section Linear
variable {g h : Nat → Nat}

/-- A map that keeps sums of bits. -/
def Linear (g : Nat → Nat) : Prop := g 0 = 0 ∧ ∀ a b, g (a ^^^ b) = g a ^^^ g b

theorem two_mul_xor (a b : Nat) : 2 * (a ^^^ b) = 2 * a ^^^ 2 * b := by
  have h := Nat.shiftLeft_xor_distrib (a := a) (b := b) (i := 1)
  rwa [Nat.shiftLeft_eq, Nat.shiftLeft_eq, Nat.shiftLeft_eq, Nat.pow_one, Nat.mul_comm _ 2,
    Nat.mul_comm _ 2, Nat.mul_comm _ 2] at h

theorem mod_two_xor_two_mul (r : Nat) : r % 2 ^^^ 2 * (r / 2) = r := by
  apply Nat.eq_of_testBit_eq
  intro i
  cases i with
  | zero => simp
  | succ i =>
    have hlow : r % 2 / 2 = 0 := Nat.div_eq_of_lt (Nat.mod_lt r (by decide))
    have hhigh : 2 * (r / 2) / 2 = r / 2 := Nat.mul_div_cancel_left _ (by decide)
    rw [Nat.testBit_xor, Nat.testBit_succ, Nat.testBit_succ, Nat.testBit_succ, hlow, hhigh,
      Nat.zero_testBit, Bool.false_xor]

/-- A linear map is the combination of its rows. -/
theorem combine_rowsOf (hg : Linear g) (hr : r < 2 ^ w) : combine (rowsOf g w) r = g r := by
  induction w generalizing g r with
  | zero =>
    rw [Nat.lt_one_iff.1 hr]
    exact hg.1.symm
  | succ w ih =>
    have hhalf : Linear fun r => g (2 * r) :=
      ⟨hg.1, fun a b => (congrArg g (two_mul_xor a b)).trans (hg.2 _ _)⟩
    have hlow : r % 2 * g 1 = g (r % 2) := by
      rcases Nat.mod_two_eq_zero_or_one r with h | h
      · rw [h, Nat.zero_mul, hg.1]
      · rw [h, Nat.one_mul]
    rw [rowsOf, combine, ih hhalf (Nat.div_lt_of_lt_mul (Nat.pow_succ' ▸ hr)), hlow, ← hg.2,
      mod_two_xor_two_mul]

theorem map_rowsOf (g h : Nat → Nat) (w : Nat) :
    (rowsOf g w).map h = rowsOf (fun r => h (g r)) w := by
  induction w generalizing g with
  | zero => rfl
  | succ w ih => exact congrArg (h (g 1) :: ·) (ih _)

theorem rowsOf_congr (hgh : ∀ r < 2 ^ w, g r = h r) : rowsOf g w = rowsOf h w := by
  induction w generalizing g h with
  | zero => rfl
  | succ w ih =>
    rw [rowsOf, rowsOf, hgh 1 (Nat.one_lt_two_pow (Nat.succ_ne_zero w)), ih fun r hr => hgh _ ?_]
    rw [Nat.pow_succ']
    exact Nat.mul_lt_mul_of_pos_left hr (by decide)

theorem Linear.iterate (hg : Linear g) (n : Nat) : Linear g^[n] := by
  induction n with
  | zero => exact ⟨rfl, fun _ _ => rfl⟩
  | succ n ih =>
    constructor
    · rw [Function.iterate_succ_apply, hg.1, ih.1]
    · intro a b
      rw [Function.iterate_succ_apply, hg.2, ih.2]
      rfl

/-- Squaring gives what the map does as many times as the bits say. -/
theorem squaring_eq (hg : Linear g) (hw : ∀ r < 2 ^ w, g r < 2 ^ w) (bits : List Bool)
    (hr : r < 2 ^ w) : squaring bits (rowsOf g w) r = g^[bitsValue bits] r := by
  induction bits generalizing g r with
  | nil => rfl
  | cons bit bits ih =>
    have hsquare : (rowsOf g w).map (combine (rowsOf g w)) = rowsOf g^[2] w := by
      rw [map_rowsOf]
      exact rowsOf_congr fun r hr => combine_rowsOf hg (hw r hr)
    have hstep : (if bit then combine (rowsOf g w) r else r) = g^[if bit then 1 else 0] r := by
      cases bit with
      | false => rfl
      | true => exact combine_rowsOf hg hr
    have hlt : g^[if bit then 1 else 0] r < 2 ^ w := by
      cases bit with
      | false => exact hr
      | true => exact hw r hr
    rw [squaring, withList_eq, hsquare, hstep,
      ih (hg.iterate 2) (fun r hr => hw _ (hw r hr)) hlt, ← Function.iterate_mul,
      ← Function.iterate_add_apply, bitsValue, Nat.add_comm]

end Linear

/-- A shift register that is kept in a number. -/
def shiftNat (poly : BitVec w) (r : Nat) : Nat := (shiftBit poly (BitVec.ofNat w r)).toNat

theorem shiftNat_linear (poly : BitVec w) : Linear (shiftNat poly) := by
  constructor
  · rw [shiftNat]
    have h := shiftBits_clear (n := 1) poly fun i _ => BitVec.getLsbD_zero (w := w) (i := i)
    change (shiftBits poly 1 0#w).toNat = 0
    rw [h, BitVec.zero_ushiftRight]
    rfl
  · intro a b
    rw [shiftNat, shiftNat, shiftNat, BitVec.ofNat_xor, shiftBit_xor, BitVec.toNat_xor]

theorem toNat_shiftBits (poly : BitVec w) (n : Nat) (r : BitVec w) :
    (shiftBits poly n r).toNat = (shiftNat poly)^[n] r.toNat := by
  induction n with
  | zero => rfl
  | succ n ih =>
    rw [shiftBits_succ, Function.iterate_succ_apply', ← ih, shiftNat, BitVec.ofNat_toNat,
      BitVec.setWidth_eq]

/-- The register after as many rounds as bits say. -/
theorem toNat_shiftBits_squaring (poly : BitVec w) (bits : List Bool) (r : BitVec w) :
    (shiftBits poly (bitsValue bits) r).toNat =
      squaring bits (rowsOf (shiftNat poly) w) r.toNat := by
  rw [toNat_shiftBits, squaring_eq (shiftNat_linear poly) (fun _ _ => BitVec.isLt _) bits r.isLt]

theorem shiftBits_add (poly : BitVec w) (m n : Nat) (r : BitVec w) :
    shiftBits poly (m + n) r = shiftBits poly m (shiftBits poly n r) :=
  Function.iterate_add_apply _ _ _ _

theorem shiftBits_zero (poly : BitVec w) (n : Nat) : shiftBits poly n 0#w = 0#w := by
  rw [shiftBits_clear poly fun i _ => BitVec.getLsbD_zero]
  exact BitVec.zero_ushiftRight

/-- The period is the one that no prime takes a part of. -/
theorem minimalPeriod_eq_of_primes {α : Type _} {f : α → α} {x : α} {n : Nat}
    (hperiod : f^[n] x = x) (hprimes : ∀ p, p.Prime → p ∣ n → f^[n / p] x ≠ x) :
    minimalPeriod f x = n := by
  obtain ⟨c, hc⟩ := Function.IsPeriodicPt.minimalPeriod_dvd (f := f) hperiod
  by_contra hne
  have hc1 : c ≠ 1 := by
    rintro rfl
    exact hne ((Nat.mul_one _).symm.trans hc.symm)
  obtain ⟨p, hp, k, rfl⟩ := Nat.exists_prime_and_dvd hc1
  apply hprimes p hp ⟨minimalPeriod f x * k, by rw [hc, Nat.mul_left_comm]⟩
  have hdiv : n / p = minimalPeriod f x * k := by
    rw [hc, Nat.mul_left_comm, Nat.mul_div_cancel_left _ hp.pos]
  rw [hdiv]
  exact (Function.isPeriodicPt_minimalPeriod f x).mul_const k

section Period
variable {poly r s s₀ : BitVec w}

/-- A register of the longest period never gets to zero. -/
theorem shiftBits_ne_zero (hperiod : minimalPeriod (shiftBit poly) s₀ = 2 ^ w - 1)
    (hs₀ : s₀ ≠ 0#w) (n : Nat) : shiftBits poly n s₀ ≠ 0#w := by
  intro hzero
  have hw : 0 < 2 ^ w - 1 := by
    have hlt := s₀.isLt
    have hpos : s₀.toNat ≠ 0 := fun h => hs₀ (BitVec.eq_of_toNat_eq h)
    omega
  have hlast : shiftBits poly (n * (2 ^ w - 1)) s₀ = s₀ := by
    rw [← hperiod]
    exact (Function.isPeriodicPt_minimalPeriod _ s₀).const_mul n
  obtain ⟨k, hk⟩ := Nat.exists_eq_add_of_le (Nat.le_mul_of_pos_right n hw)
  rw [hk, Nat.add_comm, shiftBits_add, hzero, shiftBits_zero] at hlast
  exact hs₀ hlast.symm

/-- A register of the longest period passes through everything but zero. -/
theorem exists_shiftBits_eq (hperiod : minimalPeriod (shiftBit poly) s₀ = 2 ^ w - 1)
    (hs₀ : s₀ ≠ 0#w) (hr : r ≠ 0#w) : ∃ n < 2 ^ w - 1, shiftBits poly n s₀ = r := by
  let values : Finset Nat := (Finset.range (2 ^ w - 1)).image fun n => (shiftBits poly n s₀).toNat
  have hinj : Set.InjOn (fun n => (shiftBits poly n s₀).toNat) (Finset.range (2 ^ w - 1)) := by
    intro m hm n hn heq
    rw [Finset.coe_range, ← hperiod] at hm hn
    exact Function.iterate_injOn_Iio_minimalPeriod hm hn (BitVec.eq_of_toNat_eq heq)
  have hpos (x : BitVec w) (hx : x ≠ 0#w) : x.toNat ∈ Finset.Ico 1 (2 ^ w) := by
    apply Finset.mem_Ico.2 ⟨_, x.isLt⟩
    exact Nat.pos_of_ne_zero fun h => hx (BitVec.eq_of_toNat_eq h)
  have hsub : values ⊆ Finset.Ico 1 (2 ^ w) := by
    intro v hv
    obtain ⟨n, _, rfl⟩ := Finset.mem_image.1 hv
    exact hpos _ (shiftBits_ne_zero hperiod hs₀ n)
  have hcard : (Finset.Ico 1 (2 ^ w)).card ≤ values.card := by
    rw [Finset.card_image_of_injOn hinj, Finset.card_range, Nat.card_Ico]
  have hmem : r.toNat ∈ values := by
    rw [Finset.eq_of_subset_of_card_le hsub hcard]
    exact hpos r hr
  obtain ⟨n, hn, heq⟩ := Finset.mem_image.1 hmem
  exact ⟨n, Finset.mem_range.1 hn, BitVec.eq_of_toNat_eq heq⟩

/-- From every value but zero the register gets to every other within one period. -/
theorem exists_shiftBits_eq_of_ne_zero (hperiod : minimalPeriod (shiftBit poly) s₀ = 2 ^ w - 1)
    (hs₀ : s₀ ≠ 0#w) (hs : s ≠ 0#w) (hr : r ≠ 0#w) :
    ∃ n < 2 ^ w - 1, shiftBits poly (n + 1) s = r := by
  obtain ⟨j, hj, rfl⟩ := exists_shiftBits_eq hperiod hs₀ hs
  obtain ⟨i, hi, rfl⟩ := exists_shiftBits_eq hperiod hs₀ hr
  have hmod (n : Nat) : shiftBits poly (n % (2 ^ w - 1)) s₀ = shiftBits poly n s₀ := by
    rw [← hperiod]
    exact Function.iterate_mod_minimalPeriod_eq
  refine ⟨(i + (2 ^ w - 1) - (j + 1)) % (2 ^ w - 1), Nat.mod_lt _ (Nat.zero_lt_of_lt hi), ?_⟩
  rw [← shiftBits_add, ← hmod, Nat.add_assoc, Nat.mod_add_mod, Nat.add_comm 1 j,
    Nat.sub_add_cancel (by omega), Nat.add_mod_right, hmod]

end Period

end BigBox
