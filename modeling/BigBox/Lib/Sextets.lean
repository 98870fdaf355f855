import Mathlib.Algebra.Order.Ring.Int
import Mathlib.Data.List.Basic

namespace BigBox
set_option autoImplicit true

/-- The groups of six bits of bytes, the last of which is filled with zero bits. -/
def sextets : List UInt8 → List Nat
  | [] => []
  | [a] => [a.toNat / 4, a.toNat % 4 * 16]
  | [a, b] => [a.toNat / 4, a.toNat % 4 * 16 + b.toNat / 16, b.toNat % 16 * 4]
  | a :: b :: c :: rest =>
    a.toNat / 4 :: (a.toNat % 4 * 16 + b.toNat / 16) :: (b.toNat % 16 * 4 + c.toNat / 64) ::
      c.toNat % 64 :: sextets rest

/-- What is behind the groups to make their number a multiple of four. -/
def padding : List UInt8 → Nat
  | [] => 0
  | [_] => 2
  | [_, _] => 1
  | _ :: _ :: _ :: rest => padding rest

theorem sextets_lt (bs : List UInt8) : ∀ v ∈ sextets bs, v < 64 := by
  induction bs using sextets.induct with
  | case1 => exact fun v hv => absurd hv List.not_mem_nil
  | case2 a =>
    have ha := a.toNat_lt
    simp only [sextets, List.forall_mem_cons, List.not_mem_nil, false_imp_iff, implies_true,
      and_true]
    omega
  | case3 a b =>
    have ha := a.toNat_lt
    have hb := b.toNat_lt
    simp only [sextets, List.forall_mem_cons, List.not_mem_nil, false_imp_iff, implies_true,
      and_true]
    omega
  | case4 a b c rest ih =>
    have ha := a.toNat_lt
    have hb := b.toNat_lt
    have hc := c.toNat_lt
    simp only [sextets, List.forall_mem_cons]
    refine ⟨by omega, by omega, by omega, by omega, ih⟩

theorem length_sextets (bs : List UInt8) :
    (sextets bs).length + padding bs = (bs.length + 2) / 3 * 4 := by
  induction bs using sextets.induct with
  | case1 => rfl
  | case2 a => simp only [sextets, padding, List.length_cons, List.length_nil]
  | case3 a b => simp only [sextets, padding, List.length_cons, List.length_nil]
  | case4 a b c rest ih =>
    simp only [sextets, padding, List.length_cons]
    omega

theorem padding_eq (bs : List UInt8) :
    padding bs = if bs.length % 3 = 0 then 0 else 3 - bs.length % 3 := by
  induction bs using padding.induct with
  | case1 => rfl
  | case2 a => rfl
  | case3 a b => rfl
  | case4 a b c rest ih =>
    simp only [padding, List.length_cons, ih]
    rw [Nat.add_assoc, Nat.add_assoc, Nat.add_mod_right]

/-- A group of six bits and the first of the next one. -/
theorem and_shift_or (hx : x % 256 = a) :
    (x &&& 252) >>> 2 = a / 4 ∧ (x &&& 3) <<< 4 = a % 4 * 16 ∧ (x &&& 240) >>> 4 = a / 16 ∧
      (x &&& 15) <<< 2 = a % 16 * 4 ∧ (x &&& 192) >>> 6 = a / 64 ∧ x &&& 63 = a % 64 := by
  have hand : ∀ n, x &&& (2 ^ n - 1) = x % 2 ^ n := fun n => Nat.and_two_pow_sub_one_eq_mod x n
  have hshift : ∀ n k, (x >>> k) &&& (2 ^ n - 1) = x / 2 ^ k % 2 ^ n := by
    intro n k
    rw [Nat.and_two_pow_sub_one_eq_mod, Nat.shiftRight_eq_div_pow]
  have h3 := hand 2
  have h15 := hand 4
  have h63 := hand 6
  have h252 := hshift 6 2
  have h240 := hshift 4 4
  have h192 := hshift 2 6
  refine ⟨?_, ?_, ?_, ?_, ?_, ?_⟩
  · rw [Nat.shiftRight_and_distrib]
    exact h252.trans (by omega)
  · rw [Nat.shiftLeft_eq]
    exact (congrArg (· * 2 ^ 4) h3).trans (by omega)
  · rw [Nat.shiftRight_and_distrib]
    exact h240.trans (by omega)
  · rw [Nat.shiftLeft_eq]
    exact (congrArg (· * 2 ^ 2) h15).trans (by omega)
  · rw [Nat.shiftRight_and_distrib]
    exact h192.trans (by omega)
  · exact h63.trans (by omega)

/-- Bits below a multiple of a power of two are added. -/
theorem or_mul_two_pow (h : y < 2 ^ k) : y ||| x * 2 ^ k = x * 2 ^ k + y := by
  rw [Nat.or_comm, ← Nat.shiftLeft_eq, Nat.shiftLeft_add_eq_or_of_lt h]

theorem toNat_ofNat_byte (h : n < 256) : (UInt8.ofNat n).toNat = n :=
  UInt8.toNat_ofNat_of_lt' h

/-- Two groups of six bits make a byte. -/
theorem codes_or (hu : u < 64) (hv : v < 64) :
    UInt8.ofNat u <<< 2 ||| UInt8.ofNat v >>> 4 = UInt8.ofNat (u * 4 + v / 16) ∧
      UInt8.ofNat u <<< 4 ||| UInt8.ofNat v >>> 2 = UInt8.ofNat (u % 16 * 16 + v / 4) ∧
      UInt8.ofNat u <<< 6 ||| UInt8.ofNat v = UInt8.ofNat (u % 4 * 64 + v) := by
  have hu' : (UInt8.ofNat u).toNat = u := toNat_ofNat_byte (by omega)
  have hv' : (UInt8.ofNat v).toNat = v := toNat_ofNat_byte (by omega)
  have hshift : ∀ k < 8, (UInt8.ofNat u <<< UInt8.ofNat k).toNat = u * 2 ^ k % 256 ∧
      (UInt8.ofNat v >>> UInt8.ofNat k).toNat = v / 2 ^ k := by
    intro k hk
    have hk' : (UInt8.ofNat k).toNat = k := toNat_ofNat_byte (by omega)
    rw [UInt8.toNat_shiftLeft, UInt8.toNat_shiftRight, hu', hv', hk', Nat.mod_eq_of_lt hk,
      Nat.shiftLeft_eq, Nat.shiftRight_eq_div_pow]
    exact ⟨rfl, rfl⟩
  have h2 := hshift 2 (by decide)
  have h4 := hshift 4 (by decide)
  have h6 := hshift 6 (by decide)
  have hmod4 : u * 2 ^ 4 % 256 = u % 16 * 2 ^ 4 := by omega
  have hmod6 : u * 2 ^ 6 % 256 = u % 4 * 2 ^ 6 := by omega
  refine ⟨?_, ?_, ?_⟩
  · have hsum : (UInt8.ofNat (u * 4 + v / 16)).toNat = u * 4 + v / 16 := toNat_ofNat_byte (by omega)
    rw [← UInt8.toNat_inj, UInt8.toNat_or, hsum]
    refine (congrArg₂ (· ||| ·) h2.1 h4.2).trans ?_
    rw [Nat.mod_eq_of_lt (by omega), Nat.or_comm]
    exact or_mul_two_pow (k := 2) (by omega)
  · have hsum : (UInt8.ofNat (u % 16 * 16 + v / 4)).toNat = u % 16 * 16 + v / 4 :=
      toNat_ofNat_byte (by omega)
    rw [← UInt8.toNat_inj, UInt8.toNat_or, hsum]
    refine (congrArg₂ (· ||| ·) h4.1 h2.2).trans ?_
    rw [hmod4, Nat.or_comm]
    exact or_mul_two_pow (k := 4) (by omega)
  · have hsum : (UInt8.ofNat (u % 4 * 64 + v)).toNat = u % 4 * 64 + v := toNat_ofNat_byte (by omega)
    rw [← UInt8.toNat_inj, UInt8.toNat_or, hsum]
    refine (congrArg₂ (· ||| ·) h6.1 hv').trans ?_
    rw [hmod6, Nat.or_comm]
    exact or_mul_two_pow (k := 6) hv

end BigBox
