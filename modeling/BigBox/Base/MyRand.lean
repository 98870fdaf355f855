import BigBox.Lib.CInt

namespace BigBox.MyRand
set_option autoImplicit true

def M : Nat := 2147483647
def A : Int := 48271
def Q : Int := 44488
def R : Int := 3399

/-- The number that is returned and the new seed. `M` is unsigned, so that it is added in
`unsigned int`. -/
def myRandR (seed : Nat) : Option (Int × Nat) := do
  let X := toInt seed
  let high ← checkedInt (A * X.tmod Q)
  let low ← checkedInt (R * X.tdiv Q)
  let X ← checkedInt (high - low)
  let X := if X < 0 then toInt (unsigned ((X + 4294967296).toNat + M)) else X
  return (X, (X % 4294967296).toNat)

/-- The seed after some calls. -/
def seedAfter (seed : Nat) : Nat → Option Nat
  | 0 => some seed
  | n + 1 => do
    let seed ← seedAfter seed n
    let (_, seed) ← myRandR seed
    return seed

section MyRand
variable {seed : Nat}

/-- No seed is taken to a multiple of the modulus. -/
theorem mul_mod_ne_zero (hpos : 1 ≤ seed) (hlt : seed < M) : 48271 * seed % M ≠ 0 := by
  intro hzero
  have hcoprime : Nat.Coprime M 48271 := by decide
  have hdvd : M ∣ seed := hcoprime.dvd_of_dvd_mul_left (Nat.dvd_of_mod_eq_zero hzero)
  exact absurd (Nat.le_of_dvd hpos hdvd) (Nat.not_le_of_lt hlt)

/-- With the seed `Q * q + r`, what is left of the product is `A * r - R * q`, up to one modulus. -/
theorem schrage (q r : Nat) (hr : r < 44488) (hlt : 44488 * q + r < 2147483647) :
    (48271 * (r : Int) - 3399 * q < 0 ∧
        48271 * (r : Int) - 3399 * q + 2147483647 =
          (48271 * (44488 * q + r) % 2147483647 : Nat)) ∨
      (0 ≤ 48271 * (r : Int) - 3399 * q ∧
        48271 * (r : Int) - 3399 * q = (48271 * (44488 * q + r) % 2147483647 : Nat)) := by
  omega

/-- The modulus that is added in `unsigned int` brings a negative number back. -/
theorem toInt_add_modulus {X : Int} {v : Nat} (hlow : -2147483648 ≤ X) (hneg : X < 0)
    (hv : X + 2147483647 = v) : toInt (unsigned ((X + 4294967296).toNat + 2147483647)) = v := by
  have hwrap : unsigned ((X + 4294967296).toNat + 2147483647) = v := by
    unfold unsigned
    omega
  rw [hwrap]
  exact toInt_of_lt (by omega)

theorem myRandR_of {high low X : Int} (hhigh : checkedInt (A * (toInt seed).tmod Q) = some high)
    (hlow : checkedInt (R * (toInt seed).tdiv Q) = some low)
    (hless : checkedInt (high - low) = some X)
    (hvalue : (if X < 0 then toInt (unsigned ((X + 4294967296).toNat + M)) else X) = (v : Nat))
    (hback : ((v : Int) % 4294967296).toNat = v) : myRandR seed = some ((v : Int), v) := by
  rw [myRandR, hhigh, Option.bind_eq_bind, Option.bind_some, hlow, Option.bind_some, hless,
    Option.bind_some]
  exact congrArg some (Prod.ext hvalue
    ((congrArg (fun X : Int => (X % 4294967296).toNat) hvalue).trans hback))

/-- Both products and their difference are small. -/
theorem myRandR_eq (hlt : seed < M) :
    myRandR seed = some (((48271 * seed % M : Nat) : Int), 48271 * seed % M) := by
  have hX : toInt seed = seed := toInt_of_lt (Nat.lt_of_lt_of_le hlt (by decide))
  obtain ⟨q, r, hr, rfl⟩ : ∃ q r, r < 44488 ∧ seed = 44488 * q + r :=
    ⟨seed / 44488, seed % 44488, Nat.mod_lt _ (by decide), (Nat.div_add_mod _ _).symm⟩
  have hmod : ((44488 * q + r : Nat) : Int).tmod Q = r := by
    rw [Int.tmod_eq_emod_of_nonneg (Int.natCast_nonneg _)]
    unfold Q
    omega
  have hdiv : ((44488 * q + r : Nat) : Int).tdiv Q = q := by
    rw [Int.tdiv_eq_ediv_of_nonneg (Int.natCast_nonneg _)]
    unfold Q
    omega
  have hseed : 44488 * q + r < 2147483647 := hlt
  have hhigh : checkedInt (A * r) = some (48271 * (r : Int)) :=
    checkedInt_of_lt (by unfold A; omega) (by unfold A; omega)
  have hlow : checkedInt (R * q) = some (3399 * (q : Int)) :=
    checkedInt_of_lt (by unfold R; omega) (by unfold R; omega)
  have hless : checkedInt (48271 * (r : Int) - 3399 * q) = some (48271 * (r : Int) - 3399 * q) :=
    checkedInt_of_lt (by omega) (by omega)
  have hge : -2147483648 ≤ 48271 * (r : Int) - 3399 * q := by omega
  have hbound : 48271 * (44488 * q + r) % M < 4294967296 :=
    Nat.lt_trans (Nat.mod_lt _ (by decide)) (by decide)
  have hvalue : (if 48271 * (r : Int) - 3399 * q < 0 then
      toInt (unsigned ((48271 * (r : Int) - 3399 * q + 4294967296).toNat + M))
      else 48271 * (r : Int) - 3399 * q) = (48271 * (44488 * q + r) % M : Nat) := by
    obtain ⟨hneg, hv⟩ | ⟨hnonneg, hv⟩ := schrage q r hr hseed
    · rw [if_pos hneg]
      exact toInt_add_modulus hge hneg hv
    · rw [if_neg (Int.not_lt.2 hnonneg)]
      exact hv
  have hback : (((48271 * (44488 * q + r) % M : Nat) : Int) % 4294967296).toNat =
      48271 * (44488 * q + r) % M := by
    generalize 48271 * (44488 * q + r) % M = v at hbound
    omega
  rw [← hX] at hmod hdiv
  exact myRandR_of (hmod.symm ▸ hhigh) (hdiv.symm ▸ hlow) hless hvalue hback

theorem seedAfter_eq (hpos : 1 ≤ seed) (hlt : seed < M) (n : Nat) :
    ∃ s, seedAfter seed n = some s ∧ 1 ≤ s ∧ s < M ∧ s = 48271 ^ n * seed % M := by
  induction n with
  | zero => exact ⟨seed, rfl, hpos, hlt, by rw [Nat.pow_zero, Nat.one_mul, Nat.mod_eq_of_lt hlt]⟩
  | succ n ih =>
    obtain ⟨s, hs, hpos', hlt', hpower⟩ := ih
    refine ⟨48271 * s % M, ?_, Nat.pos_of_ne_zero (mul_mod_ne_zero hpos' hlt'),
      Nat.mod_lt _ (by decide), ?_⟩
    · rw [seedAfter, hs, Option.bind_eq_bind, Option.bind_some, myRandR_eq hlt']
      rfl
    · rw [hpower, Nat.mul_mod_mod, Nat.pow_succ', Nat.mul_assoc]

/-- A call multiplies the seed by 48271, and no run leaves the seeds from 1 to `M - 1`. -/
theorem myRandR_orbit (hpos : 1 ≤ seed) (hlt : seed ≤ M - 1) :
    myRandR seed = some (((48271 * seed % M : Nat) : Int), 48271 * seed % M) ∧
      (1 ≤ 48271 * seed % M ∧ 48271 * seed % M ≤ M - 1) ∧
      ∀ n, ∃ s, seedAfter seed n = some s ∧ 1 ≤ s ∧ s ≤ M - 1 := by
  have hlt : seed < M := Nat.lt_of_le_of_lt hlt (by decide)
  refine ⟨myRandR_eq hlt, ⟨Nat.pos_of_ne_zero (mul_mod_ne_zero hpos hlt),
    Nat.le_sub_one_of_lt (Nat.mod_lt _ (by decide))⟩, fun n => ?_⟩
  obtain ⟨s, hs, hpos', hlt', _⟩ := seedAfter_eq hpos hlt n
  exact ⟨s, hs, hpos', Nat.le_sub_one_of_lt hlt'⟩

theorem myRandR_orbit_one :
    myRandR 1 = some (((48271 * 1 % M : Nat) : Int), 48271 * 1 % M) ∧
      (1 ≤ 48271 * 1 % M ∧ 48271 * 1 % M ≤ M - 1) ∧
      ∀ n, ∃ s, seedAfter 1 n = some s ∧ 1 ≤ s ∧ s ≤ M - 1 :=
  myRandR_orbit (Nat.le_refl 1) (by decide)

end MyRand

end BigBox.MyRand
