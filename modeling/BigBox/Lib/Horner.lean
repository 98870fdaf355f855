import Mathlib.Algebra.Polynomial.Div
import Mathlib.Data.ZMod.Basic

namespace BigBox.Horner
open Polynomial
set_option autoImplicit true

variable {R : Type} [CommRing R] {g p : R[X]}

/-- The polynomial with these coefficients, highest power first. -/
noncomputable def horner (cs : List R) : R[X] := cs.foldl (fun p c => p * X + C c) 0

theorem horner_concat (cs : List R) (c : R) : horner (cs ++ [c]) = horner cs * X + C c := by
  rw [horner, List.foldl_append]
  rfl

theorem horner_append (a b : List R) : horner (a ++ b) = horner a * X ^ b.length + horner b := by
  induction b using List.reverseRecOn with
  | nil => rw [List.append_nil, List.length_nil, pow_zero, mul_one, horner, horner, List.foldl_nil,
      add_zero]
  | append_singleton b c ih =>
    rw [← List.append_assoc, horner_concat, ih, horner_concat, List.length_append,
      List.length_singleton, pow_succ]
    ring

theorem horner_cons (c : R) (cs : List R) : horner (c :: cs) = C c * X ^ cs.length + horner cs := by
  have hone : horner [c] = C c := by
    rw [horner, List.foldl_cons, List.foldl_nil, zero_mul, zero_add]
  rw [← List.singleton_append, horner_append, hone]

theorem horner_replicate_zero (n : Nat) : horner (List.replicate n (0 : R)) = 0 := by
  induction n with
  | zero => rfl
  | succ n ih => rw [List.replicate_succ, horner_cons, ih, C_0, zero_mul, zero_add]

theorem sub_modByMonic (g p : R[X]) : p - p %ₘ g = g * (p /ₘ g) := by
  rw [modByMonic_eq_sub_mul_div, sub_sub_cancel]

/-- The remainder follows the coefficients one at a time. -/
theorem horner_concat_modByMonic (hg : g.Monic) (cs : List R) (c : R) :
    horner (cs ++ [c]) %ₘ g = ((horner cs %ₘ g) * X + C c) %ₘ g := by
  apply modByMonic_eq_of_dvd_sub hg
  rw [horner_concat, add_sub_add_right_eq_sub, ← sub_mul, sub_modByMonic, mul_assoc]
  exact dvd_mul_right g _

/-- What is left over a remainder is a multiple. -/
theorem sub_modByMonic_mul (hg : g.Monic) (p q : R[X]) : (p - p %ₘ g) * q %ₘ g = 0 := by
  rw [modByMonic_eq_zero_iff_dvd hg, sub_modByMonic, mul_assoc]
  exact dvd_mul_right g _

end BigBox.Horner
