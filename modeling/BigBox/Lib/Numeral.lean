import Mathlib.Algebra.Order.Ring.Int

namespace BigBox.Numeral
set_option autoImplicit true

/-- The number that digits spell behind a number that is read. -/
def number (base : Nat) (value : α → Nat) (n : Nat) (ds : List α) : Nat :=
  ds.foldl (fun n c => n * base + value c) n

variable {base : Nat} {value : α → Nat} {n m : Nat} {ds : List α}

@[simp] theorem number_nil : number base value n [] = n := rfl

theorem number_cons (c : α) (ds : List α) :
    number base value n (c :: ds) = number base value (n * base + value c) ds := rfl

theorem number_concat (ds : List α) (c : α) :
    number base value n (ds ++ [c]) = number base value n ds * base + value c := by
  rw [number, List.foldl_append]
  rfl

/-- No digit makes the number smaller. -/
theorem le_number (hbase : 1 ≤ base) : n ≤ number base value n ds := by
  induction ds generalizing n with
  | nil => exact Nat.le_refl n
  | cons c ds ih =>
    calc
      n ≤ n * base := Nat.le_mul_of_pos_right n hbase
      _ ≤ n * base + value c := Nat.le_add_right _ _
      _ ≤ _ := ih

/-- A number that wraps around stays the same up to the modulus. -/
theorem number_mod (h : n % m = k % m) :
    number base value n ds % m = number base value k ds % m := by
  induction ds generalizing n k with
  | nil => exact h
  | cons c ds ih =>
    apply ih
    rw [Nat.add_mod, Nat.mul_mod, h, ← Nat.mul_mod, ← Nat.add_mod]

/-- Zeros in front of the digits add nothing. -/
theorem number_takeWhile_dropWhile {p q : α → Bool}
    (hq : ∀ c, q c = true → p c = true ∧ value c = 0)
    (s : List α) : number base value 0 ((s.dropWhile q).takeWhile p) =
      number base value 0 (s.takeWhile p) := by
  induction s with
  | nil => rfl
  | cons c s ih =>
    rw [List.dropWhile_cons]
    split
    · next hc =>
      obtain ⟨hdigit, hzero⟩ := hq c hc
      rw [ih, List.takeWhile_cons, if_pos hdigit, number_cons, hzero, Nat.zero_mul]
    · rfl

end BigBox.Numeral
