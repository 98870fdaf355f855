import Mathlib.Algebra.Order.Ring.Int
import Mathlib.Data.List.Basic

namespace BigBox.Rearrange
set_option autoImplicit true

section Rearrange
variable {α : Type} [Inhabited α] {a a' a'' : List α} {i j k l r : Int}

/-- The element at an index that may be any integer. -/
def item (a : List α) (i : Int) : α := a.getD i.toNat default

def swap (a : List α) (i j : Int) : List α :=
  (a.set i.toNat (item a j)).set j.toNat (item a i)

theorem item_eq (a : List α) (h : i < a.length) (hi : 0 ≤ i) :
    ∃ hlt : i.toNat < a.length, item a i = a[i.toNat] := by
  have hlt : i.toNat < a.length := by omega
  refine ⟨hlt, ?_⟩
  rw [item, List.getD_eq_getElem?_getD, List.getElem?_eq_getElem hlt, Option.getD_some]

@[simp] theorem length_swap (a : List α) (i j : Int) : (swap a i j).length = a.length := by
  rw [swap, List.length_set, List.length_set]

theorem swap_perm (hi : 0 ≤ i) (hi' : i < a.length) (hj : 0 ≤ j) (hj' : j < a.length) :
    (swap a i j).Perm a := by
  obtain ⟨hilt, hieq⟩ := item_eq a hi' hi
  obtain ⟨hjlt, hjeq⟩ := item_eq a hj' hj
  rw [swap, hieq, hjeq]
  exact List.set_set_perm hilt hjlt

theorem item_swap (hi : 0 ≤ i) (hi' : i < a.length) (hj : 0 ≤ j) (hj' : j < a.length)
    (hk : 0 ≤ k) :
    item (swap a i j) k = if k = j then item a i else if k = i then item a j else item a k := by
  have hki : i.toNat = k.toNat ↔ k = i := by omega
  have hkj : j.toNat = k.toNat ↔ k = j := by omega
  have hilt : i.toNat < a.length := by omega
  have hjlt : j.toNat < a.length := by omega
  unfold swap
  generalize hx : item a i = x
  generalize hy : item a j = y
  simp only [item, List.getD_eq_getElem?_getD, List.getElem?_set, List.length_set, hki, hkj, hilt,
    hjlt, if_true]
  split
  case isTrue => rfl
  case isFalse =>
    split
    case isTrue => rfl
    case isFalse => rfl

theorem swap_comm (a : List α) (i j : Int) : swap a i j = swap a j i := by
  by_cases h : i.toNat = j.toNat
  · have hitem : item a i = item a j := by rw [item, item, h]
    rw [swap, swap, h, hitem]
  · exact List.set_comm _ _ h

/-- What holds of the places of `S` holds of those of `S'` behind a swap with a place where it
holds. -/
theorem swap_keeps {P : α → Prop} {S T : Int → Prop} (hi : 0 ≤ i) (hi' : i < a.length)
    (hj : 0 ≤ j) (hj' : j < a.length) (hS : ∀ k, S k → P (item a k)) (hP : P (item a i))
    (hsub : ∀ k, T k → 0 ≤ k ∧ (k = j ∨ k = i ∨ S k)) (hfrom : T i → i = j ∨ S j) :
    ∀ k, T k → P (item (swap a i j) k) := by
  intro k hk
  obtain ⟨h0, hcases⟩ := hsub k hk
  rw [item_swap hi hi' hj hj' h0]
  split
  case isTrue => exact hP
  case isFalse hkj =>
    split
    case isTrue hki => exact hS j ((hfrom (hki ▸ hk)).resolve_left (hki ▸ hkj))
    case isFalse hki => exact hS k ((hcases.resolve_left hkj).resolve_left hki)

/-- The elements from `l` to `r` are put in another order. -/
structure Rearranged (l r : Int) (a a' : List α) : Prop where
  perm : a'.Perm a
  apart : ∀ k, 0 ≤ k → k < l ∨ r < k → item a' k = item a k
  inside : ∀ k, l ≤ k → k ≤ r → ∃ k', l ≤ k' ∧ k' ≤ r ∧ item a' k = item a k'

theorem Rearranged.length_eq (h : Rearranged l r a a') : a'.length = a.length := h.perm.length_eq

theorem rearranged_refl (l r : Int) (a : List α) : Rearranged l r a a :=
  ⟨.refl a, fun _ _ _ => rfl, fun k hl hr => ⟨k, hl, hr, rfl⟩⟩

theorem Rearranged.trans (h : Rearranged l r a a') (h' : Rearranged l r a' a'') :
    Rearranged l r a a'' := by
  refine ⟨h'.perm.trans h.perm, fun k hk ho => ?_, fun k hl hr => ?_⟩
  · exact (h'.apart k hk ho).trans (h.apart k hk ho)
  · obtain ⟨k', hl', hr', he'⟩ := h'.inside k hl hr
    obtain ⟨k'', hl'', hr'', he''⟩ := h.inside k' hl' hr'
    exact ⟨k'', hl'', hr'', he'.trans he''⟩

theorem Rearranged.widen (h : Rearranged l r a a') (hl : l' ≤ l) (hr : r ≤ r') (h0 : 0 ≤ l') :
    Rearranged l' r' a a' := by
  refine ⟨h.perm, fun k hk ho => ?_, fun k hkl hkr => ?_⟩
  · apply h.apart k hk
    omega
  · by_cases hin : l ≤ k ∧ k ≤ r
    · obtain ⟨k', hl', hr', he⟩ := h.inside k hin.1 hin.2
      exact ⟨k', Int.le_trans hl hl', Int.le_trans hr' hr, he⟩
    · refine ⟨k, hkl, hkr, h.apart k (Int.le_trans h0 hkl) ?_⟩
      omega

theorem rearranged_swap (h0 : 0 ≤ l) (hi : l ≤ i) (hi' : i ≤ r) (hj : l ≤ j) (hj' : j ≤ r)
    (hr : r < a.length) : Rearranged l r a (swap a i j) := by
  have hitem : ∀ k, 0 ≤ k → item (swap a i j) k =
      if k = j then item a i else if k = i then item a j else item a k := fun k hk =>
    item_swap (Int.le_trans h0 hi) (Int.lt_of_le_of_lt hi' hr) (Int.le_trans h0 hj)
      (Int.lt_of_le_of_lt hj' hr) hk
  refine ⟨swap_perm (by omega) (by omega) (by omega) (by omega), fun k hk ho => ?_,
    fun k hl hkr => ?_⟩
  · rw [hitem k hk, if_neg (by omega), if_neg (by omega)]
  · rw [hitem k (Int.le_trans h0 hl)]
    split
    case isTrue => exact ⟨i, hi, hi', rfl⟩
    case isFalse =>
      split
      case isTrue => exact ⟨j, hj, hj', rfl⟩
      case isFalse => exact ⟨k, hl, hkr, rfl⟩

/-- What holds of all elements of a range does so in any order. -/
theorem Rearranged.forall {P : α → Prop} (h : Rearranged l r a a')
    (hP : ∀ k, l ≤ k → k ≤ r → P (item a k)) : ∀ k, l ≤ k → k ≤ r → P (item a' k) := by
  intro k hl hr
  obtain ⟨k', hl', hr', he⟩ := h.inside k hl hr
  rw [he]
  exact hP k' hl' hr'

/-- The elements from `l` to `r` are in order. -/
def SortedOn (le : α → α → Prop) (l r : Int) (a : List α) : Prop :=
  ∀ i j, l ≤ i → i ≤ j → j ≤ r → le (item a i) (item a j)

theorem sortedOn_short {le : α → α → Prop} (hrefl : ∀ x, le x x) (h : r ≤ l) (a : List α) :
    SortedOn le l r a := by
  intro i j hi hij hj
  have hsame : i = j := by omega
  rw [hsame]
  exact hrefl _

/-- An order on both sides of elements that are all like `v`. -/
theorem sortedOn_join {le : α → α → Prop} (htrans : ∀ x y z, le x y → le y z → le x z) (v : α)
    (hleft : SortedOn le l j a) (hle : ∀ k, l ≤ k → k < i → le (item a k) v)
    (hge : ∀ k, j < k → k ≤ r → le v (item a k)) (hright : SortedOn le i r a) :
    SortedOn le l r a := by
  intro x y hx hxy hy
  by_cases hyj : y ≤ j
  · exact hleft x y hx hxy hyj
  · by_cases hxi : i ≤ x
    · exact hright x y hxi hxy hy
    · exact htrans _ v _ (hle x hx (by omega)) (hge y (by omega) hy)

theorem SortedOn.congr {le : α → α → Prop} (h : SortedOn le l r a)
    (he : ∀ k, l ≤ k → k ≤ r → item a' k = item a k) : SortedOn le l r a' := by
  intro i j hi hij hj
  rw [he i hi (Int.le_trans hij hj), he j (Int.le_trans hi hij) hj]
  exact h i j hi hij hj

theorem sortedOn_of_pairwise {le : α → α → Prop} (hrefl : ∀ x, le x x) (h : a.Pairwise le) :
    SortedOn le 0 (a.length - 1) a := by
  intro i j hi hij hj
  by_cases he : i = j
  · rw [he]
    exact hrefl _
  · obtain ⟨hilt, hieq⟩ := item_eq a (i := i) (by omega) hi
    obtain ⟨hjlt, hjeq⟩ := item_eq a (i := j) (by omega) (by omega)
    rw [hieq, hjeq]
    exact List.pairwise_iff_getElem.1 h _ _ hilt hjlt (by omega)

theorem SortedOn.pairwise {le : α → α → Prop} (h : SortedOn le 0 (a.length - 1) a) :
    a.Pairwise le := by
  rw [List.pairwise_iff_getElem]
  intro i j hi hj hij
  have hle := h i j (by omega) (by omega) (by omega)
  obtain ⟨_, hieq⟩ := item_eq a (i := i) (by omega) (by omega)
  obtain ⟨_, hjeq⟩ := item_eq a (i := j) (by omega) (by omega)
  rw [hieq, hjeq] at hle
  exact hle

end Rearrange

end BigBox.Rearrange
