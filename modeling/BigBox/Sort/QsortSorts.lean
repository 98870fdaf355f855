import BigBox.Sort.Partition

namespace BigBox.Sort
open Rearrange
set_option autoImplicit true

section Swaps
variable {size : Nat} {a : List (List.Vector UInt8 size)} {i j k l r p q : Int} {n : Nat}
  {P : List.Vector UInt8 size → Prop}

/-- Elements from the start of a range, up to `p`, get to its end, all but one. -/
theorem swapLeft_eq (hl : 0 ≤ l) (hi : i ≤ a.length) (hp : p < i) (hkj : k + j = l + i - 1)
    (hk : l ≤ k) (hki : k ≤ i) (hn : p - k < n) (hpos : 0 < n)
    (hP : ∀ x, (l ≤ x ∧ x < i) ∧ (k ≤ x ∧ x ≤ p ∨ l + i - 1 - p ≤ x ∧ x ≤ p ∨ j < x) →
      P (item a x)) :
    ∃ j' a', swapLeft exch size p n k j (bytes a) = some (j', bytes a') ∧ l - 1 ≤ j' ∧ j' < i ∧
      Rearranged l (i - 1) a a' ∧ ∀ x, j' < x → x < i → P (item a' x) := by
  induction n generalizing k j a with
  | zero => omega
  | succ n ih =>
    rw [swapLeft]
    by_cases hkp : k < p
    · rw [if_pos hkp, exch_eq (by omega) (by omega) (by omega) (by omega)]
      have hkeep := swap_keeps (P := P) (i := k) (j := j)
        (S := fun x => (l ≤ x ∧ x < i) ∧ (k ≤ x ∧ x ≤ p ∨ l + i - 1 - p ≤ x ∧ x ≤ p ∨ j < x))
        (T := fun x => (l ≤ x ∧ x < i) ∧
          (k + 1 ≤ x ∧ x ≤ p ∨ l + i - 1 - p ≤ x ∧ x ≤ p ∨ j - 1 < x))
        (by omega) (by omega) (by omega) (by omega) hP (hP k (by omega))
        (fun x hx => by omega) (fun hx => by omega)
      obtain ⟨j', a', hrun, hlj, hji, hre, hend⟩ := ih (k := k + 1) (j := j - 1)
        (by rw [length_swap]; exact hi) (by omega) (by omega) (by omega) (by omega) (by omega) hkeep
      refine ⟨j', a', hrun, hlj, hji, ?_, hend⟩
      exact (rearranged_swap hl (by omega) (by omega) (by omega) (by omega) (by omega)).trans hre
    · rw [if_neg hkp]
      exact ⟨j, a, rfl, by omega, by omega, rearranged_refl _ _ a,
        fun x hx hx' => hP x (by omega)⟩

/-- Elements from the end of a range, from `q` on, get to its start, all but one. -/
theorem swapRight_eq (hl : 0 ≤ l) (hr : r ≤ a.length) (hq : l ≤ q + 1) (hkj : k + i = l + r - 1)
    (hk : k < r) (hkl : l - 1 ≤ k ∨ i = l) (hn : k - q < n) (hpos : 0 < n)
    (hP : ∀ x, (l ≤ x ∧ x < r) ∧ (q ≤ x ∧ x ≤ k ∨ q ≤ x ∧ x ≤ l + r - 1 - q ∨ x < i) →
      P (item a x)) :
    ∃ i' a', swapRight exch size q n k i (bytes a) = some (i', bytes a') ∧ l ≤ i' ∧
      (i' ≤ r ∨ i' = l) ∧ Rearranged l (r - 1) a a' ∧ ∀ x, l ≤ x → x < i' → P (item a' x) := by
  induction n generalizing k i a with
  | zero => omega
  | succ n ih =>
    rw [swapRight]
    by_cases hkq : k > q
    · rw [if_pos hkq, exch_eq (by omega) (by omega) (by omega) (by omega)]
      have hkeep := swap_keeps (P := P) (i := k) (j := i)
        (S := fun x => (l ≤ x ∧ x < r) ∧ (q ≤ x ∧ x ≤ k ∨ q ≤ x ∧ x ≤ l + r - 1 - q ∨ x < i))
        (T := fun x => (l ≤ x ∧ x < r) ∧
          (q ≤ x ∧ x ≤ k - 1 ∨ q ≤ x ∧ x ≤ l + r - 1 - q ∨ x < i + 1))
        (by omega) (by omega) (by omega) (by omega) hP (hP k (by omega))
        (fun x hx => by omega) (fun hx => by omega)
      rw [swap_comm] at hkeep
      obtain ⟨i', a', hrun, hli, hir, hre, hend⟩ := ih (k := k - 1) (i := i + 1)
        (by rw [length_swap]; exact hr) (by omega) (by omega) (by omega) (by omega) (by omega) hkeep
      refine ⟨i', a', hrun, hli, hir, ?_, hend⟩
      exact (rearranged_swap hl (by omega) (by omega) (by omega) (by omega) (by omega)).trans hre
    · rw [if_neg hkq]
      exact ⟨i, a, rfl, by omega, by omega, rearranged_refl _ _ a,
        fun x hx hx' => hP x (by omega)⟩

end Swaps

section Quicksort
variable {size : Nat} {compare : List.Vector UInt8 size → List.Vector UInt8 size → Int}
  {a a' : List (List.Vector UInt8 size)} {i j l r p q : Int} {n : Nat}
  {v : List.Vector UInt8 size}

/-- What the recursive calls find: up to `i` nothing is larger than `v`, behind `j` nothing is
smaller. -/
structure Divided (compare : List.Vector UInt8 size → List.Vector UInt8 size → Int)
    (v : List.Vector UInt8 size) (l r j i : Int) (a : List (List.Vector UInt8 size)) : Prop where
  left : l - 1 ≤ j
  between : j + 1 < i
  right : i ≤ r + 1
  notMore : ∀ k, l ≤ k → k < i → compare (item a k) v ≤ 0
  notLess : ∀ k, j < k → k ≤ r → compare v (item a k) ≤ 0

theorem Divided.rearranged_left (h : Divided compare v l r j i a) (hl : 0 ≤ l)
    (hre : Rearranged l j a a') : Divided compare v l r j i a' := by
  have hleft := h.left
  have hbetween := h.between
  refine ⟨h.left, h.between, h.right, fun k hk hk' => ?_, fun k hk hk' => ?_⟩
  · by_cases hkj : k ≤ j
    · exact hre.forall (P := fun x => compare x v ≤ 0) (fun k hk hk' => h.notMore k hk (by omega))
        k hk hkj
    · rw [hre.apart k (by omega) (by omega)]
      exact h.notMore k hk hk'
  · rw [hre.apart k (by omega) (by omega)]
    exact h.notLess k hk hk'

theorem Divided.rearranged_right (h : Divided compare v l r j i a) (hl : 0 ≤ l)
    (hre : Rearranged i r a a') : Divided compare v l r j i a' := by
  have hleft := h.left
  have hbetween := h.between
  refine ⟨h.left, h.between, h.right, fun k hk hk' => ?_, fun k hk hk' => ?_⟩
  · rw [hre.apart k (by omega) (by omega)]
    exact h.notMore k hk hk'
  · by_cases hki : i ≤ k
    · exact hre.forall (P := fun x => compare v x ≤ 0) (fun k hk hk' => h.notLess k (by omega) hk')
        k hki hk'
    · rw [hre.apart k (by omega) (by omega)]
      exact h.notLess k hk hk'

/-- The pivot gets between the sides, and the elements equal to it get next to it. -/
theorem Split.divide (hcmp : Preorders compare) (hl : 0 ≤ l) (hr : r < a.length)
    (h : Split compare v l r i p q a) (hn : r - l < n) (hpos : 0 < n) :
    ∃ j, ∃ a₁ : List (List.Vector UInt8 size), ∃ i' a₂,
      swapLeft exch size p n l (i - 1) (bytes (swap a i r)) = some (j, bytes a₁) ∧
      swapRight exch size q n (r - 1) (i + 1) (bytes a₁) = some (i', bytes a₂) ∧
      Rearranged l r a a₂ ∧ Divided compare v l r j i' a₂ := by
  have hpl := h.lower.start
  have hpi := h.lower.stop
  have hiq := h.hiq
  have hqr := h.hqr
  have hitem := fun k (hk : 0 ≤ k) =>
    item_swap (a := a) (i := i) (j := r) (by omega) (by omega) (by omega) hr hk
  have hbelow : ∀ k, l ≤ k → k < i → item (swap a i r) k = item a k := fun k hk hk' => by
    rw [hitem k (by omega), if_neg (by omega), if_neg (by omega)]
  have habove : ∀ k, i < k → k < r → item (swap a i r) k = item a k := fun k hk hk' => by
    rw [hitem k (by omega), if_neg (by omega), if_neg (by omega)]
  have hat : item (swap a i r) i = v := by
    rw [hitem i (by omega), ← h.pivot]
    split
    case isTrue hir => rw [hir]
    case isFalse => rw [if_pos rfl]
  have hlow : ∀ k, l ≤ k → k ≤ i - 1 → compare (item (swap a i r) k) v ≤ 0 := by
    intro k hk hk'
    rw [hbelow k hk (by omega)]
    by_cases hkp : k ≤ p
    · exact Int.le_of_eq (h.lower.equal k hk hkp)
    · exact Int.le_of_lt (h.lower.less k (by omega) hk')
  have hhigh : ∀ k, i ≤ k → k < r → compare v (item a k) ≤ 0 := by
    intro k hk hk'
    by_cases hkq : k < q
    · exact h.atLeast k hk hkq
    · exact Int.le_of_eq (h.equal k (by omega) hk')
  have hlen : r < (swap a i r).length := by rwa [length_swap]
  obtain ⟨j, a₁, hleft, hlj, hji, hre₁, heq₁⟩ := swapLeft_eq (a := swap a i r) (n := n)
    (P := fun x => compare x v = 0) (p := p) (i := i) (k := l) (j := i - 1) hl (by omega)
    (by omega) (by omega) (Int.le_refl l) (by omega) (by omega) hpos fun x hx => by
      rw [hbelow x hx.1.1 hx.1.2]
      exact h.lower.equal x hx.1.1 (by omega)
  have hsame₁ : ∀ k, i ≤ k → item a₁ k = item (swap a i r) k := fun k hk =>
    hre₁.apart k (by omega) (by omega)
  have hlen₁ : r < a₁.length := by rwa [hre₁.length_eq]
  obtain ⟨i', a₂, hright, hii, hir, hre₂, heq₂⟩ := swapRight_eq (a := a₁) (n := n)
    (P := fun x => compare v x = 0) (l := i + 1) (q := q) (r := r) (k := r - 1) (i := i + 1)
    (by omega) (by omega) (by omega) (by omega) (by omega) (by omega) (by omega) hpos
    fun x hx => by
      rw [hsame₁ x (by omega), habove x (by omega) hx.1.2]
      exact h.equal x (by omega) hx.1.2
  have hsame₂ : ∀ k, 0 ≤ k → k ≤ i → item a₂ k = item a₁ k := fun k h0 hk =>
    hre₂.apart k h0 (by omega)
  have hlow₁ := hre₁.forall (P := fun x => compare x v ≤ 0) hlow
  have hpivot : item a₂ i = v := by
    rw [hsame₂ i (by omega) (Int.le_refl i), hsame₁ i (Int.le_refl i), hat]
  have hhigh₁ : ∀ k, i + 1 ≤ k → k ≤ r - 1 → compare v (item a₁ k) ≤ 0 := by
    intro k hk hk'
    rw [hsame₁ k (by omega), habove k (by omega) (by omega)]
    exact hhigh k (by omega) (by omega)
  have hhigh₂ := hre₂.forall (P := fun x => compare v x ≤ 0) hhigh₁
  have hlast : i < r → compare v (item a₂ r) ≤ 0 := by
    intro hlt
    rw [hre₂.apart r (by omega) (by omega), hsame₁ r (by omega), hitem r (by omega), if_pos rfl]
    exact hhigh i (Int.le_refl i) hlt
  have hvv := hcmp.refl v
  refine ⟨j, a₁, i', a₂, hleft, hright, ?_, hlj, by omega, by omega, fun k hk hk' => ?_,
    fun k hk hk' => ?_⟩
  · have hre₀ : Rearranged l r a (swap a i r) :=
      rearranged_swap hl (by omega) (by omega) (by omega) (Int.le_refl r) hr
    exact (hre₀.trans (hre₁.widen (Int.le_refl l) (by omega) hl)).trans
      (hre₂.widen (by omega) (by omega) hl)
  · by_cases hki : k < i
    · rw [hsame₂ k (by omega) (by omega)]
      exact hlow₁ k hk (by omega)
    · by_cases hki' : k = i
      · rw [hki', hpivot]
        exact hvv
      · exact Int.le_of_eq (hcmp.zero_comm (heq₂ k (by omega) hk'))
  · by_cases hki : k < i
    · rw [hsame₂ k (by omega) (by omega)]
      exact Int.le_of_eq (hcmp.zero_comm (heq₁ k hk hki))
    · by_cases hki' : k = i
      · rw [hki', hpivot]
        exact hvv
      · by_cases hkr : k = r
        · rw [hkr]
          exact hlast (by omega)
        · exact hhigh₂ k (by omega) (by omega)

/-- `quicksort` ends and sorts the elements from `l` to `r`. -/
theorem quicksort_eq (hcmp : Preorders compare) (hl : 0 ≤ l) (hr : r < a.length)
    (hlr : l ≤ r + 1) (hn : r - l + 2 ≤ n) :
    ∃ a', quicksort exch compare n l r (bytes a) = some (bytes a') ∧ Rearranged l r a a' ∧
      SortedOn (fun x y => compare x y ≤ 0) l r a' := by
  induction n generalizing l r a with
  | zero => omega
  | succ n ih =>
    rw [quicksort]
    by_cases hrl : r ≤ l
    · rw [if_pos hrl]
      exact ⟨a, rfl, rearranged_refl l r a, sortedOn_short hcmp.refl hrl a⟩
    · have hlower : Lower compare (item a r) l (l - 1) (l - 1) a :=
        ⟨Int.le_refl _, Int.le_refl _, fun k hk hk' => by omega, fun k hk hk' => by omega⟩
      have hupper : Upper compare (item a r) r r r a :=
        ⟨Int.le_refl _, Int.le_refl _, fun k hk hk' => by omega, fun k hk hk' => by omega⟩
      obtain ⟨i, p, q, a₁, hpart, hre₁, hsplit⟩ := partition_eq (m := n + 1) (n := n + 1) hcmp
        hl hr (by omega) hlower hupper rfl (by omega) (by omega) (by omega)
      have hr₁ : r < a₁.length := by rwa [hre₁.length_eq]
      have hpl := hsplit.lower.start
      have hpi := hsplit.lower.stop
      have hiq := hsplit.hiq
      have hqr := hsplit.hqr
      obtain ⟨j, a₂, i', a₃, hleft, hright, hre₃, hdivided⟩ :=
        hsplit.divide (n := n + 1) hcmp hl hr₁ (by omega) (Nat.succ_pos n)
      have hlj := hdivided.left
      have hji := hdivided.between
      have hir := hdivided.right
      have hr₃ : r < a₃.length := by rwa [hre₃.length_eq]
      obtain ⟨a₄, hrun₄, hre₄, hsorted₄⟩ := ih (l := l) (r := j) (a := a₃) hl (by omega) (by omega)
        (by omega)
      have hr₄ : r < a₄.length := by rwa [hre₄.length_eq]
      obtain ⟨a₅, hrun₅, hre₅, hsorted₅⟩ := ih (l := i') (r := r) (a := a₄) (by omega) hr₄
        (by omega) (by omega)
      have hdivided₅ := (hdivided.rearranged_left hl hre₄).rearranged_right hl hre₅
      refine ⟨a₅, ?_, ?_, ?_⟩
      · rw [if_neg hrl, hpart]
        simp only [Option.bind_eq_bind, Option.bind_some,
          exch_eq (a := a₁) (i := i) (j := r) (by omega) (by omega) (by omega) hr₁, hleft, hright,
          hrun₄, hrun₅]
      · have hre₁₃ := (hre₁.widen (Int.le_refl l) (by omega : r - 1 ≤ r) hl).trans hre₃
        exact (hre₁₃.trans (hre₄.widen (Int.le_refl l) (by omega) hl)).trans
          (hre₅.widen (by omega) (Int.le_refl r) hl)
      · apply sortedOn_join hcmp.trans (item a r) _ hdivided₅.notMore hdivided₅.notLess hsorted₅
        exact hsorted₄.congr fun k hk hk' => hre₅.apart k (by omega) (by omega)

end Quicksort

end BigBox.Sort
