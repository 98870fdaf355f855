import Mathlib.Algebra.Order.Ring.Int
import Mathlib.Logic.Equiv.Basic
import Mathlib.Order.Interval.Finset.Nat

namespace BigBox.BinaryHeap
set_option autoImplicit true

section Order
variable {α : Type*} [LinearOrder α] {f : Nat → α} {n i c : Nat}

/-- A heap in the positions from 1 to below `n`, where `j / 2` is the father of `j`. -/
def Ordered (n : Nat) (f : Nat → α) : Prop := ∀ j, 2 ≤ j → j < n → f (j / 2) ≤ f j

/-- The root is a smallest element. -/
theorem Ordered.root_le (h : Ordered n f) (hi : 1 ≤ i) (hin : i < n) : f 1 ≤ f i := by
  induction i using Nat.strong_induction_on with
  | _ i ih =>
    rcases Nat.eq_or_lt_of_le hi with rfl | hi
    · exact le_refl _
    · have hfather := ih (i / 2) (by omega) (by omega) (by omega)
      exact hfather.trans (h i hi hin)

/-- A heap but for one element, which may be smaller than its father. -/
structure RisesAt (n : Nat) (f : Nat → α) (i : Nat) : Prop where
  off : ∀ j, 2 ≤ j → j < n → j ≠ i → f (j / 2) ≤ f j
  grand : 2 ≤ i → ∀ j, j < n → j / 2 = i → f (i / 2) ≤ f j

/-- A heap but for one element, which may be larger than its children. -/
structure SinksAt (n : Nat) (f : Nat → α) (i : Nat) : Prop where
  off : ∀ j, 2 ≤ j → j < n → j / 2 ≠ i → f (j / 2) ≤ f j
  grand : 2 ≤ i → ∀ j, j < n → j / 2 = i → f (i / 2) ≤ f j

theorem RisesAt.ordered (h : RisesAt n f i) (hup : 2 ≤ i → f (i / 2) ≤ f i) : Ordered n f := by
  intro j hj hjn
  rcases eq_or_ne j i with rfl | hji
  · exact hup hj
  · exact h.off j hj hjn hji

theorem SinksAt.ordered (h : SinksAt n f i) (hdown : ∀ j, 2 ≤ j → j < n → j / 2 = i → f i ≤ f j) :
    Ordered n f := by
  intro j hj hjn
  by_cases hji : j / 2 = i
  · rw [hji]
    exact hdown j hj hjn hji
  · exact h.off j hj hjn hji

theorem swap_apply {β : Type*} (f : Nat → β) (i j k : Nat) :
    (f ∘ Equiv.swap i j) k = if k = i then f j else if k = j then f i else f k := by
  rw [Function.comp_apply, Equiv.swap_apply_def]
  split
  · rfl
  · split <;> rfl

/-- The element rises to the place of its father. -/
theorem RisesAt.swap (h : RisesAt n f i) (hi : 2 ≤ i) (hle : f i ≤ f (i / 2)) :
    RisesAt n (f ∘ Equiv.swap i (i / 2)) (i / 2) := by
  have hne : i / 2 ≠ i := by omega
  refine ⟨fun j hj hjn hji => ?_, fun hfather j hjn hji => ?_⟩
  · rw [swap_apply, swap_apply, if_neg hji]
    by_cases hj' : j = i
    · rw [if_pos hj', hj', if_neg hne, if_pos rfl]
      exact hle
    · rw [if_neg hj']
      by_cases hchild : j / 2 = i
      · rw [if_pos hchild]
        exact h.grand hi j hjn hchild
      · rw [if_neg hchild]
        have hoff := h.off j hj hjn hj'
        by_cases hbrother : j / 2 = i / 2
        · rw [if_pos hbrother]
          rw [hbrother] at hoff
          exact hle.trans hoff
        · rw [if_neg hbrother]
          exact hoff
  · have hgrand := h.off (i / 2) hfather (by omega) hne
    have h₁ : i / 2 / 2 ≠ i := by omega
    have h₂ : i / 2 / 2 ≠ i / 2 := by omega
    have h₃ : j ≠ i / 2 := by omega
    rw [swap_apply, swap_apply, if_neg h₁, if_neg h₂, if_neg h₃]
    by_cases hj' : j = i
    · rw [if_pos hj']
      exact hgrand
    · rw [if_neg hj']
      have hoff := h.off j (by omega) hjn hj'
      rw [hji] at hoff
      exact hgrand.trans hoff

/-- The element sinks to the place of its smallest child. -/
theorem SinksAt.swap (h : SinksAt n f i) (hi : 1 ≤ i) (hc : c / 2 = i) (hcn : c < n)
    (hmin : ∀ j, 2 ≤ j → j < n → j / 2 = i → f c ≤ f j) (hle : f c ≤ f i) :
    SinksAt n (f ∘ Equiv.swap i c) c := by
  have hne : c ≠ i := by omega
  refine ⟨fun j hj hjn hjc => ?_, fun _ j hjn hjc => ?_⟩
  · rw [swap_apply, swap_apply, if_neg hjc]
    by_cases hchild : j / 2 = i
    · have hji : j ≠ i := by omega
      rw [if_pos hchild, if_neg hji]
      by_cases hj' : j = c
      · rw [if_pos hj']
        exact hle
      · rw [if_neg hj']
        exact hmin j hj hjn hchild
    · have hj' : j ≠ c := by
        rintro rfl
        exact hchild hc
      rw [if_neg hchild, if_neg hj']
      by_cases hji : j = i
      · rw [if_pos hji, hji]
        exact h.grand (hji ▸ hj) c hcn hc
      · rw [if_neg hji]
        exact h.off j hj hjn hchild
  · have hji : j ≠ i := by omega
    have hj' : j ≠ c := by omega
    have hoff := h.off j (by omega) hjn (by omega)
    rw [swap_apply, swap_apply, if_pos hc, if_neg hji, if_neg hj']
    rwa [hjc] at hoff

theorem Ordered.grand {g : Nat → α} (h : Ordered n f) (hsame : ∀ j, j ≠ i → g j = f j)
    (hin : i < n) (hi : 2 ≤ i) (j : Nat) (hjn : j < n) (hji : j / 2 = i) : g (i / 2) ≤ g j := by
  have hchild := h j (by omega) hjn
  rw [hji] at hchild
  rw [hsame _ (by omega), hsame j (by omega)]
  exact (h i hi hin).trans hchild

/-- A smaller element takes a place of a heap. -/
theorem Ordered.risesAt {g : Nat → α} (h : Ordered n f) (hsame : ∀ j, j ≠ i → g j = f j)
    (hin : i < n) (hi : 2 ≤ i) (hle : g i ≤ g (i / 2)) : RisesAt n g i := by
  refine ⟨fun j hj hjn hji => ?_, fun hi => h.grand hsame hin hi⟩
  by_cases hchild : j / 2 = i
  · rw [hchild]
    exact hle.trans (h.grand hsame hin hi j hjn hchild)
  · rw [hsame _ hchild, hsame j hji]
    exact h j hj hjn

/-- An element that is not smaller than the father takes a place of a heap. -/
theorem Ordered.sinksAt {g : Nat → α} (h : Ordered n f) (hsame : ∀ j, j ≠ i → g j = f j)
    (hin : i < n) (hle : 2 ≤ i → g (i / 2) ≤ g i) : SinksAt n g i := by
  refine ⟨fun j hj hjn hchild => ?_, fun hi => h.grand hsame hin hi⟩
  by_cases hji : j = i
  · rw [hji]
    exact hle (hji ▸ hj)
  · rw [hsame _ hchild, hsame j hji]
    exact h j hj hjn

theorem Ordered.mono (h : Ordered n f) (hmn : m ≤ n) : Ordered m f :=
  fun j hj hjm => h j hj (Nat.lt_of_lt_of_le hjm hmn)

/-- An element behind the last one of a heap. -/
theorem Ordered.risesAt_last {g : Nat → α} (h : Ordered n f)
    (hsame : ∀ j, 1 ≤ j → j < n → g j = f j) : RisesAt (n + 1) g n := by
  refine ⟨fun j hj hjn hji => ?_, fun _ j hjn hji => by omega⟩
  rw [hsame _ (by omega) (by omega), hsame j (by omega) (by omega)]
  exact h j hj (by omega)

end Order

section Elements
variable {β : Type*} {f : Nat → β}

/-- The elements of a heap. -/
def elements (n : Nat) (f : Nat → β) : Multiset β := (Finset.Ico 1 n).val.map f

theorem elements_succ (hn : 1 ≤ n) (f : Nat → β) : elements (n + 1) f = f n ::ₘ elements n f := by
  rw [elements, Nat.Ico_succ_right_eq_insert_Ico hn, Finset.insert_val_of_notMem (by simp),
    Multiset.map_cons]
  rfl

theorem elements_congr {g : Nat → β} (h : ∀ i, 1 ≤ i → i < n → f i = g i) :
    elements n f = elements n g := by
  apply Multiset.map_congr rfl
  intro i hi
  rw [Finset.mem_val] at hi
  have hmem := Finset.mem_Ico.1 hi
  exact h i hmem.1 hmem.2

theorem elements_swap (hi : 1 ≤ i) (hin : i < n) (hj : 1 ≤ j) (hjn : j < n) (f : Nat → β) :
    elements n (f ∘ Equiv.swap i j) = elements n f := by
  have himage : (Finset.Ico 1 n).map (Equiv.swap i j).toEmbedding = Finset.Ico 1 n := by
    apply Finset.map_perm
    intro k hk
    by_contra hout
    rw [Finset.mem_coe, Finset.mem_Ico] at hout
    apply hk
    apply Equiv.swap_apply_of_ne_of_ne
    · rintro rfl
      exact hout ⟨hi, hin⟩
    · rintro rfl
      exact hout ⟨hj, hjn⟩
  rw [elements, ← Multiset.map_map]
  have hval := congrArg Finset.val himage
  rw [Finset.map_val] at hval
  exact congrArg (Multiset.map f) hval

theorem mem_elements : b ∈ elements n f ↔ ∃ i, 1 ≤ i ∧ i < n ∧ f i = b := by
  rw [elements, Multiset.mem_map]
  refine exists_congr fun i => ?_
  rw [Finset.mem_val, Finset.mem_Ico, and_assoc]

theorem card_elements (n : Nat) (f : Nat → β) : (elements n f).card = n - 1 := by
  rw [elements, Multiset.card_map, Finset.card_val, Nat.card_Ico]

end Elements

end BigBox.BinaryHeap
