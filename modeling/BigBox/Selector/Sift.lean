import BigBox.Selector.Links
import Mathlib.Data.Prod.Lex

namespace BigBox.Selector
open RedBlack (Side)
open BinaryHeap
set_option autoImplicit true

section Walk
variable {s : Heap} {n : Nat} {f : Nat → Ptr}

theorem Linked.isChild_iff (h : Linked s n f) (d : Side) (hi : 1 ≤ i) (hin : i < n) :
    s.isChild d (f i) = true ↔ 2 ≤ i ∧ d = side i := by
  rw [Heap.isChild, h.up i hi hin]
  by_cases hroot : i = 1
  · simp only [if_pos hroot, Bool.false_eq_true, false_iff]
    omega
  · simp only [if_neg hroot, beq_iff_eq]
    rw [h.child_eq_iff d (by omega) (by omega) hi hin, place_iff]
    constructor
    · exact fun heq => ⟨by omega, heq.2⟩
    · exact fun heq => ⟨rfl, heq.2⟩

theorem climb_stop (s : Heap) {d : Side} {curr : Ptr} (h : ¬s.isChild d curr = true)
    (fuel upcount : Nat) : s.climb d (fuel + 1) upcount curr = some (upcount, curr) := by
  rw [Heap.climb, if_neg h]

theorem Linked.climb_up (h : Linked s n f) {d : Side} (hi : 2 ≤ i) (hin : i < n)
    (hd : d = side i) (fuel upcount : Nat) :
    s.climb d (fuel + 1) upcount (f i) = s.climb d fuel (upcount + 1) (f (i / 2)) := by
  have hchild := (h.isChild_iff d (by omega) hin).2 ⟨hi, hd⟩
  rw [Heap.climb, if_pos hchild, h.up i (by omega) hin, if_neg (by omega), Option.bind_some]

/-- Up from a right node. -/
theorem Linked.climb_right (h : Linked s n f) (fuel upcount : Nat) (hi : 1 ≤ i) (hin : i < n)
    (hfuel : i ≤ fuel) : ∃ k j, s.climb .right fuel upcount (f i) = some (upcount + k, f j) ∧
      i + 1 = 2 ^ k * (j + 1) ∧ 1 ≤ j ∧ j < n ∧ (j = 1 ∨ j % 2 = 0) := by
  induction i using Nat.strong_induction_on generalizing fuel upcount with
  | _ i ih =>
    obtain ⟨fuel, rfl⟩ := Nat.exists_eq_add_of_le' (Nat.le_trans hi hfuel)
    by_cases hstop : i = 1 ∨ i % 2 = 0
    · have hchild : ¬s.isChild .right (f i) = true := by
        rw [h.isChild_iff .right hi hin, side]
        rintro ⟨hge, hd⟩
        rcases hstop with hroot | heven
        · omega
        · rw [if_pos heven] at hd
          cases hd
      exact ⟨0, i, climb_stop s hchild fuel upcount, by omega, hi, hin, hstop⟩
    · have hd : Side.right = side i := by rw [side, if_neg (by omega)]
      obtain ⟨k, j, hclimb, hpow, hj⟩ := ih (i / 2) (by omega) fuel (upcount + 1) (by omega)
        (by omega) (by omega)
      refine ⟨k + 1, j, ?_, ?_, hj⟩
      · rw [h.climb_up (by omega) hin hd, hclimb, Nat.add_assoc, Nat.add_comm 1 k]
      · rw [Nat.pow_succ', Nat.mul_assoc, ← hpow]
        omega

/-- Up from a left node. -/
theorem Linked.climb_left (h : Linked s n f) (fuel upcount : Nat) (hi : 1 ≤ i) (hin : i < n)
    (hfuel : i ≤ fuel) : ∃ k j, s.climb .left fuel upcount (f i) = some (upcount + k, f j) ∧
      i = 2 ^ k * j ∧ 1 ≤ j ∧ j < n ∧ j % 2 = 1 := by
  induction i using Nat.strong_induction_on generalizing fuel upcount with
  | _ i ih =>
    obtain ⟨fuel, rfl⟩ := Nat.exists_eq_add_of_le' (Nat.le_trans hi hfuel)
    by_cases hodd : i % 2 = 1
    · have hchild : ¬s.isChild .left (f i) = true := by
        rw [h.isChild_iff .left hi hin, side, if_neg (by omega)]
        intro hd
        cases hd.2
      exact ⟨0, i, climb_stop s hchild fuel upcount, by omega, hi, hin, hodd⟩
    · have hd : Side.left = side i := by rw [side, if_pos (by omega)]
      obtain ⟨k, j, hclimb, hpow, hj⟩ := ih (i / 2) (by omega) fuel (upcount + 1) (by omega)
        (by omega) (by omega)
      refine ⟨k + 1, j, ?_, ?_, hj⟩
      · rw [h.climb_up (by omega) hin hd, hclimb, Nat.add_assoc, Nat.add_comm 1 k]
      · rw [Nat.pow_succ', Nat.mul_assoc, ← hpow]
        omega

theorem Linked.descend_left (h : Linked s n f) (hj : 1 ≤ j) (hjn : 2 ^ k * j < n) :
    s.descend .left k (some (f j)) = some (some (f (2 ^ k * j))) := by
  induction k generalizing j with
  | zero => rw [Nat.pow_zero, Nat.one_mul]; rfl
  | succ k ih =>
    have hpow : 2 ^ (k + 1) * j = 2 ^ k * (2 * j) := by rw [Nat.pow_succ, Nat.mul_assoc]
    have hle : 2 * j ≤ 2 ^ k * (2 * j) := Nat.le_mul_of_pos_left _ (Nat.two_pow_pos k)
    rw [hpow] at hjn ⊢
    have hlt := Nat.lt_of_le_of_lt hle hjn
    have hchild : s.child .left (f j) = some (f (2 * j)) :=
      (h.child_eq_iff .left hj (by omega) (by omega) hlt).2 rfl
    rw [Heap.descend, Option.bind_some, hchild, ih (by omega) hjn]

theorem Linked.descend_right (h : Linked s n f) (hj : 1 ≤ j) (hjn : 2 ^ k * (j + 1) ≤ n) :
    s.descend .right k (some (f j)) = some (some (f (2 ^ k * (j + 1) - 1))) := by
  induction k generalizing j with
  | zero =>
    rw [Nat.pow_zero, Nat.one_mul]
    rfl
  | succ k ih =>
    have hpow : 2 ^ (k + 1) * (j + 1) = 2 ^ k * (2 * j + 1 + 1) := by
      rw [Nat.pow_succ, Nat.mul_assoc]
      rfl
    have hle : 2 * j + 1 + 1 ≤ 2 ^ k * (2 * j + 1 + 1) :=
      Nat.le_mul_of_pos_left _ (Nat.two_pow_pos k)
    rw [hpow] at hjn ⊢
    have hlt := Nat.le_trans hle hjn
    have hchild : s.child .right (f j) = some (f (2 * j + 1)) :=
      (h.child_eq_iff .right hj (by omega) (by omega) hlt).2 rfl
    rw [Heap.descend, Option.bind_some, hchild, ih (by omega) hjn]

theorem pow_pred (h : n = 2 ^ k * m) (hk : k ≠ 0) : ∃ l, k = l + 1 ∧ n / 2 = 2 ^ l * m := by
  obtain ⟨l, rfl⟩ := Nat.exists_eq_succ_of_ne_zero hk
  refine ⟨l, rfl, ?_⟩
  rw [h, Nat.pow_succ', Nat.mul_assoc, Nat.mul_div_cancel_left _ (by decide : 0 < 2)]

theorem Linked.up_half (h : Linked s n f) (hi : 2 ≤ i) (hin : i < n) :
    s.up (f i) = some (f (i / 2)) := by
  rw [h.up i (by omega) hin, if_neg (by omega)]

/-- The next position is behind the last one. -/
theorem Linked.findNextPos (h : Linked s n f) (hn : 2 ≤ n) (hfuel : n ≤ fuel + 1) :
    s.findNextPos fuel (f (n - 1)) = some (f (n / 2), side n) := by
  rw [Heap.findNextPos]
  by_cases hleft : s.isChild .left (f (n - 1)) = true
  · obtain ⟨hge, hside⟩ := (h.isChild_iff .left (by omega) (by omega)).1 hleft
    have heven : (n - 1) % 2 = 0 := by
      by_contra hodd
      rw [side, if_neg hodd] at hside
      cases hside
    have hhalf : (n - 1) / 2 = n / 2 := by omega
    rw [if_pos hleft, h.up_half hge (by omega), hhalf, side, if_neg (by omega)]
    rfl
  · obtain ⟨k, j, hclimb, hpow, hj, hjn, hstop⟩ :=
      h.climb_right fuel 0 (by omega : 1 ≤ n - 1) (by omega) (by omega)
    rw [Nat.sub_add_cancel (by omega)] at hpow
    have hk : j ≠ 1 → k ≠ 0 := by
      rintro hj1 rfl
      rw [Nat.pow_zero, Nat.one_mul] at hpow
      have heven : (n - 1) % 2 = 0 := by omega
      exact hleft ((h.isChild_iff .left (by omega) (by omega)).2
        ⟨by omega, by rw [side, if_pos heven]⟩)
    rw [if_neg hleft, hclimb, Option.bind_some, Nat.zero_add]
    dsimp only
    by_cases hroot : j = 1
    · subst hroot
      have hhalf : n / 2 = 2 ^ k * 1 := by omega
      have hdesc := h.descend_left hj (by omega : 2 ^ k * 1 < n)
      rw [h.up 1 (by omega) hjn, if_pos rfl]
      dsimp only
      rw [hdesc, hhalf, side, if_pos (by omega)]
      rfl
    · obtain ⟨l, rfl, hhalf⟩ := pow_pred hpow (hk hroot)
      have hle : j + 1 ≤ 2 ^ l * (j + 1) := Nat.le_mul_of_pos_left _ (Nat.two_pow_pos l)
      have hchild : s.child .right (f (j / 2)) = some (f (j + 1)) := by
        rw [h.child_eq_iff .right (by omega) (by omega) (by omega) (by omega), place]
        omega
      have hdesc := h.descend_left (k := l) (by omega : 1 ≤ j + 1) (by omega)
      have heven : n % 2 = 0 := by
        rw [hpow, Nat.pow_succ', Nat.mul_assoc, Nat.mul_mod_right]
      rw [h.up_half (by omega) hjn]
      dsimp only
      rw [Heap.decrement, if_neg (Nat.succ_ne_zero l), Option.bind_some, Nat.add_sub_cancel, hchild,
        hdesc, hhalf, side, if_pos heven]
      rfl

theorem Linked.findPrevElem (h : Linked s n f) (hn : 3 ≤ n) (hfuel : n ≤ fuel + 1) :
    s.findPrevElem fuel (f (n - 1)) = some (some (f (n - 2))) := by
  rw [Heap.findPrevElem]
  by_cases hright : s.isChild .right (f (n - 1)) = true
  · obtain ⟨hge, hside⟩ := (h.isChild_iff .right (by omega) (by omega)).1 hright
    have hodd : (n - 1) % 2 ≠ 0 := by
      intro heven
      rw [side, if_pos heven] at hside
      cases hside
    rw [if_pos hright, h.up_half hge (by omega), Option.map_some]
    apply congrArg some
    rw [h.child_eq_iff .left (by omega) (by omega) (by omega) (by omega), place]
    omega
  · obtain ⟨k, j, hclimb, hpow, hj, hjn, hodd⟩ :=
      h.climb_left fuel 0 (by omega : 1 ≤ n - 1) (by omega) (by omega)
    rw [if_neg hright, hclimb, Option.bind_some, Nat.zero_add]
    dsimp only
    by_cases hroot : j = 1
    · subst hroot
      have hk : k ≠ 0 := by
        rintro rfl
        omega
      obtain ⟨l, rfl, hhalf⟩ := pow_pred hpow hk
      have hdesc := h.descend_right (k := l) hj (by omega)
      rw [h.up 1 (by omega) hjn, if_pos rfl]
      dsimp only
      rw [Heap.decrement, if_neg (Nat.succ_ne_zero l), Option.bind_some, Nat.add_sub_cancel, hdesc]
      have hrow : 2 ^ l * (1 + 1) = n - 1 := by rw [hpow, Nat.pow_succ, Nat.mul_one]
      rw [hrow]
      rfl
    · have hchild : s.child .left (f (j / 2)) = some (f (j - 1)) := by
        rw [h.child_eq_iff .left (by omega) (by omega) (by omega) (by omega), place]
        omega
      have hsame : j - 1 + 1 = j := by omega
      have hdesc := h.descend_right (k := k) (by omega : 1 ≤ j - 1) (by rw [hsame]; omega)
      rw [h.up_half (by omega) hjn]
      dsimp only
      rw [hchild, hdesc, hsame, ← hpow]
      rfl

end Walk

/-- Timeouts in their order. -/
def Timeval.key (t : Timeval) : ℤ ×ₗ ℤ := toLex (t.tv_sec, t.tv_usec)

theorem cmpTimeval_neg_iff (a b : Timeval) : cmpTimeval a b < 0 ↔ a.key < b.key := by
  rw [Timeval.key, Timeval.key, Prod.Lex.toLex_lt_toLex, cmpTimeval]
  split
  · simp; omega
  · split
    · simp; omega
    · split
      · simp; omega
      · split
        · simp; omega
        · simp; omega

theorem cmpTimeval_pos_iff (a b : Timeval) : 0 < cmpTimeval a b ↔ b.key < a.key := by
  rw [Timeval.key, Timeval.key, Prod.Lex.toLex_lt_toLex, cmpTimeval]
  split
  · simp; omega
  · split
    · simp; omega
    · split
      · simp; omega
      · split
        · simp; omega
        · simp; omega

def Heap.keys (s : Heap) (f : Nat → Ptr) (i : Nat) : ℤ ×ₗ ℤ := (s.timeout (f i)).key

/-- A result that is a heap of the same timers. -/
def Settles (s : Heap) (n : Nat) (f : Nat → Ptr) (r : Option Heap) : Prop :=
  ∃ s' f', r = some s' ∧ Linked s' n f' ∧ Ordered n (s'.keys f') ∧ s'.timeout = s.timeout ∧
    elements n f' = elements n f

section Sift
variable {s s' : Heap} {n : Nat} {f : Nat → Ptr}

theorem Settles.done (h : Linked s n f) (hord : Ordered n (s.keys f)) : Settles s n f (some s) :=
  ⟨s, f, rfl, h, hord, rfl, rfl⟩

theorem Settles.of_swap (h : Settles s' n (f ∘ Equiv.swap a b) r) (ht : s'.timeout = s.timeout)
    (ha : 1 ≤ a) (han : a < n) (hb : 1 ≤ b) (hbn : b < n) : Settles s n f r := by
  obtain ⟨t, g, hr, hg, hord, ht', helem⟩ := h
  exact ⟨t, g, hr, hg, hord, ht'.trans ht, helem.trans (elements_swap ha han hb hbn f)⟩

theorem keys_swap (ht : s'.timeout = s.timeout) (a b : Nat) :
    s'.keys (f ∘ Equiv.swap a b) = s.keys f ∘ Equiv.swap a b := by
  funext i
  rw [Function.comp_apply, Heap.keys, Heap.keys, ht, Function.comp_apply]

theorem Linked.sendUp (h : Linked s n f) (hi : 1 ≤ i) (hin : i < n)
    (hr : RisesAt n (s.keys f) i) (fuel : Nat) (hfuel : i ≤ fuel) :
    Settles s n f (Heap.sendUp (f i) fuel s) := by
  induction i using Nat.strong_induction_on generalizing s f fuel with
  | _ i ih =>
    obtain ⟨fuel, rfl⟩ := Nat.exists_eq_add_of_le' (Nat.le_trans hi hfuel)
    rw [Heap.sendUp, h.up i hi hin]
    by_cases hroot : i = 1
    · rw [if_pos hroot]
      exact Settles.done h (hr.ordered fun hge => by omega)
    · rw [if_neg hroot]
      dsimp only
      by_cases hless : cmpTimeval (s.timeout (f i)) (s.timeout (f (i / 2))) < 0
      · have hlt : s.keys f i < s.keys f (i / 2) := (cmpTimeval_neg_iff _ _).1 hless
        have hs := (h.edge (by omega : 2 ≤ i) hin).swapUp
        have hrise := hr.swap (by omega) hlt.le
        rw [Equiv.swap_comm, ← keys_swap hs.timeout] at hrise
        have hrest := ih (i / 2) (by omega) (h.swapped (by omega) hin hs) (by omega) (by omega)
          hrise fuel (by omega)
        rw [swap_apply, if_pos rfl] at hrest
        rw [if_pos hless]
        exact hrest.of_swap hs.timeout (by omega) (by omega) hi hin
      · rw [if_neg hless]
        exact Settles.done h (hr.ordered fun _ =>
          not_lt.1 (mt (cmpTimeval_neg_iff _ _).2 hless))

/-- The element sinks to the place of a child that is the smallest, or stays. -/
theorem Linked.sinks {next : Heap → Option Heap} (h : Linked s n f) (hi : 1 ≤ i)
    (hr : SinksAt n (s.keys f) i)
    (hc : place d i < n)
    (hmin : ∀ j, 2 ≤ j → j < n → j / 2 = i → s.keys f (place d i) ≤ s.keys f j)
    (hrest : ∀ {s' : Heap} {f' : Nat → Ptr}, Linked s' n f' → f' (place d i) = f i →
      SinksAt n (s'.keys f') (place d i) → Settles s' n f' (next s')) :
    Settles s n f (if 0 < cmpTimeval (s.timeout (f i)) (s.timeout (f (place d i))) then
      next (s.swapDown (f i) (f (place d i)) d) else some s) := by
  have hge := place_ge d i
  have hhalf := place_half d i
  have hd : d = side (place d i) := ((place_iff d i _).1 rfl).2
  by_cases hless : 0 < cmpTimeval (s.timeout (f i)) (s.timeout (f (place d i)))
  · have hlt : s.keys f (place d i) < s.keys f i := (cmpTimeval_pos_iff _ _).1 hless
    have hs := (h.edge (by omega : 2 ≤ place d i) hc).swapDown
    have hsink := hr.swap hi hhalf hc hmin hlt.le
    have hlinked := h.swapped (by omega) hc hs
    rw [hhalf, ← hd] at hs hlinked
    rw [← keys_swap hs.timeout] at hsink
    rw [if_pos hless]
    apply (hrest hlinked _ hsink).of_swap hs.timeout hi (by omega) (by omega) hc
    rw [swap_apply, if_neg (by omega), if_pos rfl]
  · rw [if_neg hless]
    apply Settles.done h
    apply hr.ordered
    intro j hj hjn hji
    exact (not_lt.1 (mt (cmpTimeval_pos_iff _ _).2 hless)).trans (hmin j hj hjn hji)

theorem Linked.sendDown (h : Linked s n f) (hi : 1 ≤ i) (hin : i < n)
    (hr : SinksAt n (s.keys f) i) (fuel : Nat) (hfuel : n ≤ fuel + i) :
    Settles s n f (Heap.sendDown (f i) fuel s) := by
  induction hk : n - i using Nat.strong_induction_on generalizing s f fuel i with
  | _ k ih =>
    obtain ⟨fuel, rfl⟩ : ∃ fuel', fuel = fuel' + 1 := Nat.exists_eq_succ_of_ne_zero (by omega)
    have hrest : ∀ d, place d i < n → ∀ {s' : Heap} {f' : Nat → Ptr}, Linked s' n f' →
        f' (place d i) = f i → SinksAt n (s'.keys f') (place d i) →
        Settles s' n f' (Heap.sendDown (f i) fuel s') := by
      intro d hd s' f' hs' hf' hsink
      have hge := place_ge d i
      rw [← hf']
      exact ih (n - place d i) (by omega) hs' (by omega) hd hsink fuel (by omega) rfl
    rw [Heap.sendDown, h.child .left i hi hin]
    by_cases hl : place .left i < n
    · rw [if_pos hl]
      dsimp only
      rw [h.child .right i hi hin]
      have hleft : (∀ j, 2 ≤ j → j < n → j / 2 = i → s.keys f (place .left i) ≤ s.keys f j) →
          Settles s n f (if 0 < cmpTimeval (s.timeout (f i)) (s.timeout (f (place .left i))) then
            Heap.sendDown (f i) fuel (s.swapDown (f i) (f (place .left i)) .left) else some s) :=
        fun hmin => h.sinks hi hr hl hmin (hrest .left hl)
      by_cases hright : place .right i < n
      · rw [if_pos hright, Option.filter_some]
        by_cases hless : 0 < cmpTimeval (s.timeout (f (place .left i)))
            (s.timeout (f (place .right i)))
        · rw [if_pos (decide_eq_true hless)]
          apply h.sinks hi hr hright _ (hrest .right hright)
          intro j hj hjn hji
          have hlt : s.keys f (place .right i) < s.keys f (place .left i) :=
            (cmpTimeval_pos_iff _ _).1 hless
          have hplace : j = place .left i ∨ j = place .right i := by
            simp only [place]
            omega
          rcases hplace with rfl | rfl
          · exact hlt.le
          · exact le_refl _
        · rw [if_neg fun heq => hless (of_decide_eq_true heq)]
          apply hleft
          intro j hj hjn hji
          have hle : s.keys f (place .left i) ≤ s.keys f (place .right i) :=
            not_lt.1 (mt (cmpTimeval_pos_iff _ _).2 hless)
          have hplace : j = place .left i ∨ j = place .right i := by
            simp only [place]
            omega
          rcases hplace with rfl | rfl
          · exact le_refl _
          · exact hle
      · rw [if_neg hright, Option.filter_none]
        apply hleft
        intro j hj hjn hji
        rw [place] at hright
        have heq : j = place .left i := by
          rw [place]
          omega
        rw [heq]
    · rw [if_neg hl]
      apply Settles.done h
      apply hr.ordered
      intro j hj hjn hji
      rw [place] at hl
      omega

end Sift

end BigBox.Selector
