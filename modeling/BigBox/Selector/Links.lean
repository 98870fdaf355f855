import BigBox.Selector.Heap
import BigBox.Lib.BinaryHeap

namespace BigBox.Selector
open RedBlack (Side)
set_option autoImplicit true

section Fields
variable (s : Heap) (x y z : Ptr) (o : Option Ptr) (d d' : Side)

@[simp] theorem setChild_child :
    (s.setChild d x o).child d' z = if d' = d ∧ z = x then o else s.child d' z := by
  rw [Heap.setChild]
  dsimp only
  rw [Function.update_apply]
  split
  · rename_i hd
    subst hd
    rw [Function.update_apply]
    simp only [true_and]
  · rename_i hd
    simp only [hd, false_and, if_false]

@[simp] theorem setChild_up : (s.setChild d x o).up = s.up := rfl
@[simp] theorem setChild_top : (s.setChild d x o).top = s.top := rfl
@[simp] theorem setChild_last : (s.setChild d x o).last = s.last := rfl
@[simp] theorem setChild_timeout : (s.setChild d x o).timeout = s.timeout := rfl

@[simp] theorem setUp_up : (s.setUp x o).up z = if z = x then o else s.up z :=
  Function.update_apply ..
@[simp] theorem setUp_child : (s.setUp x o).child = s.child := rfl
@[simp] theorem setUp_top : (s.setUp x o).top = s.top := rfl
@[simp] theorem setUp_last : (s.setUp x o).last = s.last := rfl
@[simp] theorem setUp_timeout : (s.setUp x o).timeout = s.timeout := rfl

@[simp] theorem setUpOf_up :
    (s.setUpOf o y).up z = if o = some z then some y else s.up z := by
  cases o with
  | none => rfl
  | some x =>
    simp only [Heap.setUpOf, setUp_up, Option.some.injEq, eq_comm]

@[simp] theorem setUpOf_child : (s.setUpOf o y).child = s.child := by cases o <;> rfl
@[simp] theorem setUpOf_top : (s.setUpOf o y).top = s.top := by cases o <;> rfl
@[simp] theorem setUpOf_last : (s.setUpOf o y).last = s.last := by cases o <;> rfl
@[simp] theorem setUpOf_timeout : (s.setUpOf o y).timeout = s.timeout := by cases o <;> rfl

@[simp] theorem replaceChild_child : (s.replaceChild x y).child d z =
    if s.up x = some z ∧ (d = .left ↔ s.child .left z = some x) then some y else s.child d z := by
  rw [Heap.replaceChild]
  cases hup : s.up x with
  | none => simp only [reduceCtorEq, false_and, if_false]
  | some u =>
    simp only [Option.some.injEq]
    split
    · rename_i hleft
      rw [setChild_child]
      by_cases hz : u = z
      · subst hz
        simp only [hleft, and_true, true_and, iff_true]
      · simp only [hz, false_and, Ne.symm hz, and_false]
    · rename_i hleft
      rw [setChild_child]
      by_cases hz : u = z
      · subst hz
        cases d with
        | left =>
          simp only [hleft, reduceCtorEq, false_and, iff_false, not_true, and_false, if_false]
        | right => simp only [hleft, reduceCtorEq, and_self]
      · simp only [hz, false_and, Ne.symm hz, and_false]

@[simp] theorem replaceChild_top :
    (s.replaceChild x y).top = if s.up x = none then some y else s.top := by
  rw [Heap.replaceChild]
  cases s.up x with
  | none => rfl
  | some u =>
    simp only [reduceCtorEq, if_false]
    split <;> rfl

@[simp] theorem replaceChild_up : (s.replaceChild x y).up = s.up := by
  rw [Heap.replaceChild]
  split
  · split <;> rfl
  · rfl

@[simp] theorem replaceChild_last : (s.replaceChild x y).last = s.last := by
  rw [Heap.replaceChild]
  split
  · split <;> rfl
  · rfl

@[simp] theorem replaceChild_timeout : (s.replaceChild x y).timeout = s.timeout := by
  rw [Heap.replaceChild]
  split
  · split <;> rfl
  · rfl

@[simp] theorem moveLast_last :
    (s.moveLast x y).last = if s.last = some x then some y else s.last := by
  rw [Heap.moveLast]
  split <;> rfl

@[simp] theorem moveLast_child : (s.moveLast x y).child = s.child := by
  rw [Heap.moveLast]
  split <;> rfl

@[simp] theorem moveLast_up : (s.moveLast x y).up = s.up := by
  rw [Heap.moveLast]
  split <;> rfl

@[simp] theorem moveLast_top : (s.moveLast x y).top = s.top := by
  rw [Heap.moveLast]
  split <;> rfl

@[simp] theorem moveLast_timeout : (s.moveLast x y).timeout = s.timeout := by
  rw [Heap.moveLast]
  split <;> rfl

end Fields

/-- The place of a child of position `i`, on a side. -/
def place (d : Side) (i : Nat) : Nat :=
  match d with
  | .left => 2 * i
  | .right => 2 * i + 1

/-- The timer at every position from 1 to below `n`: the rows are full but for the last one, which
is filled from the left. -/
structure Linked (s : Heap) (n : Nat) (f : Nat → Ptr) : Prop where
  pos : 1 ≤ n
  inj : ∀ i j, 1 ≤ i → i < n → 1 ≤ j → j < n → f i = f j → i = j
  top : s.top = if n = 1 then none else some (f 1)
  last : s.last = if n = 1 then none else some (f (n - 1))
  up : ∀ i, 1 ≤ i → i < n → s.up (f i) = if i = 1 then none else some (f (i / 2))
  child : ∀ d i, 1 ≤ i → i < n →
    s.child d (f i) = if place d i < n then some (f (place d i)) else none

/-- The links of `s` after `c` and `p`, whose child it is, have changed places. -/
structure Swapped (s s' : Heap) (p c : Ptr) (d : Side) : Prop where
  timeout : s'.timeout = s.timeout
  child : ∀ d' z, s'.child d' z =
    if z = p then s.child d' c
    else if z = c then if d' = d then some p else s.child d' p
    else if s.up p = some z ∧ (d' = .left ↔ s.child .left z = some p) then some c
    else s.child d' z
  up : ∀ z, s'.up z =
    if z = p then some c
    else if z = c then s.up p
    else if s.child .left c = some z ∨ s.child .right c = some z then some p
    else if s.child d.other p = some z then some c
    else s.up z
  top : s'.top = if s.up p = none then some c else s.top
  last : s'.last = if s.last = some c then some p else s.last

/-- What makes two timers a parent and its child. -/
structure Edge (s : Heap) (p c : Ptr) (d : Side) : Prop where
  ne : p ≠ c
  up : s.up c = some p
  child : s.child d p = some c
  other : s.child d.other p ≠ some c
  up_ne : s.up p ≠ some c
  up_ne_self : s.up p ≠ some p
  child_ne : ∀ d', s.child d' c ≠ some p ∧ s.child d' c ≠ some c
  other_ne : s.child d.other p ≠ some p

section Swap
variable {s : Heap} {p c : Ptr} {d : Side}

theorem Edge.side (h : Edge s p c d) :
    (if s.child .left p = some c then Side.left else Side.right) = d := by
  cases d with
  | left => exact if_pos h.child
  | right => exact if_neg h.other

theorem Edge.swapUp (h : Edge s p c d) : Swapped s (s.swapUp c p) p c d := by
  have hother := h.other_ne
  rw [Heap.swapUp, h.side]
  constructor
  · simp
  · intro d' z
    simp only [setChild_child, h.ne, and_false, ↓reduceIte, and_self, setUpOf_up, hother,
      setChild_up, moveLast_child, setUpOf_child, setUp_child, replaceChild_child, setUp_up]
    by_cases hp : z = p
    · cases d' <;> simp [hp]
    · by_cases hc : z = c
      · subst hc
        have hup := h.up_ne
        cases d <;> cases d' <;> simp [hup, hp, Side.other]
      · simp [hp, hc]
  · intro z
    simp only [setChild_child, h.ne, and_false, ↓reduceIte, and_self, setUpOf_up, hother,
      setChild_up, moveLast_up, setUp_up, replaceChild_up]
    by_cases hp : z = p
    · subst hp
      simp [(h.child_ne .left).1, (h.child_ne .right).1]
    · by_cases hc : z = c
      · subst hc
        simp [hp, (h.child_ne .left).2, (h.child_ne .right).2]
      · by_cases hl : s.child .left c = some z
        · simp [hp, hc, hl]
        · simp [hp, hc, hl]
  · simp [h.ne, hother]
  · simp

theorem Side.other_ne (d : Side) : d.other ≠ d := by cases d <;> decide

theorem Edge.swapDown (h : Edge s p c d) : Swapped s (s.swapDown p c d) p c d := by
  have hself := h.up_ne_self
  rw [Heap.swapDown]
  constructor
  · simp
  · intro d' z
    simp only [replaceChild_up, setUp_child, replaceChild_child, hself, false_and, ↓reduceIte,
      setChild_child, h.ne.symm, and_false, and_true, and_self, setUpOf_child, reduceCtorEq,
      moveLast_child]
    by_cases hp : z = p
    · cases d' <;> simp [hp]
    · by_cases hc : z = c
      · subst hc
        cases d <;> cases d' <;> simp [hp, Side.other]
      · simp [hp, hc]
  · intro z
    simp only [replaceChild_up, setUp_child, replaceChild_child, hself, false_and, ↓reduceIte,
      setChild_child, h.ne.symm, and_false, Side.other_ne, and_true, and_self, setUpOf_child,
      reduceCtorEq, moveLast_up, setUpOf_up, setChild_up, setUp_up]
    by_cases hp : z = p
    · subst hp
      simp [(h.child_ne .left).1, (h.child_ne .right).1, h.other_ne]
    · by_cases hc : z = c
      · subst hc
        simp [hp, (h.child_ne .left).2, (h.child_ne .right).2, h.other]
      · by_cases hl : s.child .left c = some z
        · simp [hp, hc, hl]
        · simp [hp, hc, hl]
  · simp
  · simp

end Swap

/-- The side a position is on. -/
def side (b : Nat) : Side := if b % 2 = 0 then .left else .right

theorem place_iff (d : Side) (a b : Nat) : place d a = b ↔ a = b / 2 ∧ d = side b := by
  rw [side]
  cases d with
  | left =>
    simp only [place]
    split <;> simp <;> omega
  | right =>
    simp only [place]
    split <;> simp <;> omega

theorem place_ge (d : Side) (i : Nat) : 2 * i ≤ place d i := by
  cases d with
  | left => exact Nat.le_refl _
  | right => exact Nat.le_succ _

theorem place_half (d : Side) (i : Nat) : place d i / 2 = i := by
  cases d <;> simp only [place] <;> omega

section Linked
variable {s s' : Heap} {n : Nat} {f : Nat → Ptr}

theorem Linked.ne (h : Linked s n f) (hi : 1 ≤ i) (hin : i < n) (hj : 1 ≤ j) (hjn : j < n)
    (hne : i ≠ j) : f i ≠ f j := fun heq => hne (h.inj i j hi hin hj hjn heq)

theorem Linked.child_eq_iff (h : Linked s n f) (d : Side) (hi : 1 ≤ i) (hin : i < n) (hj : 1 ≤ j)
    (hjn : j < n) : s.child d (f i) = some (f j) ↔ place d i = j := by
  rw [h.child d i hi hin]
  have hge := place_ge d i
  constructor
  · intro heq
    split at heq
    · rename_i hlt
      exact h.inj _ _ (by omega) hlt hj hjn (Option.some.inj heq)
    · cases heq
  · rintro rfl
    rw [if_pos hjn]

theorem Linked.up_eq_iff (h : Linked s n f) (hi : 1 ≤ i) (hin : i < n) (hj : 1 ≤ j)
    (hjn : j < n) : s.up (f i) = some (f j) ↔ i / 2 = j := by
  rw [h.up i hi hin]
  constructor
  · intro heq
    split at heq
    · cases heq
    · exact h.inj _ _ (by omega) (by omega) hj hjn (Option.some.inj heq)
  · rintro rfl
    rw [if_neg (by omega)]

/-- Where a pointer to a timer is. -/
theorem Linked.link_iff (h : Linked s n f) (d : Side) (hi : 1 ≤ i) (hin : i < n) (ha : 1 ≤ a)
    (han : a < n) :
    (s.up (f a) = some (f i) ∧ (d = .left ↔ s.child .left (f i) = some (f a))) ↔
      place d i = a := by
  rw [h.up_eq_iff ha han hi hin, h.child_eq_iff .left hi hin ha han]
  cases d with
  | left =>
    simp only [place, true_iff]
    omega
  | right =>
    simp only [place, reduceCtorEq, false_iff]
    omega

theorem Linked.edge (h : Linked s n f) (hb : 2 ≤ b) (hbn : b < n) :
    Edge s (f (b / 2)) (f b) (side b) := by
  have ha : 1 ≤ b / 2 := by omega
  have han : b / 2 < n := by omega
  have hplace : place (side b) (b / 2) = b := (place_iff _ _ _).2 ⟨rfl, rfl⟩
  have hother : place (side b).other (b / 2) ≠ b := fun heq =>
    Side.other_ne _ ((place_iff _ _ _).1 heq).2
  have hge := place_ge (side b).other (b / 2)
  constructor
  · exact h.ne ha han (by omega) hbn (by omega)
  · exact (h.up_eq_iff (by omega) hbn ha han).2 rfl
  · exact (h.child_eq_iff _ ha han (by omega) hbn).2 hplace
  · exact mt (h.child_eq_iff _ ha han (by omega) hbn).1 hother
  · exact mt (h.up_eq_iff ha han (by omega) hbn).1 (by omega)
  · exact mt (h.up_eq_iff ha han ha han).1 (by omega)
  · intro d'
    have hge' := place_ge d' b
    exact ⟨mt (h.child_eq_iff _ (by omega) hbn ha han).1 (by omega),
      mt (h.child_eq_iff _ (by omega) hbn (by omega) hbn).1 (by omega)⟩
  · exact mt (h.child_eq_iff _ ha han ha han).1 (by omega)

/-- The timers of a parent and its child change places. -/
theorem Linked.swapped (h : Linked s n f) (hb : 2 ≤ b) (hbn : b < n)
    (hs : Swapped s s' (f (b / 2)) (f b) (side b)) :
    Linked s' n (f ∘ Equiv.swap (b / 2) b) := by
  have ha : 1 ≤ b / 2 := by omega
  have han : b / 2 < n := by omega
  have hab : b / 2 ≠ b := by omega
  have hb1 : 1 ≤ b := by omega
  have hne : f b ≠ f (b / 2) := h.ne hb1 hbn ha han hab.symm
  have hself : (f ∘ Equiv.swap (b / 2) b) (b / 2) = f b := by
    rw [BinaryHeap.swap_apply, if_pos rfl]
  have hchild : (f ∘ Equiv.swap (b / 2) b) b = f (b / 2) := by
    rw [BinaryHeap.swap_apply, if_neg hab.symm, if_pos rfl]
  have hrest : ∀ i, i ≠ b / 2 → i ≠ b → (f ∘ Equiv.swap (b / 2) b) i = f i := by
    intro i hia hib
    rw [BinaryHeap.swap_apply, if_neg hia, if_neg hib]
  constructor
  · exact h.pos
  · intro i j hi hin hj hjn heq
    have hrange : ∀ i, 1 ≤ i → i < n → 1 ≤ Equiv.swap (b / 2) b i ∧ Equiv.swap (b / 2) b i < n := by
      intro i hi hin
      rw [Equiv.swap_apply_def]
      split
      · exact ⟨hb1, hbn⟩
      · split
        · exact ⟨ha, han⟩
        · exact ⟨hi, hin⟩
    obtain ⟨hi', hin'⟩ := hrange i hi hin
    obtain ⟨hj', hjn'⟩ := hrange j hj hjn
    exact (Equiv.swap (b / 2) b).injective (h.inj _ _ hi' hin' hj' hjn' heq)
  · rw [hs.top, h.up _ ha han, h.top, if_neg (by omega : ¬n = 1), if_neg (by omega : ¬n = 1)]
    by_cases hroot : b / 2 = 1
    · rw [if_pos hroot, if_pos rfl, ← hself, hroot]
    · rw [if_neg hroot, if_neg (Option.some_ne_none _), hrest 1 (Ne.symm hroot) (by omega)]
  · rw [hs.last, h.last, if_neg (by omega : ¬n = 1), if_neg (by omega : ¬n = 1)]
    by_cases hlast : n - 1 = b
    · rw [hlast, if_pos rfl, hchild]
    · have hne' := h.ne (by omega) (by omega) hb1 hbn hlast
      rw [if_neg fun heq => hne' (Option.some.inj heq), hrest _ (by omega) hlast]
  · intro i hi hin
    rw [hs.up]
    by_cases hia : i = b / 2
    · subst hia
      rw [hself, if_neg hne, if_pos rfl, h.up _ ha han]
      by_cases hroot : b / 2 = 1
      · rw [if_pos hroot, if_pos hroot]
      · rw [if_neg hroot, if_neg hroot, hrest _ (by omega) (by omega)]
    · by_cases hib : i = b
      · subst hib
        rw [hchild, if_pos rfl, if_neg (by omega), hself]
      · have hchildren : (s.child .left (f b) = some (f i) ∨ s.child .right (f b) = some (f i)) ↔
            i / 2 = b := by
          rw [h.child_eq_iff _ hb1 hbn hi hin, h.child_eq_iff _ hb1 hbn hi hin]
          simp only [place]
          omega
        have hsibling : s.child (side b).other (f (b / 2)) = some (f i) ↔ i / 2 = b / 2 := by
          rw [h.child_eq_iff _ ha han hi hin, side]
          split <;> simp only [Side.other, place] <;> omega
        rw [hrest i hia hib, if_neg (h.ne hi hin ha han hia), if_neg (h.ne hi hin hb1 hbn hib)]
        by_cases hbelow : i / 2 = b
        · rw [if_pos (hchildren.2 hbelow), if_neg (by omega), hbelow, hchild]
        · rw [if_neg (mt hchildren.1 hbelow)]
          by_cases hbeside : i / 2 = b / 2
          · rw [if_pos (hsibling.2 hbeside), if_neg (by omega), hbeside, hself]
          · rw [if_neg (mt hsibling.1 hbeside), h.up i hi hin, hrest _ hbeside hbelow]
  · intro d i hi hin
    rw [hs.child]
    by_cases hia : i = b / 2
    · subst hia
      rw [hself, if_neg hne, if_pos rfl]
      by_cases hd : d = side b
      · rw [if_pos hd, (place_iff _ _ _).2 ⟨rfl, hd⟩, if_pos hbn, hchild]
      · have hge := place_ge d (b / 2)
        rw [if_neg hd, h.child d _ ha han,
          hrest _ (by omega) fun heq => hd ((place_iff _ _ _).1 heq).2]
    · by_cases hib : i = b
      · subst hib
        have hge := place_ge d i
        rw [hchild, if_pos rfl, h.child d i hb1 hbn, hrest _ (by omega) (by omega)]
      · rw [hrest i hia hib, if_neg (h.ne hi hin ha han hia), if_neg (h.ne hi hin hb1 hbn hib)]
        by_cases hplace : place d i = b / 2
        · rw [if_pos ((h.link_iff d hi hin ha han).2 hplace), hplace, if_pos han, hself]
        · have hb' : place d i ≠ b := fun heq => hia ((place_iff _ _ _).1 heq).1
          rw [if_neg (mt (h.link_iff d hi hin ha han).1 hplace), h.child d i hi hin,
            hrest _ hplace hb']

end Linked

end BigBox.Selector
