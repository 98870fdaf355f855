import BigBox.Selector.Sift

namespace BigBox.Selector
open RedBlack (Side)
open BinaryHeap
set_option autoImplicit true

section Calls
variable {s s' : Heap} {n : Nat} {f : Nat → Ptr}

theorem Linked.congr (h : Linked s n f) (htop : s'.top = s.top) (hlast : s'.last = s.last)
    (hup : ∀ i, 1 ≤ i → i < n → s'.up (f i) = s.up (f i))
    (hchild : ∀ d i, 1 ≤ i → i < n → s'.child d (f i) = s.child d (f i)) : Linked s' n f where
  pos := h.pos
  inj := h.inj
  top := htop.trans h.top
  last := hlast.trans h.last
  up i hi hin := (hup i hi hin).trans (h.up i hi hin)
  child d i hi hin := (hchild d i hi hin).trans (h.child d i hi hin)

/-- A timer whose pointers are null. -/
def Heap.clear (s : Heap) (elem : Ptr) : Heap :=
  ((s.setChild .left elem none).setChild .right elem none).setUp elem none

theorem clear_child (s : Heap) (elem : Ptr) (d : Side) (z : Ptr) :
    (s.clear elem).child d z = if z = elem then none else s.child d z := by
  rw [Heap.clear, setUp_child, setChild_child, setChild_child]
  cases d with
  | left => simp only [reduceCtorEq, false_and, if_false, true_and]
  | right => simp only [reduceCtorEq, false_and, if_false, true_and]

theorem clear_up (s : Heap) (elem z : Ptr) :
    (s.clear elem).up z = if z = elem then none else s.up z := setUp_up ..

theorem Linked.clear (h : Linked s n f) (hnew : ∀ i, 1 ≤ i → i < n → f i ≠ elem) :
    Linked (s.clear elem) n f := by
  have htop : (s.clear elem).top = s.top := rfl
  have hlast : (s.clear elem).last = s.last := rfl
  apply h.congr htop hlast
  · intro i hi hin
    rw [clear_up, if_neg (hnew i hi hin)]
  · intro d i hi hin
    rw [clear_child, if_neg (hnew i hi hin)]

/-- The last timer below its parent. -/
def Heap.hang (s : Heap) (elem parent : Ptr) (d : Side) : Heap :=
  { (s.setChild d parent (some elem)).setUp elem (some parent) with last := some elem }

theorem Linked.hang (h : Linked s n f) (hn : 2 ≤ n) (hnew : ∀ i, 1 ≤ i → i < n → f i ≠ elem)
    (hnull : ∀ d, s.child d elem = none) :
    Linked (s.hang elem (f (n / 2)) (side n)) (n + 1) (Function.update f n elem) := by
  have hold : ∀ i, i ≠ n → Function.update f n elem i = f i :=
    fun i hi => Function.update_of_ne hi _ _
  have hlast : Function.update f n elem n = elem := Function.update_self _ _ _
  constructor
  · omega
  · intro i j hi hin hj hjn heq
    by_cases hi' : i = n
    · by_cases hj' : j = n
      · rw [hi', hj']
      · rw [hi', hlast, hold j hj'] at heq
        exact absurd heq.symm (hnew j hj (by omega))
    · by_cases hj' : j = n
      · rw [hj', hlast, hold i hi'] at heq
        exact absurd heq (hnew i hi (by omega))
      · rw [hold i hi', hold j hj'] at heq
        exact h.inj i j hi (by omega) hj (by omega) heq
  · rw [hold 1 (by omega), if_neg (by omega)]
    exact h.top.trans (if_neg (by omega))
  · rw [Nat.add_sub_cancel, hlast, if_neg (by omega)]
    rfl
  · intro i hi hin
    change ((s.setChild (side n) (f (n / 2)) (some elem)).setUp elem (some (f (n / 2)))).up _ = _
    rw [setUp_up, hold (i / 2) (by omega)]
    by_cases hi' : i = n
    · rw [hi', hlast, if_pos rfl, if_neg (by omega)]
    · rw [hold i hi', if_neg (hnew i hi (by omega)), setChild_up, h.up i hi (by omega)]
  · intro d i hi hin
    change (s.setChild (side n) (f (n / 2)) (some elem)).child d _ = _
    rw [setChild_child]
    have hge := place_ge d i
    by_cases hi' : i = n
    · have hne := hnew (n / 2) (by omega) (by omega)
      rw [hi', hlast, if_neg fun heq => hne heq.2.symm, hnull,
        if_neg (by have := place_ge d n; omega)]
    · rw [hold i hi']
      by_cases hplace : place d i = n
      · obtain ⟨hhalf, hd⟩ := (place_iff d i n).1 hplace
        rw [if_pos ⟨hd, congrArg f hhalf⟩, if_pos (by omega), hplace, hlast]
      · have hno : ¬(d = side n ∧ f i = f (n / 2)) := by
          rintro ⟨hd, hfi⟩
          exact hplace ((place_iff d i n).2
            ⟨h.inj i _ hi (by omega) (by omega) (by omega) hfi, hd⟩)
        rw [if_neg hno, h.child d i hi (by omega), hold _ hplace]
        simp only [Nat.lt_succ_iff_lt_or_eq, hplace, or_false]

theorem Linked.first (elem : Ptr) (s : Heap) (hup : s.up elem = none)
    (hnull : ∀ d, s.child d elem = none) :
    Linked { s with top := some elem, last := some elem } 2 (Function.update f 1 elem) := by
  have hone : Function.update f 1 elem 1 = elem := Function.update_self _ _ _
  constructor
  · decide
  · intro i j hi hin hj hjn _
    omega
  · rw [hone]
    rfl
  · exact congrArg some hone.symm
  · intro i hi hin
    have hi' : i = 1 := by omega
    rw [hi', hone]
    exact hup
  · intro d i hi hin
    have hi' : i = 1 := by omega
    have hge := place_ge d 1
    rw [hi', hone, if_neg (by omega)]
    exact hnull d

/-- The last timer is cut off. -/
def Heap.cut (s : Heap) (u x : Ptr) (prev : Option Ptr) : Heap :=
  let s := { s with last := prev }
  if s.child .left u = some x then s.setChild .left u none else s.setChild .right u none

theorem Linked.cut (h : Linked s (n + 1) f) (hn : 2 ≤ n) :
    Linked (s.cut (f (n / 2)) (f n) (some (f (n - 1)))) n f := by
  have hcut : s.cut (f (n / 2)) (f n) (some (f (n - 1))) =
      Heap.setChild { s with last := some (f (n - 1)) } (side n) (f (n / 2)) none := by
    have hside := h.child_eq_iff .left (by omega : 1 ≤ n / 2) (by omega) (by omega : 1 ≤ n)
      (Nat.lt_succ_self n)
    rw [place_iff] at hside
    rw [Heap.cut]
    dsimp only
    by_cases hleft : s.child .left (f (n / 2)) = some (f n)
    · rw [if_pos hleft, ← (hside.1 hleft).2]
    · have hright : side n = .right := by
        cases hs : side n with
        | left => exact absurd (hside.2 ⟨rfl, hs.symm⟩) hleft
        | right => rfl
      rw [if_neg hleft, hright]
  rw [hcut]
  constructor
  · omega
  · intro i j hi hin hj hjn heq
    exact h.inj i j hi (by omega) hj (by omega) heq
  · rw [if_neg (by omega)]
    exact h.top.trans (if_neg (by omega))
  · rw [if_neg (by omega)]
    rfl
  · intro i hi hin
    exact h.up i hi (by omega)
  · intro d i hi hin
    rw [setChild_child]
    by_cases hplace : place d i = n
    · obtain ⟨hhalf, hd⟩ := (place_iff d i n).1 hplace
      rw [if_pos ⟨hd, congrArg f hhalf⟩, if_neg (by omega)]
    · have hno : ¬(d = side n ∧ f i = f (n / 2)) := by
        rintro ⟨hd, hfi⟩
        exact hplace ((place_iff d i n).2
          ⟨h.inj i _ hi (by omega) (by omega) (by omega) hfi, hd⟩)
      rw [if_neg hno]
      refine (h.child d i hi (by omega)).trans ?_
      simp only [Nat.lt_succ_iff_lt_or_eq, hplace, or_false]

theorem insertAt_child (hself : s.up e ≠ some e) (hx : x ≠ e) (d : Side) (z : Ptr) :
    (s.insertAt e x).child d z =
      if z = x then s.child d e
      else if s.up e = some z ∧ (d = .left ↔ s.child .left z = some e) then some x
      else s.child d z := by
  rw [Heap.insertAt]
  simp only [moveLast_child, setChild_child, setUpOf_child, setUp_child, replaceChild_child, hself,
    hx.symm, false_and, and_false, if_false]
  by_cases hz : z = x
  · cases d <;> simp [hz]
  · simp only [hz, and_false, if_false]

theorem insertAt_up (e x z : Ptr) (hx : ∀ d, s.child d e ≠ some x) (hself : s.up e ≠ some e) :
    (s.insertAt e x).up z =
      if z = x then s.up e
      else if s.child .left e = some z ∨ s.child .right e = some z then some x
      else s.up z := by
  rw [Heap.insertAt]
  simp only [moveLast_up, setChild_up, setUpOf_up, setUpOf_child, setUp_child, setUp_up,
    replaceChild_up, replaceChild_child, hself, false_and, if_false]
  by_cases hz : z = x
  · subst hz
    simp only [hx, if_false, if_true]
  · by_cases hl : s.child .left e = some z
    · simp only [hz, hl, true_or, if_false, if_true, ite_self]
    · simp only [hz, hl, false_or, if_false]

/-- A timer takes the place of another one. -/
theorem Linked.insertAt (h : Linked s n f) (hi : 1 ≤ i) (hin : i < n)
    (hnew : ∀ j, 1 ≤ j → j < n → f j ≠ x) :
    Linked (s.insertAt (f i) x) n (Function.update f i x) := by
  have hold : ∀ j, j ≠ i → Function.update f i x j = f j :=
    fun j hj => Function.update_of_ne hj _ _
  have hself : Function.update f i x i = x := Function.update_self _ _ _
  have hup : s.up (f i) ≠ some (f i) := mt (h.up_eq_iff hi hin hi hin).1 (by omega)
  have hchild : ∀ d, s.child d (f i) ≠ some x := by
    intro d heq
    have hge := place_ge d i
    rw [h.child d i hi hin] at heq
    split at heq
    · rename_i hlt
      exact hnew _ (by omega) hlt (Option.some.inj heq)
    · cases heq
  constructor
  · exact h.pos
  · intro j k hj hjn hk hkn heq
    by_cases hj' : j = i
    · by_cases hk' : k = i
      · rw [hj', hk']
      · rw [hj', hself, hold k hk'] at heq
        exact absurd heq.symm (hnew k hk hkn)
    · by_cases hk' : k = i
      · rw [hk', hself, hold j hj'] at heq
        exact absurd heq (hnew j hj hjn)
      · rw [hold j hj', hold k hk'] at heq
        exact h.inj j k hj hjn hk hkn heq
  · rw [if_neg (by omega)]
    have htop : (s.insertAt (f i) x).top = if s.up (f i) = none then some x else s.top := by
      simp only [Heap.insertAt, moveLast_top, setChild_top, setUpOf_top, setUp_top,
        replaceChild_top]
    rw [htop, h.up i hi hin, h.top, if_neg (by omega : ¬n = 1)]
    by_cases hroot : i = 1
    · rw [if_pos hroot, if_pos rfl, ← hroot, hself]
    · rw [if_neg hroot, if_neg (Option.some_ne_none _), hold 1 (Ne.symm hroot)]
  · rw [if_neg (by omega)]
    have hlast : (s.insertAt (f i) x).last = if s.last = some (f i) then some x else s.last := by
      simp only [Heap.insertAt, moveLast_last, setChild_last, setUpOf_last, setUp_last,
        replaceChild_last]
    rw [hlast, h.last, if_neg (by omega : ¬n = 1)]
    by_cases hi' : n - 1 = i
    · rw [hi', if_pos rfl, hself]
    · have hne := h.ne (by omega) (by omega) hi hin hi'
      rw [if_neg fun heq => hne (Option.some.inj heq), hold _ hi']
  · intro j hj hjn
    rw [insertAt_up _ _ _ hchild hup]
    by_cases hj' : j = i
    · rw [hj', hself, if_pos rfl, h.up i hi hin, hold (i / 2) (by omega)]
    · have hbelow : (s.child .left (f i) = some (f j) ∨ s.child .right (f i) = some (f j)) ↔
          j / 2 = i := by
        rw [h.child_eq_iff _ hi hin hj hjn, h.child_eq_iff _ hi hin hj hjn]
        simp only [place]
        omega
      rw [hold j hj', if_neg (hnew j hj hjn)]
      by_cases hhalf : j / 2 = i
      · rw [if_pos (hbelow.2 hhalf), if_neg (by omega), hhalf, hself]
      · rw [if_neg (mt hbelow.1 hhalf), h.up j hj hjn, hold _ hhalf]
  · intro d j hj hjn
    rw [insertAt_child hup (hnew i hi hin).symm]
    by_cases hj' : j = i
    · have hge := place_ge d i
      rw [hj', hself, if_pos rfl, h.child d i hi hin, hold _ (by omega)]
    · rw [hold j hj', if_neg (hnew j hj hjn)]
      by_cases hplace : place d j = i
      · rw [if_pos ((h.link_iff d hj hjn hi hin).2 hplace), hplace, if_pos hin, hself]
      · rw [if_neg (mt (h.link_iff d hj hjn hi hin).1 hplace), h.child d j hj hjn, hold _ hplace]

/-- The timers of a heap in the positions below `n`. -/
def Heap.Stores (s : Heap) (n : Nat) (timers : Finset Ptr) : Prop :=
  ∃ f, Linked s n f ∧ Ordered n (s.keys f) ∧ ∀ x, x ∈ timers ↔ ∃ i, 1 ≤ i ∧ i < n ∧ f i = x

theorem Settles.stores (h : Settles s n f r)
    (hmem : ∀ x, x ∈ timers ↔ ∃ i, 1 ≤ i ∧ i < n ∧ f i = x) :
    ∃ s', r = some s' ∧ s'.Stores n timers := by
  obtain ⟨s', f', hr, hlinked, hord, _, helem⟩ := h
  refine ⟨s', hr, f', hlinked, hord, fun x => ?_⟩
  rw [hmem, ← mem_elements, ← mem_elements, helem]

theorem addToHeap_eq (fuel : Nat) (s : Heap) (elem : Ptr) :
    Heap.addToHeap fuel s elem = match (s.clear elem).top with
      | none => some { s.clear elem with top := some elem, last := some elem }
      | some _ => (s.clear elem).last.bind fun last =>
        ((s.clear elem).findNextPos fuel last).bind fun r =>
          if cmpTimeval (((s.clear elem).hang elem r.1 r.2).timeout elem)
              (((s.clear elem).hang elem r.1 r.2).timeout r.1) < 0 then
            Heap.sendUp elem fuel ((s.clear elem).hang elem r.1 r.2)
          else some ((s.clear elem).hang elem r.1 r.2) := rfl

theorem mem_insert_last {timers : Finset Ptr}
    (hmem : ∀ x, x ∈ timers ↔ ∃ i, 1 ≤ i ∧ i < n ∧ f i = x)
    (hn : 1 ≤ n) (elem x : Ptr) :
    x ∈ insert elem timers ↔ ∃ i, 1 ≤ i ∧ i < n + 1 ∧ Function.update f n elem i = x := by
  have hlast : Function.update f n elem n = elem := Function.update_self _ _ _
  rw [Finset.mem_insert, hmem]
  constructor
  · rintro (heq | ⟨i, hi, hin, heq⟩)
    · exact ⟨n, hn, Nat.lt_succ_self n, hlast.trans heq.symm⟩
    · exact ⟨i, hi, by omega, (Function.update_of_ne (by omega) _ _).trans heq⟩
  · rintro ⟨i, hi, hin, heq⟩
    by_cases hi' : i = n
    · rw [hi', hlast] at heq
      exact Or.inl heq.symm
    · rw [Function.update_of_ne hi'] at heq
      exact Or.inr ⟨i, hi, by omega, heq⟩

/-- A timer that is not in the heap is added. -/
theorem Heap.Stores.add (h : s.Stores n timers) (hnew : elem ∉ timers) (hfuel : n ≤ fuel)
    (timeout : Timeval) :
    ∃ s', Heap.addToHeap fuel { s with timeout := Function.update s.timeout elem timeout } elem =
      some s' ∧ s'.Stores (n + 1) (insert elem timers) := by
  obtain ⟨f, hlinked, hord, hmem⟩ := h
  have hout : ∀ i, 1 ≤ i → i < n → f i ≠ elem :=
    fun i hi hin heq => hnew ((hmem elem).2 ⟨i, hi, hin, heq⟩)
  obtain ⟨t, ht⟩ : ∃ t, t = Function.update s.timeout elem timeout := ⟨_, rfl⟩
  have hsame : ∀ i, 1 ≤ i → i < n → t (f i) = s.timeout (f i) := by
    intro i hi hin
    rw [ht, Function.update_of_ne (hout i hi hin)]
  rw [← ht, addToHeap_eq]
  have hset : Linked { s with timeout := t } n f :=
    hlinked.congr rfl rfl (fun _ _ _ => rfl) fun _ _ _ _ => rfl
  have hclear : Linked (Heap.clear { s with timeout := t } elem) n f := hset.clear hout
  have hup : (Heap.clear { s with timeout := t } elem).up elem = none := by
    rw [clear_up, if_pos rfl]
  have hnull : ∀ d, (Heap.clear { s with timeout := t } elem).child d elem = none := by
    intro d
    rw [clear_child, if_pos rfl]
  have htimeout : (Heap.clear { s with timeout := t } elem).timeout = t := rfl
  generalize Heap.clear { s with timeout := t } elem = r at hclear hup hnull htimeout
  have hmem' := mem_insert_last hmem hlinked.pos elem
  rcases Nat.eq_or_lt_of_le hlinked.pos with rfl | hn
  · rw [hclear.top, if_pos rfl]
    refine ⟨_, rfl, Function.update f 1 elem, Linked.first elem r hup hnull, ?_, hmem'⟩
    intro j hj hjn
    omega
  · rw [hclear.top, if_neg (by omega), hclear.last, if_neg (by omega)]
    dsimp only
    rw [Option.bind_some, hclear.findNextPos hn (by omega), Option.bind_some]
    dsimp only
    have hhang := hclear.hang hn hout hnull
    have hlast : Function.update f n elem n = elem := Function.update_self _ _ _
    have hhalf : Function.update f n elem (n / 2) = f (n / 2) :=
      Function.update_of_ne (by omega) _ _
    have hrise : RisesAt (n + 1)
        ((r.hang elem (f (n / 2)) (side n)).keys (Function.update f n elem)) n := by
      apply hord.risesAt_last
      intro j hj hjn
      change (r.timeout _).key = _
      rw [Function.update_of_ne (by omega), htimeout, hsame j hj hjn]
      rfl
    by_cases hless : cmpTimeval ((r.hang elem (f (n / 2)) (side n)).timeout elem)
        ((r.hang elem (f (n / 2)) (side n)).timeout (f (n / 2))) < 0
    · have hsend := hhang.sendUp (by omega) (Nat.lt_succ_self n) hrise fuel hfuel
      rw [hlast] at hsend
      rw [if_pos hless]
      exact hsend.stores hmem'
    · rw [if_neg hless]
      apply (Settles.done hhang _).stores hmem'
      apply hrise.ordered
      intro _
      have hle := not_lt.1 (mt (cmpTimeval_neg_iff _ _).2 hless)
      rw [Heap.keys, Heap.keys, hlast, hhalf]
      exact hle

theorem removeFromHeap_eq (hlast : s.last = some x) (hup : s.up x = some u)
    (hprev : s.findPrevElem fuel x = some prev) (elem : Ptr) :
    s.removeFromHeap fuel elem = if elem = x then some (s.cut u x prev)
      else ((s.cut u x prev).insertAt elem x).propagate fuel x := by
  rw [Heap.removeFromHeap, hlast, Option.bind_some, hup]
  dsimp only
  rw [hprev]
  rfl

theorem cut_timeout (s : Heap) (u x : Ptr) (prev : Option Ptr) :
    (s.cut u x prev).timeout = s.timeout := by
  rw [Heap.cut]
  dsimp only
  split
  · rfl
  · rfl

theorem insertAt_timeout (s : Heap) (e x : Ptr) : (s.insertAt e x).timeout = s.timeout := by
  simp only [Heap.insertAt, moveLast_timeout, setChild_timeout, setUpOf_timeout, setUp_timeout,
    replaceChild_timeout]

/-- A timer that is out of order for its own timeout only. -/
theorem Linked.propagate {g : Nat → ℤ ×ₗ ℤ} (h : Linked s n f) (hi : 1 ≤ i) (hin : i < n)
    (hord : Ordered n g) (hsame : ∀ j, j ≠ i → s.keys f j = g j) (fuel : Nat)
    (hfuel : n ≤ fuel + 1) : Settles s n f (s.propagate fuel (f i)) := by
  rw [Heap.propagate, h.up i hi hin]
  by_cases hroot : i = 1
  · rw [if_pos hroot, Option.filter_none]
    apply h.sendDown hi hin (hord.sinksAt hsame hin _) fuel (by omega)
    intro hge
    omega
  · rw [if_neg hroot, Option.filter_some]
    by_cases hless : cmpTimeval (s.timeout (f i)) (s.timeout (f (i / 2))) < 0
    · have hlt : s.keys f i < s.keys f (i / 2) := (cmpTimeval_neg_iff _ _).1 hless
      rw [if_pos (decide_eq_true hless)]
      exact h.sendUp hi hin (hord.risesAt hsame hin (by omega) hlt.le) fuel (by omega)
    · have hle : s.keys f (i / 2) ≤ s.keys f i := not_lt.1 (mt (cmpTimeval_neg_iff _ _).2 hless)
      rw [if_neg fun heq => hless (of_decide_eq_true heq)]
      exact h.sendDown hi hin (hord.sinksAt hsame hin fun _ => hle) fuel (by omega)

theorem mem_erase_last {timers : Finset Ptr} (h : Linked s (m + 1) f)
    (hmem : ∀ x, x ∈ timers ↔ ∃ i, 1 ≤ i ∧ i < m + 1 ∧ f i = x) (hi : 1 ≤ i) (him : i < m + 1)
    (x : Ptr) :
    x ∈ timers.erase (f i) ↔ ∃ j, 1 ≤ j ∧ j < m ∧ Function.update f i (f m) j = x := by
  have hself : Function.update f i (f m) i = f m := Function.update_self _ _ _
  rw [Finset.mem_erase, hmem]
  constructor
  · rintro ⟨hne, k, hk, hkm, rfl⟩
    have hki : k ≠ i := fun heq => hne (congrArg f heq)
    by_cases hk' : k = m
    · exact ⟨i, hi, by omega, by rw [hself, hk']⟩
    · exact ⟨k, hk, by omega, Function.update_of_ne hki _ _⟩
  · rintro ⟨j, hj, hjm, rfl⟩
    by_cases hj' : j = i
    · rw [hj', hself]
      exact ⟨h.ne (by omega) (by omega) hi him (by omega), m, by omega, by omega, rfl⟩
    · rw [Function.update_of_ne hj']
      exact ⟨h.ne hj (by omega) hi him hj', j, hj, by omega, rfl⟩

/-- A timer that is in the heap is removed; the last one takes its place. -/
theorem Heap.Stores.remove (h : s.Stores n timers) (hmem : elem ∈ timers) (hfuel : n ≤ fuel + 1) :
    ∃ s', s.removeFromHeap fuel elem = some s' ∧ s'.Stores (n - 1) (timers.erase elem) := by
  obtain ⟨f, hlinked, hord, htimers⟩ := h
  obtain ⟨i, hi, hin, rfl⟩ := (htimers elem).1 hmem
  obtain ⟨m, rfl⟩ : ∃ m, n = m + 1 := ⟨n - 1, by omega⟩
  have herase := mem_erase_last hlinked htimers hi hin
  have hlast : s.last = some (f m) := by
    rw [hlinked.last, if_neg (by omega), Nat.add_sub_cancel]
  have hup := hlinked.up m (by omega) (Nat.lt_succ_self m)
  rw [Nat.add_sub_cancel]
  by_cases hone : m = 1
  · subst hone
    refine ⟨{ s with top := none, last := none }, ?_, Function.update f i (f 1), ?_, ?_, herase⟩
    · rw [Heap.removeFromHeap, hlast, Option.bind_some, hup, if_pos rfl]
    · constructor
      · exact Nat.le_refl 1
      · intro a b ha ha'
        omega
      · rfl
      · rfl
      · intro a ha ha'
        omega
      · intro d a ha ha'
        omega
    · intro j hj hj'
      omega
  · rw [if_neg hone] at hup
    have hprev : s.findPrevElem fuel (f m) = some (some (f (m - 1))) :=
      hlinked.findPrevElem (by omega) hfuel
    have hcut := hlinked.cut (by omega)
    have hkeys : ∀ j, (s.cut (f (m / 2)) (f m) (some (f (m - 1)))).keys f j = s.keys f j := by
      intro j
      rw [Heap.keys, cut_timeout, Heap.keys]
    rw [removeFromHeap_eq hlast hup hprev]
    by_cases him : i = m
    · subst him
      rw [Function.update_eq_self] at herase
      rw [if_pos rfl]
      refine ⟨_, rfl, f, hcut, ?_, herase⟩
      intro j hj hjm
      rw [hkeys, hkeys]
      exact hord j hj (by omega)
    · have hne : f i ≠ f m := hlinked.ne hi hin (by omega) (by omega) him
      have hinsert := hcut.insertAt (x := f m) hi (by omega) fun j hj hjm =>
        hlinked.ne hj (by omega) (by omega) (by omega) (by omega)
      have hself : Function.update f i (f m) i = f m := Function.update_self _ _ _
      have hsame : ∀ j, j ≠ i → ((s.cut (f (m / 2)) (f m) (some (f (m - 1)))).insertAt (f i)
          (f m)).keys (Function.update f i (f m)) j = s.keys f j := by
        intro j hj
        rw [Heap.keys, insertAt_timeout, cut_timeout, Function.update_of_ne hj, Heap.keys]
      have hprop := hinsert.propagate hi (by omega) (hord.mono (Nat.le_succ m)) hsame fuel
        (by omega)
      rw [hself] at hprop
      rw [if_neg hne]
      exact hprop.stores herase

end Calls

/-- A heap of the timers: a complete tree of them in order, with an earliest one on top. -/
structure Holds (s : Heap) (timers : Finset Ptr) : Prop where
  stores : ∃ n, s.Stores n timers
  empty : s.top = none ↔ timers = ∅
  earliest : ∀ t, s.top = some t → t ∈ timers ∧
    ∀ x ∈ timers, ¬ cmpTimeval (s.timeout x) (s.timeout t) < 0

theorem Heap.Stores.holds (h : s.Stores n timers) : Holds s timers := by
  obtain ⟨f, hlinked, hord, hmem⟩ := h
  have hpos := hlinked.pos
  refine ⟨⟨n, f, hlinked, hord, hmem⟩, ?_, fun t ht => ?_⟩
  · rw [hlinked.top, Finset.eq_empty_iff_forall_notMem]
    by_cases hn : n = 1
    · rw [if_pos hn]
      refine iff_of_true rfl fun x hx => ?_
      obtain ⟨i, hi, hin, _⟩ := (hmem x).1 hx
      omega
    · rw [if_neg hn]
      refine iff_of_false (Option.some_ne_none _) fun hno => ?_
      exact hno (f 1) ((hmem _).2 ⟨1, Nat.le_refl 1, by omega, rfl⟩)
  · rw [hlinked.top] at ht
    by_cases hn : n = 1
    · rw [if_pos hn] at ht
      cases ht
    · rw [if_neg hn] at ht
      cases ht
      refine ⟨(hmem _).2 ⟨1, Nat.le_refl 1, by omega, rfl⟩, fun x hx => ?_⟩
      obtain ⟨i, hi, hin, rfl⟩ := (hmem x).1 hx
      rw [cmpTimeval_neg_iff]
      exact not_lt.2 (hord.root_le hi hin)

theorem stores_empty {s : Heap} (htop : s.top = none) (hlast : s.last = none) :
    s.Stores 1 ∅ := by
  refine ⟨fun _ => 0, ⟨Nat.le_refl 1, ?_, htop, hlast, ?_, ?_⟩, ?_, fun x => ?_⟩
  · intro i j hi hin
    omega
  · intro i hi hin
    omega
  · intro d i hi hin
    omega
  · intro j hj hjn
    omega
  · refine iff_of_false (Finset.notMem_empty x) ?_
    rintro ⟨i, hi, hin, _⟩
    omega

theorem Heap.Stores.step (h : s.Stores n timers) (hvalid : Valid timers call) (hfuel : n ≤ fuel) :
    ∃ s' m, Heap.step fuel s call = some (s', ()) ∧ m ≤ n + 1 ∧
      s'.Stores m (live timers call).1 := by
  cases call with
  | add elem timeout =>
    obtain ⟨s', hs', hstores⟩ := h.add hvalid hfuel timeout
    refine ⟨s', n + 1, ?_, Nat.le_refl _, hstores⟩
    rw [Heap.step, hs']
    rfl
  | remove elem =>
    have hle : n ≤ fuel + 1 := Nat.le_succ_of_le hfuel
    obtain ⟨s', hs', hstores⟩ := h.remove hvalid hle
    refine ⟨s', n - 1, ?_, by omega, hstores⟩
    rw [Heap.step, hs']
    rfl

theorem Heap.Stores.run (h : s.Stores n timers) (hvalid : Meets live Valid timers calls)
    (hfuel : n + calls.length ≤ fuel + 1) :
    ∃ s' os m, tryRun (Heap.step fuel) s calls = some (s', os) ∧
      s'.Stores m (run live timers calls).1 := by
  induction calls generalizing s n timers with
  | nil => exact ⟨s, [], n, rfl, h⟩
  | cons call calls ih =>
    rw [List.length_cons] at hfuel
    obtain ⟨s₁, m, hs₁, hm, hstores⟩ := h.step hvalid.1 (by omega : n ≤ fuel)
    obtain ⟨s', os, k, hrun, hs'⟩ := ih hstores hvalid.2 (by omega)
    refine ⟨s', () :: os, k, ?_, hs'⟩
    rw [tryRun_cons hs₁, hrun]
    rfl

/-- Every run of calls ends with a heap of the timers added and not removed. -/
theorem heap_runs {s : Heap} (htop : s.top = none) (hlast : s.last = none) {calls : List Call}
    (hvalid : Meets live Valid ∅ calls) (fuel : Nat) (hfuel : calls.length ≤ fuel) :
    ∃ s' os, tryRun (Heap.step fuel) s calls = some (s', os) ∧
      Holds s' (run live ∅ calls).1 := by
  obtain ⟨s', os, n, hrun, hstores⟩ := (stores_empty htop hlast).run hvalid
    (by omega : 1 + calls.length ≤ fuel + 1)
  exact ⟨s', os, hrun, hstores.holds⟩

theorem heap_runs_three :
    ∃ s' os, tryRun (Heap.step 3) ⟨fun _ => ⟨0, 0⟩, fun _ _ => none, fun _ => none, none, none⟩
        [.add 1 ⟨5, 0⟩, .add 2 ⟨3, 7⟩, .remove 1] = some (s', os) ∧
      Holds s' (run live ∅ [.add 1 ⟨5, 0⟩, .add 2 ⟨3, 7⟩, .remove 1]).1 := by
  apply heap_runs
  · rfl
  · rfl
  · exact ⟨Finset.notMem_empty 1, (by decide : 2 ∉ insert 1 (∅ : Finset Ptr)),
      (by decide : 1 ∈ insert 2 (insert 1 (∅ : Finset Ptr))), trivial⟩
  · exact Nat.le_refl 3

end BigBox.Selector
