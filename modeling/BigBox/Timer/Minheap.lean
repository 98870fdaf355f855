import BigBox.Lib.BinaryHeap
import BigBox.Lib.TryRun

namespace BigBox.Minheap
open BinaryHeap
set_option autoImplicit true

/-- A `struct minHeapNode`. -/
structure Node (D : Type) where
  key : Int
  data : D

/-- A `struct minheap` of room for `maxNum` nodes, whose `headIndex` is 1. -/
structure Heap (D : Type) where
  nodeList : Nat → Node D
  lastIndex : Nat
  maxNum : Nat

def HEAD_INDEX : Nat := 1

/-- The result of an `int32_t` operation, if it does not overflow. -/
def int32 (n : Nat) : Option Nat := if n < 2147483648 then some n else none

section Calls
variable {D : Type}

/-- `calloc` has cleared the nodes. -/
def minHeapInit (null : D) (maxNum : Nat) : Option (Heap D) :=
  if maxNum = 0 then none else some ⟨fun _ => ⟨0, null⟩, 1, maxNum⟩

def getFatherIndex (index : Nat) : Nat := if index = 1 ∨ index = 0 then 0 else index / 2

def getLeftChildIndex (index : Nat) : Option Nat :=
  if index = 0 then some 0 else int32 (index * 2)

def getRightChildIndex (index : Nat) : Option Nat :=
  if index = 0 then some 0 else int32 (index * 2 + 1)

def exchange (i j : Nat) (list : Nat → Node D) : Nat → Node D :=
  let list' := Function.update list i { list i with key := (list j).key }
  Function.update list' j { list' j with key := (list i).key }

def exchangePoint (i j : Nat) (list : Nat → Node D) : Nat → Node D :=
  let list' := Function.update list i { list i with data := (list j).data }
  Function.update list' j { list' j with data := (list i).data }

/-- The loop of `_minHeapInsert`; the index is halved in each round. -/
def insertLoop (key : Int) : Nat → Nat → (Nat → Node D) → Nat → Node D
  | 0, _, list => list
  | n + 1, index, list =>
    let fatherIndex := getFatherIndex index
    if fatherIndex = 0 then list
    else if key < (list fatherIndex).key then
      insertLoop key n fatherIndex (exchangePoint fatherIndex index
        (exchange fatherIndex index list))
    else list

def minHeapInsert (h : Heap D) (key : Int) (data : D) : Heap D × Int :=
  if h.maxNum - 1 ≤ h.lastIndex then (h, -1)
  else
    let list := Function.update h.nodeList h.lastIndex ⟨key, data⟩
    ({ h with
      nodeList := insertLoop key h.lastIndex h.lastIndex list
      lastIndex := h.lastIndex + 1 }, 0)

/-- `none` when the index of a child overflows. -/
def minChildIndex (lastIndex : Nat) (list : Nat → Node D) (index : Nat) : Option Nat :=
  if lastIndex ≤ index then some 0
  else (getLeftChildIndex index).bind fun l => (getRightChildIndex index).map fun r =>
    if lastIndex ≤ l then 0
    else if lastIndex ≤ r then l
    else if (list l).key < (list r).key then l else r

/-- The loop of `_minHeapPop`; the index grows in each round. -/
def popLoop (lastIndex : Nat) : Nat → Nat → (Nat → Node D) → Option (Nat → Node D)
  | 0, _, _ => none
  | n + 1, index, list => (minChildIndex lastIndex list index).bind fun childIndex =>
    if childIndex = 0 then some list
    else if (list childIndex).key ≤ (list index).key then
      popLoop lastIndex n childIndex (exchangePoint index childIndex
        (exchange index childIndex list))
    else some list

/-- The node that is filled, if the heap is not empty. -/
def minHeapPop (h : Heap D) : Option (Heap D × Int × Option (Node D)) :=
  if h.lastIndex = 1 then some (h, -1, none)
  else
    let last := h.lastIndex - 1
    let list := exchangePoint last HEAD_INDEX (exchange last HEAD_INDEX h.nodeList)
    (popLoop last h.lastIndex HEAD_INDEX list).map fun list =>
      ({ h with nodeList := list, lastIndex := last }, 0, some (h.nodeList HEAD_INDEX))

inductive Call (D : Type) where
  | insert (key : Int) (data : D)
  | pop

def heapStep (h : Heap D) : Call D → Option (Heap D × Int × Option (Node D))
  | .insert key data => let r := minHeapInsert h key data; some (r.1, r.2, none)
  | .pop => minHeapPop h

/-- The nodes inserted so far, and the nodes popped so far. -/
structure Ledger (D : Type) where
  inserted : Multiset (Node D)
  popped : Multiset (Node D)

def Ledger.record (ledger : Ledger D) : Call D → Int × Option (Node D) → Ledger D
  | .insert key data, out =>
    if out.1 = 0 then { ledger with inserted := ⟨key, data⟩ ::ₘ ledger.inserted } else ledger
  | .pop, out => { ledger with popped := out.2.elim 0 ({·}) + ledger.popped }

/-- A call and its entry in the ledger. -/
def minheapStep (s : Heap D × Ledger D) (c : Call D) :
    Option ((Heap D × Ledger D) × Int × Option (Node D)) :=
  (heapStep s.1 c).map fun r => ((r.1, s.2.record c r.2), r.2)

def Heap.contents (h : Heap D) : Multiset (Node D) := elements h.lastIndex h.nodeList

/-- A slot is reserved at both ends. -/
def Heap.capacity (h : Heap D) : Nat := h.maxNum - 2

/-- A min-heap of what was inserted and not yet popped. -/
structure Kept (s : Heap D × Ledger D) : Prop where
  ordered : Ordered s.1.lastIndex fun i => (s.1.nodeList i).key
  contents : s.1.contents + s.2.popped = s.2.inserted

/-- What the calls answer. -/
def Served (s : Heap D × Ledger D) (c : Call D) (s' : Heap D × Ledger D)
    (out : Int × Option (Node D)) : Prop :=
  match c with
  | .insert _ _ =>
    if s.1.contents.card < s.1.capacity then out = (0, none) else out = (-1, none) ∧ s'.1 = s.1
  | .pop =>
    if s.1.contents.card = 0 then out = (-1, none) ∧ s'.1 = s.1
    else ∃ node ∈ s.1.contents, out = (0, some node) ∧ ∀ node' ∈ s.1.contents, node.key ≤ node'.key

/-- A position that is the smaller child of its father and not larger than the last node, which
a pop moves to the root. -/
structure Smaller (h : Heap D) (c : Nat) : Prop where
  inside : c < h.lastIndex - 1
  le : (h.nodeList c).key ≤ (h.nodeList (h.lastIndex - 1)).key
  left : c % 2 = 0 → c + 1 < h.lastIndex - 1 → (h.nodeList c).key < (h.nodeList (c + 1)).key
  right : c % 2 = 1 → (h.nodeList c).key ≤ (h.nodeList (c - 1)).key

/-- A position the last node passes when it sinks from the root. -/
def Passed (h : Heap D) (p : Nat) : Prop := ∀ k, 2 ≤ p / 2 ^ k → Smaller h (p / 2 ^ k)

/-- The calls a heap serves: no node sinks to a position whose double is not an `int32_t`. -/
def Call.Ok (h : Heap D) : Call D → Prop
  | .insert _ _ => True
  | .pop => ∀ p, 1073741824 ≤ p → p < h.lastIndex - 1 → ¬ Passed h p

end Calls

set_option autoImplicit true

section Exchange
variable {D : Type} {list : Nat → Node D} {n i c : Nat}

theorem exchange_swap (i j : Nat) (list : Nat → Node D) :
    exchangePoint i j (exchange i j list) = list ∘ Equiv.swap i j := by
  funext k
  rw [swap_apply]
  by_cases hij : i = j
  · subst hij
    by_cases hk : k = i
    · subst hk
      simp only [exchangePoint, exchange, Function.update_self, if_true]
    · simp only [exchangePoint, exchange, Function.update_of_ne hk, if_neg hk]
  · by_cases hk : k = j
    · subst hk
      have hki : k ≠ i := Ne.symm hij
      simp only [exchangePoint, exchange, Function.update_self, Function.update_of_ne hki,
        Function.update_of_ne hij, if_neg hki, if_true]
    · by_cases hki : k = i
      · subst hki
        simp only [exchangePoint, exchange, Function.update_self, Function.update_of_ne hij,
          Function.update_of_ne (Ne.symm hij), if_true]
      · simp only [exchangePoint, exchange, Function.update_of_ne hk, Function.update_of_ne hki,
          if_neg hk, if_neg hki]

theorem getFatherIndex_of_le (hi : 2 ≤ i) : getFatherIndex i = i / 2 := by
  rw [getFatherIndex, if_neg (by omega)]

/-- A node rises to its place. -/
theorem insertLoop_ordered (h : RisesAt n (fun k => (list k).key) i) (hi : 1 ≤ i) (hin : i < n)
    (hkey : (list i).key = key) (hm : i ≤ m) :
    Ordered n (fun k => (insertLoop key m i list k).key) ∧
      elements n (insertLoop key m i list) = elements n list := by
  induction m generalizing i list with
  | zero => omega
  | succ m ih =>
    rw [insertLoop]
    by_cases hroot : i = 1
    · subst hroot
      have hfather : getFatherIndex 1 = 0 := rfl
      rw [if_pos hfather]
      exact ⟨h.ordered fun hi => absurd hi (by decide), rfl⟩
    · have hi' : 2 ≤ i := by omega
      rw [getFatherIndex_of_le hi', if_neg (by omega)]
      by_cases hlt : key < (list (i / 2)).key
      · rw [if_pos hlt, exchange_swap, Equiv.swap_comm]
        have hrises := h.swap hi' (by rw [hkey]; exact Int.le_of_lt hlt)
        have hmoved : ((list ∘ Equiv.swap i (i / 2)) (i / 2)).key = key := by
          rw [Function.comp_apply, Equiv.swap_apply_right, hkey]
        obtain ⟨hordered, helements⟩ := ih hrises (by omega) (by omega) hmoved (by omega)
        refine ⟨hordered, helements.trans ?_⟩
        exact elements_swap hi hin (by omega) (by omega) list
      · rw [if_neg hlt]
        refine ⟨h.ordered fun _ => ?_, rfl⟩
        rw [hkey]
        exact Int.not_lt.1 hlt

/-- The smaller child of a position. -/
structure Child (n : Nat) (list : Nat → Node D) (i c : Nat) : Prop where
  father : c / 2 = i
  inside : c < n
  left : c % 2 = 0 → c + 1 < n → (list c).key < (list (c + 1)).key
  right : c % 2 = 1 → (list c).key ≤ (list (c - 1)).key

theorem Child.min (h : Child n list i c) (hj : j / 2 = i) (hjn : j < n) :
    (list c).key ≤ (list j).key := by
  have hfather := h.father
  have hcases : j = c ∨ c % 2 = 0 ∧ j = c + 1 ∨ c % 2 = 1 ∧ j = c - 1 := by omega
  rcases hcases with rfl | ⟨hc, rfl⟩ | ⟨hc, rfl⟩
  · exact Int.le_refl _
  · exact Int.le_of_lt (h.left hc hjn)
  · exact h.right hc

theorem Child.unique (h : Child n list i c) (h' : Child n list i c') : c = c' := by
  have hfather := h.father
  have hfather' := h'.father
  have hcases : c = c' ∨ c % 2 = 0 ∧ c' = c + 1 ∨ c' % 2 = 0 ∧ c = c' + 1 := by omega
  rcases hcases with heq | ⟨hc, rfl⟩ | ⟨hc, rfl⟩
  · exact heq
  · exact (Int.not_le.2 (h.left hc h'.inside) (h'.right (by omega))).elim
  · exact (Int.not_le.2 (h'.left hc h.inside) (h.right (by omega))).elim

theorem int32_of_lt (h : k < 2147483648) : int32 k = some k := if_pos h

theorem minChildIndex_none (hi : i < n) (hlarge : 1073741824 ≤ i) :
    minChildIndex n list i = none := by
  have hleft : getLeftChildIndex i = none := by
    rw [getLeftChildIndex, if_neg (by omega)]
    exact if_neg (by omega)
  rw [minChildIndex, if_neg (Nat.not_le.2 hi), hleft, Option.bind_none]

theorem minChildIndex_some (list : Nat → Node D) (hi : 1 ≤ i) (hsmall : i < n → i < 1073741824) :
    (minChildIndex n list i = some 0 ∧ ∀ j, j < n → j / 2 ≠ i) ∨
      ∃ c, minChildIndex n list i = some c ∧ Child n list i c := by
  by_cases hin : n ≤ i
  · exact .inl ⟨if_pos hin, fun j hj hji => by omega⟩
  · have hlt := hsmall (Nat.not_le.1 hin)
    have hleft : getLeftChildIndex i = some (i * 2) := by
      rw [getLeftChildIndex, if_neg (by omega), int32_of_lt (by omega)]
    have hright : getRightChildIndex i = some (i * 2 + 1) := by
      rw [getRightChildIndex, if_neg (by omega), int32_of_lt (by omega)]
    rw [minChildIndex, if_neg hin, hleft, hright, Option.bind_some, Option.map_some]
    by_cases hl : n ≤ i * 2
    · rw [if_pos hl]
      exact .inl ⟨rfl, fun j hj hji => by omega⟩
    · rw [if_neg hl]
      right
      by_cases hr : n ≤ i * 2 + 1
      · rw [if_pos hr]
        exact ⟨_, rfl, by omega, by omega, fun _ h => by omega, fun h => by omega⟩
      · rw [if_neg hr]
        by_cases hkey : (list (i * 2)).key < (list (i * 2 + 1)).key
        · rw [if_pos hkey]
          exact ⟨_, rfl, by omega, by omega, fun _ _ => hkey, fun h => by omega⟩
        · rw [if_neg hkey]
          refine ⟨_, rfl, by omega, by omega, fun h => by omega, fun _ => ?_⟩
          exact Int.not_lt.1 hkey

end Exchange

section Sinking
variable {D : Type} {h : Heap D} {list : Nat → Node D} {n i c p : Nat}

/-- The last node has sunk to a position; nothing behind it has changed. -/
structure Sunk (h : Heap D) (list : Nat → Node D) (i : Nat) : Prop where
  moved : (list i).key = (h.nodeList (h.lastIndex - 1)).key
  behind : ∀ p, i < p → p < h.lastIndex - 1 → list p = h.nodeList p

theorem Sunk.next (hsunk : Sunk h list i) (hic : i < c) :
    Sunk h (list ∘ Equiv.swap i c) c := by
  refine ⟨?_, fun p hp hlast => ?_⟩
  · rw [Function.comp_apply, Equiv.swap_apply_right, hsunk.moved]
  · rw [swap_apply, if_neg (by omega), if_neg (by omega)]
    exact hsunk.behind p (by omega) hlast

/-- Only positions behind matter to the choice of a child. -/
theorem Sunk.child_iff (hsunk : Sunk h list i) (hi : 1 ≤ i) :
    Child (h.lastIndex - 1) list i c ↔ Child (h.lastIndex - 1) h.nodeList i c := by
  have hsame : ∀ p, p / 2 = i → p < h.lastIndex - 1 → list p = h.nodeList p :=
    fun p hp hlast => hsunk.behind p (by omega) hlast
  constructor
  · intro hc
    have hfather := hc.father
    have hin := hc.inside
    refine ⟨hfather, hin, fun hmod hlast => ?_, fun hmod => ?_⟩
    · rw [← hsame c hfather hin, ← hsame (c + 1) (by omega) hlast]
      exact hc.left hmod hlast
    · rw [← hsame c hfather hin, ← hsame (c - 1) (by omega) (by omega)]
      exact hc.right hmod
  · intro hc
    have hfather := hc.father
    have hin := hc.inside
    refine ⟨hfather, hin, fun hmod hlast => ?_, fun hmod => ?_⟩
    · rw [hsame c hfather hin, hsame (c + 1) (by omega) hlast]
      exact hc.left hmod hlast
    · rw [hsame c hfather hin, hsame (c - 1) (by omega) (by omega)]
      exact hc.right hmod

theorem Passed.next (hp : Passed h i) (hfather : c / 2 = i) (hc : Smaller h c) : Passed h c := by
  intro k hk
  cases k with
  | zero =>
    rw [Nat.pow_zero, Nat.div_one]
    exact hc
  | succ k =>
    rw [Nat.pow_succ', ← Nat.div_div_eq_div_mul, hfather] at hk ⊢
    exact hp k hk

theorem passed_root (h : Heap D) : Passed h 1 := by
  intro k hk
  have hle := Nat.div_le_self 1 (2 ^ k)
  omega

/-- The last node sinks to its place when it passes no position whose double overflows. -/
theorem popLoop_ordered (hok : Call.Ok h .pop)
    (hsinks : SinksAt (h.lastIndex - 1) (fun k => (list k).key) i) (hi : 1 ≤ i)
    (hsunk : Sunk h list i) (hpassed : Passed h i) (hin : i ≤ h.lastIndex - 1)
    (hm : h.lastIndex - 1 < m + i) :
    ∃ list', popLoop (h.lastIndex - 1) m i list = some list' ∧
      Ordered (h.lastIndex - 1) (fun k => (list' k).key) ∧
      elements (h.lastIndex - 1) list' = elements (h.lastIndex - 1) list := by
  induction m generalizing i list with
  | zero => omega
  | succ m ih =>
    have hsmall : i < h.lastIndex - 1 → i < 1073741824 :=
      fun hlast => Nat.not_le.1 fun hlarge => hok i hlarge hlast hpassed
    rw [popLoop]
    rcases minChildIndex_some list hi hsmall with ⟨hzero, hleaf⟩ | ⟨c, hc, hchild⟩
    · rw [hzero, Option.bind_some, if_pos rfl]
      refine ⟨list, rfl, hsinks.ordered fun j _ hj hji => ?_, rfl⟩
      exact (hleaf j hj hji).elim
    · have hfather := hchild.father
      have hcin := hchild.inside
      rw [hc, Option.bind_some, if_neg (by omega)]
      by_cases hle : (list c).key ≤ (list i).key
      · rw [if_pos hle, exchange_swap]
        have hchild' := (hsunk.child_iff hi).1 hchild
        have hsmaller : Smaller h c := by
          refine ⟨hcin, ?_, hchild'.left, hchild'.right⟩
          rw [← hsunk.behind c (by omega) hcin, ← hsunk.moved]
          exact hle
        have hswap := hsinks.swap hi hfather hcin (fun j _ hjn hj => hchild.min hj hjn) hle
        obtain ⟨list', hrun, hordered, helements⟩ := ih hswap (by omega) (hsunk.next (by omega))
          (hpassed.next hfather hsmaller) (Nat.le_of_lt hcin) (by omega)
        refine ⟨list', hrun, hordered, helements.trans ?_⟩
        exact elements_swap hi (by omega) (by omega) hcin list
      · rw [if_neg hle]
        refine ⟨list, rfl, hsinks.ordered fun j _ hjn hj => ?_, rfl⟩
        exact (Int.le_of_lt (Int.not_le.1 hle)).trans (hchild.min hj hjn)

/-- The last node does not sink below a position whose double overflows. -/
theorem popLoop_none (hlarge : 1073741824 ≤ p) (hin : p < h.lastIndex - 1) (hpassed : Passed h p)
    (hroot : 1 ≤ p / 2 ^ k) (hsunk : Sunk h list (p / 2 ^ k)) :
    popLoop (h.lastIndex - 1) m (p / 2 ^ k) list = none := by
  induction k generalizing m list with
  | zero =>
    rw [Nat.pow_zero, Nat.div_one]
    cases m with
    | zero => rfl
    | succ m => rw [popLoop, minChildIndex_none hin hlarge, Option.bind_none]
  | succ k ih =>
    have hfather : p / 2 ^ k / 2 = p / 2 ^ (k + 1) := by
      rw [Nat.div_div_eq_div_mul, ← Nat.pow_succ]
    have hle := Nat.div_le_self p (2 ^ (k + 1))
    have hlast := Nat.div_le_self p (2 ^ k)
    generalize p / 2 ^ (k + 1) = i at *
    generalize hc : p / 2 ^ k = c at *
    cases m with
    | zero => rfl
    | succ m =>
      rw [popLoop]
      by_cases hi : 1073741824 ≤ i
      · rw [minChildIndex_none (by omega) hi, Option.bind_none]
      · have hsmaller : Smaller h c := hc ▸ hpassed k (by omega)
        have hchild : Child (h.lastIndex - 1) list i c :=
          (hsunk.child_iff hroot).2 ⟨hfather, hsmaller.inside, hsmaller.left, hsmaller.right⟩
        rcases minChildIndex_some list hroot fun _ => Nat.not_le.1 hi with
          ⟨_, hleaf⟩ | ⟨c', hc', hchild'⟩
        · exact (hleaf c hsmaller.inside hfather).elim
        · obtain rfl := hchild'.unique hchild
          have hkey : (list c').key ≤ (list i).key := by
            rw [hsunk.behind c' (by omega) hsmaller.inside, hsunk.moved]
            exact hsmaller.le
          rw [hc', Option.bind_some, if_neg (by omega), if_pos hkey, exchange_swap]
          exact ih (by omega) (hsunk.next (by omega))

theorem exists_div_pow (hp : 1 ≤ p) : ∃ k, p / 2 ^ k = 1 := by
  induction p using Nat.strong_induction_on with
  | _ p ih =>
    rcases Nat.eq_or_lt_of_le hp with rfl | hp
    · exact ⟨0, rfl⟩
    · obtain ⟨k, hk⟩ := ih (p / 2) (by omega) (by omega)
      refine ⟨k + 1, ?_⟩
      rw [Nat.pow_succ', ← Nat.div_div_eq_div_mul, hk]

/-- The last node is moved to the root. -/
theorem sunk_root (h : Heap D) :
    Sunk h (h.nodeList ∘ Equiv.swap (h.lastIndex - 1) HEAD_INDEX) 1 := by
  refine ⟨?_, fun p hp hin => ?_⟩
  · rw [Function.comp_apply, HEAD_INDEX, Equiv.swap_apply_right]
  · rw [swap_apply, HEAD_INDEX, if_neg (by omega), if_neg (by omega)]

theorem sinks_root (h : Ordered (n + 1) fun k => (list k).key) :
    SinksAt n (fun k => ((list ∘ Equiv.swap n HEAD_INDEX) k).key) 1 := by
  refine ⟨fun j hj hjn hjr => ?_, fun hroot => absurd hroot (by decide)⟩
  rw [swap_apply, swap_apply, HEAD_INDEX, if_neg (by omega), if_neg (by omega), if_neg (by omega),
    if_neg (by omega)]
  exact h j hj (by omega)

end Sinking

section Steps
variable {D : Type} {h : Heap D}

theorem insert_ordered (key : Int) (data : D) (hlast : 1 ≤ h.lastIndex)
    (hordered : Ordered h.lastIndex fun k => (h.nodeList k).key)
    (hroom : h.lastIndex < h.maxNum - 1) :
    ∃ h', minHeapInsert h key data = (h', 0) ∧ h'.maxNum = h.maxNum ∧
      h'.lastIndex = h.lastIndex + 1 ∧ Ordered h'.lastIndex (fun k => (h'.nodeList k).key) ∧
      h'.contents = ⟨key, data⟩ ::ₘ h.contents := by
  have hold : ∀ k, k < h.lastIndex →
      Function.update h.nodeList h.lastIndex ⟨key, data⟩ k = h.nodeList k :=
    fun k hk => Function.update_of_ne (Nat.ne_of_lt hk) ..
  have hrises : RisesAt (h.lastIndex + 1)
      (fun k => (Function.update h.nodeList h.lastIndex ⟨key, data⟩ k).key) h.lastIndex := by
    refine ⟨fun j hj hjn hji => ?_, fun _ j hjn hji => by omega⟩
    rw [hold j (by omega), hold (j / 2) (by omega)]
    exact hordered j hj (by omega)
  have hnew := congrArg Node.key (Function.update_self h.lastIndex ⟨key, data⟩ h.nodeList)
  obtain ⟨hordered', helements⟩ := insertLoop_ordered hrises hlast (Nat.lt_succ_self _) hnew
    (Nat.le_refl _)
  rw [minHeapInsert, if_neg (Nat.not_le.2 hroom)]
  refine ⟨_, rfl, rfl, rfl, hordered', helements.trans ?_⟩
  rw [elements_succ hlast, Function.update_self]
  exact congrArg _ (elements_congr fun k _ hk => hold k hk)

theorem minHeapPop_eq (hlast : 2 ≤ h.lastIndex) :
    minHeapPop h = (popLoop (h.lastIndex - 1) h.lastIndex 1
      (h.nodeList ∘ Equiv.swap (h.lastIndex - 1) HEAD_INDEX)).map fun list =>
        ({ h with nodeList := list, lastIndex := h.lastIndex - 1 }, 0,
          some (h.nodeList HEAD_INDEX)) := by
  rw [minHeapPop, if_neg (by omega), ← exchange_swap]
  rfl

theorem pop_ordered (hlast : 2 ≤ h.lastIndex)
    (hordered : Ordered h.lastIndex fun k => (h.nodeList k).key) (hok : Call.Ok h .pop) :
    ∃ h', minHeapPop h = some (h', 0, some (h.nodeList 1)) ∧ h'.maxNum = h.maxNum ∧
      h'.lastIndex = h.lastIndex - 1 ∧ Ordered h'.lastIndex (fun k => (h'.nodeList k).key) ∧
      h.contents = h.nodeList 1 ::ₘ h'.contents := by
  obtain ⟨n, hn⟩ : ∃ n, h.lastIndex = n + 1 := ⟨h.lastIndex - 1, by omega⟩
  have hsinks := sinks_root (hn ▸ hordered)
  have hsunk := sunk_root h
  have hn' : h.lastIndex - 1 = n := by omega
  rw [← hn'] at hsinks
  obtain ⟨list, hrun, hordered', helements⟩ := popLoop_ordered hok hsinks (Nat.le_refl 1) hsunk
    (passed_root h) (by omega) (m := h.lastIndex) (by omega)
  rw [minHeapPop_eq hlast, hrun]
  refine ⟨_, rfl, rfl, rfl, hordered', ?_⟩
  have hswap := elements_swap (n := n + 1) (i := n) (j := 1) (by omega) (by omega) (by omega)
    (by omega) h.nodeList
  have hroot : (h.nodeList ∘ Equiv.swap n 1) n = h.nodeList 1 := by
    rw [Function.comp_apply, Equiv.swap_apply_left]
  rw [Heap.contents, hn, ← hswap, elements_succ (by omega), hroot, Heap.contents]
  rw [hn'] at helements
  exact congrArg _ helements.symm

theorem pop_none (hlast : 2 ≤ h.lastIndex) (hbad : ¬ Call.Ok h .pop) : minHeapPop h = none := by
  have hexists : ∃ p, 1073741824 ≤ p ∧ p < h.lastIndex - 1 ∧ Passed h p := by
    by_contra hno
    exact hbad fun p hlarge hin hpassed => hno ⟨p, hlarge, hin, hpassed⟩
  obtain ⟨p, hlarge, hin, hpassed⟩ := hexists
  obtain ⟨k, hk⟩ := exists_div_pow (Nat.le_trans (by decide) hlarge)
  have hsunk := sunk_root h
  rw [← hk] at hsunk
  have hnone := popLoop_none (m := h.lastIndex) hlarge hin hpassed (Nat.le_of_eq hk.symm) hsunk
  rw [hk] at hnone
  rw [minHeapPop_eq hlast, hnone, Option.map_none]

end Steps

section Steps
variable {D : Type} {s : Heap D × Ledger D}

structure Holds (s : Heap D × Ledger D) : Prop extends Kept s where
  last_pos : 1 ≤ s.1.lastIndex

theorem card_contents (h : Heap D) : h.contents.card = h.lastIndex - 1 := card_elements _ _

theorem Holds.insert (h : Holds s) (key : Int) (data : D) :
    ∃ s' out, minheapStep s (.insert key data) = some (s', out) ∧
      Served s (.insert key data) s' out ∧ Holds s' := by
  have hlast := h.last_pos
  by_cases hroom : s.1.lastIndex < s.1.maxNum - 1
  · obtain ⟨h', hinsert, _, hlast', hordered, hcontents⟩ :=
      insert_ordered key data hlast h.ordered hroom
    refine ⟨(h', s.2.record (.insert key data) (0, none)), (0, none), ?_, ?_, ?_⟩
    · rw [minheapStep, heapStep, hinsert]
      rfl
    · rw [Served, Heap.capacity, card_contents, if_pos (by omega)]
    · refine ⟨⟨hordered, ?_⟩, ?_⟩
      · change h'.contents + s.2.popped = ⟨key, data⟩ ::ₘ s.2.inserted
        rw [hcontents, Multiset.cons_add, h.contents]
      · change 1 ≤ h'.lastIndex
        omega
  · have hinsert : minHeapInsert s.1 key data = (s.1, -1) := if_pos (by omega)
    refine ⟨s, (-1, none), ?_, ?_, h⟩
    · rw [minheapStep, heapStep, hinsert]
      rfl
    · rw [Served, Heap.capacity, card_contents, if_neg (by omega)]
      exact ⟨rfl, rfl⟩

theorem Holds.pop (h : Holds s) (hok : Call.Ok s.1 .pop) :
    ∃ s' out, minheapStep s .pop = some (s', out) ∧ Served s .pop s' out ∧ Holds s' := by
  have hlast := h.last_pos
  by_cases hempty : s.1.lastIndex = 1
  · have hpop : minHeapPop s.1 = some (s.1, -1, none) := if_pos hempty
    refine ⟨(s.1, s.2.record .pop (-1, none)), (-1, none), ?_, ?_, ⟨⟨h.ordered, ?_⟩, hlast⟩⟩
    · rw [minheapStep, heapStep, hpop]
      rfl
    · rw [Served, card_contents, if_pos (by omega)]
      exact ⟨rfl, rfl⟩
    · change s.1.contents + (0 + s.2.popped) = s.2.inserted
      rw [Multiset.zero_add, h.contents]
  · obtain ⟨h', hpop, _, hlast', hordered, hcontents⟩ :=
      pop_ordered (by omega) h.ordered hok
    refine ⟨(h', s.2.record .pop (0, some (s.1.nodeList 1))), (0, some (s.1.nodeList 1)), ?_, ?_,
      ⟨⟨hordered, ?_⟩, ?_⟩⟩
    · rw [minheapStep, heapStep, hpop]
      rfl
    · rw [Served, card_contents, if_neg (by omega)]
      refine ⟨s.1.nodeList 1, ?_, rfl, fun node hnode => ?_⟩
      · rw [hcontents]
        exact Multiset.mem_cons_self _ _
      · obtain ⟨i, hi, hin, rfl⟩ := mem_elements.1 hnode
        exact h.ordered.root_le hi hin
    · change h'.contents + ({s.1.nodeList 1} + s.2.popped) = s.2.inserted
      rw [← h.contents, hcontents, Multiset.singleton_add, Multiset.add_cons, Multiset.cons_add]
    · change 1 ≤ h'.lastIndex
      omega

theorem minheapStep_good (h : Holds s) (c : Call D) (hok : c.Ok s.1) :
    ∃ s' out, minheapStep s c = some (s', out) ∧ Served s c s' out ∧ Holds s' := by
  cases c with
  | insert key data => exact h.insert key data
  | pop => exact h.pop hok

theorem minheapStep_bad (c : Call D) (hbad : ¬ c.Ok s.1) :
    minheapStep s c = none := by
  cases c with
  | insert key data => exact (hbad trivial).elim
  | pop =>
    have hlast : 2 ≤ s.1.lastIndex := by
      by_contra hlast
      exact hbad fun p hlarge hin => by omega
    rw [minheapStep, heapStep, pop_none hlast hbad]
    rfl

theorem minHeapInit_holds (hinit : minHeapInit null maxNum = some h) :
    Holds (h, (⟨0, 0⟩ : Ledger D)) := by
  rw [minHeapInit] at hinit
  split at hinit
  · cases hinit
  · cases hinit
    refine ⟨⟨fun j hj hjn => ?_, rfl⟩, Nat.le_refl 1⟩
    exact absurd (Nat.lt_of_le_of_lt hj hjn : 2 < 1) (by decide)

theorem Holds.sustains_iff (h : Holds s) (cs : List (Call D)) :
    Sustains minheapStep Kept Served s cs ↔ Admits minheapStep (fun s c => c.Ok s.1) s cs := by
  apply sustains_iff_admits (R := Holds)
  · exact fun _ h => h.toKept
  · exact fun _ c h hok => minheapStep_good h c hok
  · exact fun _ c _ hbad => minheapStep_bad c hbad
  · exact h

/-- A heap is a min-heap of what was inserted and not yet popped, and pops smallest nodes, in the
runs in which no node sinks to a position whose double overflows. -/
theorem minheap_sustains_iff (null : D) (maxNum : Nat) (h : Heap D)
    (hinit : minHeapInit null maxNum = some h) (cs : List (Call D)) :
    Sustains minheapStep Kept Served (h, ⟨0, 0⟩) cs ↔
      Admits minheapStep (fun s c => c.Ok s.1) (h, ⟨0, 0⟩) cs :=
  (minHeapInit_holds hinit).sustains_iff cs

end Steps

section Witness

/-- A cleared heap. -/
def cleared (maxNum : Nat) : Heap Unit := ⟨fun _ => ⟨0, ()⟩, 1, maxNum⟩

theorem minheap_sustains_iff_two :
    Sustains minheapStep Kept Served (cleared 4, ⟨0, 0⟩) [.insert 3 (), .pop] ↔
      Admits minheapStep (fun s c => c.Ok s.1) (cleared 4, ⟨0, 0⟩) [.insert 3 (), .pop] :=
  minheap_sustains_iff () 4 (cleared 4) rfl [.insert 3 (), .pop]

def ascending (n : Nat) : List (Call Unit) := (List.range n).map fun i => .insert (i + 1 : Nat) ()

def ascendingNode (n i : Nat) : Node Unit := if 1 ≤ i ∧ i ≤ n then ⟨i, ()⟩ else ⟨0, ()⟩

/-- A heap of the keys from 1 on, each at its own position. -/
def filled (n maxNum : Nat) : Heap Unit := ⟨ascendingNode n, n + 1, maxNum⟩

theorem ascendingNode_key (hi : 1 ≤ i) (hin : i ≤ n) : (ascendingNode n i).key = i := by
  rw [ascendingNode, if_pos ⟨hi, hin⟩]

theorem ascendingNode_succ (n : Nat) :
    Function.update (ascendingNode n) (n + 1) ⟨(n + 1 : Nat), ()⟩ = ascendingNode (n + 1) := by
  funext i
  rcases eq_or_ne i (n + 1) with rfl | hi
  · rw [Function.update_self, ascendingNode, if_pos ⟨Nat.le_add_left _ _, Nat.le_refl _⟩]
  · rw [Function.update_of_ne hi, ascendingNode, ascendingNode]
    congr 1
    exact propext ⟨fun h => ⟨h.1, by omega⟩, fun h => ⟨h.1, by omega⟩⟩

theorem ascendingNode_zero : ascendingNode 0 = fun _ => ⟨0, ()⟩ := by
  funext i
  rw [ascendingNode, if_neg (by omega)]

/-- A largest key stays where it is inserted. -/
theorem filled_insert (hn : n + 1 < maxNum - 1) :
    minHeapInsert (filled n maxNum) (n + 1 : Nat) () = (filled (n + 1) maxNum, 0) := by
  have hloop : insertLoop (n + 1 : Nat) (n + 1) (n + 1) (ascendingNode (n + 1)) =
      ascendingNode (n + 1) := by
    rw [insertLoop]
    rcases Nat.eq_zero_or_pos n with rfl | hn
    · rfl
    · rw [getFatherIndex_of_le (by omega), if_neg (by omega),
        ascendingNode_key (by omega) (by omega), if_neg (by omega)]
  have hroom : ¬ (filled n maxNum).maxNum - 1 ≤ (filled n maxNum).lastIndex := Nat.not_le.2 hn
  rw [minHeapInsert, if_neg hroom]
  change ((⟨insertLoop _ (n + 1) (n + 1) (Function.update (ascendingNode n) (n + 1) _), _, _⟩ :
    Heap Unit), (0 : Int)) = _
  rw [ascendingNode_succ, hloop]
  rfl

theorem tryRun_ascending (hn : n < maxNum - 1) :
    ∃ ledger os, tryRun minheapStep (cleared maxNum, ⟨0, 0⟩) (ascending n) =
      some ((filled n maxNum, ledger), os) := by
  induction n with
  | zero =>
    rw [filled, ascendingNode_zero]
    exact ⟨⟨0, 0⟩, [], rfl⟩
  | succ n ih =>
    obtain ⟨ledger, os, hrun⟩ := ih (Nat.lt_of_succ_lt hn)
    have happend : ascending (n + 1) = ascending n ++ [.insert (n + 1 : Nat) ()] := by
      rw [ascending, List.range_succ, List.map_append]
      rfl
    have hstep : ∃ ledger' out, minheapStep (filled n maxNum, ledger) (.insert (n + 1 : Nat) ()) =
        some ((filled (n + 1) maxNum, ledger'), out) := by
      rw [minheapStep, heapStep, filled_insert hn]
      exact ⟨_, _, rfl⟩
    obtain ⟨ledger', out, hstep⟩ := hstep
    rw [happend]
    exact ⟨_, _, tryRun_concat hrun hstep⟩

theorem filled_smaller (hc : c % 2 = 0) (hc' : 1 ≤ c) (hn : c < n) :
    Smaller (filled n maxNum) c := by
  have hlast : (filled n maxNum).lastIndex - 1 = n := rfl
  refine ⟨hn, ?_, fun _ hin => ?_, fun hodd => by omega⟩
  · change (ascendingNode n c).key ≤ (ascendingNode n n).key
    rw [ascendingNode_key hc' (Nat.le_of_lt hn), ascendingNode_key (by omega) (Nat.le_refl n)]
    omega
  · change (ascendingNode n c).key < (ascendingNode n (c + 1)).key
    rw [hlast] at hin
    rw [ascendingNode_key hc' (Nat.le_of_lt hn), ascendingNode_key (by omega) (Nat.le_of_lt hin)]
    omega

/-- The last node sinks along the left children. -/
theorem filled_passed (hn : 2 ^ m < n) : Passed (filled n maxNum) (2 ^ m) := by
  intro k hk
  have hkm : k < m := by
    by_contra hkm
    have hpow := Nat.pow_le_pow_right (Nat.succ_pos 1) (Nat.not_lt.1 hkm)
    have hdiv : 2 ^ m / 2 ^ k ≤ 1 := Nat.div_le_of_le_mul (by rwa [Nat.mul_one])
    exact absurd (Nat.le_trans hk hdiv) (by decide)
  have hdiv := Nat.div_le_self (2 ^ m) (2 ^ k)
  refine filled_smaller ?_ (Nat.le_trans (by decide) hk) (Nat.lt_of_le_of_lt hdiv hn)
  obtain ⟨d, hd⟩ := Nat.exists_eq_add_of_lt hkm
  rw [Nat.pow_div (Nat.le_of_lt hkm) (Nat.succ_pos 1), hd, Nat.add_assoc, Nat.add_sub_cancel_left,
    Nat.pow_succ, Nat.mul_mod_left]

theorem ascending_overflows (hn : 2 ^ 30 < n) (hroom : n < maxNum - 1) :
    ¬ Sustains minheapStep Kept Served (cleared maxNum, ⟨0, 0⟩) (ascending n ++ [.pop]) := by
  intro hsustains
  have hinit : minHeapInit () maxNum = some (cleared maxNum) := if_neg (by omega)
  have hadmits := ((minHeapInit_holds hinit).sustains_iff _).1 hsustains
  obtain ⟨ledger, os, hrun⟩ := tryRun_ascending hroom
  exact hadmits.last hrun (2 ^ 30) (Nat.le_refl _) hn (filled_passed hn)

/-- Of so many increasing keys, the last sinks to a position whose double is not an `int32_t`. -/
theorem not_minheap_sustains :
    minHeapInit () 1073741827 = some (cleared 1073741827) ∧
      ¬ Sustains minheapStep Kept Served (cleared 1073741827, ⟨0, 0⟩)
        (ascending 1073741825 ++ [.pop]) :=
  ⟨if_neg (by omega), ascending_overflows (by omega) (by omega)⟩

end Witness

end BigBox.Minheap
