import Mathlib.Algebra.Order.Ring.Int
import Mathlib.Data.List.Chain
import Mathlib.Data.List.Nodup
import Mathlib.Logic.Function.Basic

namespace BigBox.Dlist
set_option autoImplicit true

/-- The links of a node of a doubly linked list. -/
structure ListHead (P : Type) where
  prev : Option P
  next : Option P
  deriving DecidableEq, Repr

section Operations
variable {P : Type} [DecidableEq P]

def setPrev (p : P) (prev : Option P) (heads : P → ListHead P) : P → ListHead P :=
  Function.update heads p { heads p with prev := prev }

def setNext (p : P) (next : Option P) (heads : P → ListHead P) : P → ListHead P :=
  Function.update heads p { heads p with next := next }

/-- A head that is linked to itself. -/
def initListHead (p : P) (heads : P → ListHead P) : P → ListHead P :=
  setPrev p (some p) (setNext p (some p) heads)

/-- A node is linked between two others. -/
def link (new prev next : P) (heads : P → ListHead P) : P → ListHead P :=
  setNext prev (some new) (setPrev new (some prev) (setNext new (some next)
    (setPrev next (some new) heads)))

/-- A node is linked behind another. -/
def listAdd (new head : P) (heads : P → ListHead P) : Option (P → ListHead P) :=
  (heads head).next.map fun next => link new head next heads

/-- A node is linked before another. -/
def listAddTail (new head : P) (heads : P → ListHead P) : Option (P → ListHead P) :=
  (heads head).prev.map fun prev => link new prev head heads

/-- The neighbours of a node are linked to each other. -/
def unlink (prev next : P) (heads : P → ListHead P) : P → ListHead P :=
  setNext prev (some next) (setPrev next (some prev) heads)

def listDel (entry : P) (heads : P → ListHead P) : Option (P → ListHead P) :=
  (heads entry).prev.bind fun prev => (heads entry).next.map fun next =>
    setPrev entry none (setNext entry none (unlink prev next heads))

/-- The nodes a loop visits that follows a link from a node on, until it is back at the head. -/
def walk (follow : P → Option P) (head : P) : Nat → P → Option (List P)
  | 0, _ => none
  | n + 1, p => (follow p).bind fun q =>
    if q = head then some [] else (walk follow head n q).map (q :: ·)

end Operations

section Chains
variable {P : Type} {heads : P → ListHead P} {head new : P} {nodes : List P}

/-- One node is followed by another, in both directions. -/
def Linked (heads : P → ListHead P) (p q : P) : Prop :=
  (heads p).next = some q ∧ (heads q).prev = some p

/-- The head and the nodes of a circular list. -/
structure Ring (heads : P → ListHead P) (head : P) (nodes : List P) : Prop where
  nodup : (head :: nodes).Nodup
  linked : (head :: nodes ++ [head]).IsChain (Linked heads)

/-- Links that stay. -/
theorem isChain_congr {heads heads' : P → ListHead P} {l : List P} (h : l.IsChain (Linked heads))
    (hnext : ∀ p ∈ l.dropLast, (heads' p).next = (heads p).next)
    (hprev : ∀ p ∈ l.tail, (heads' p).prev = (heads p).prev) : l.IsChain (Linked heads') := by
  induction l with
  | nil => exact .nil
  | cons p l ih =>
    cases l with
    | nil => exact .singleton p
    | cons q l =>
      obtain ⟨⟨hpq, hqp⟩, hrest⟩ := List.isChain_cons_cons.1 h
      refine List.isChain_cons_cons.2 ⟨⟨?_, ?_⟩, ih hrest (fun p' hp' => ?_) fun p' hp' => ?_⟩
      · rw [hnext p List.mem_cons_self, hpq]
      · rw [hprev q List.mem_cons_self, hqp]
      · exact hnext p' (List.mem_cons_of_mem _ hp')
      · exact hprev p' (List.mem_cons_of_mem _ hp')

/-- A circular list cut between two of its nodes: none of the links but theirs lead from the first
or to the second. -/
structure Cut (head : P) (nodes : List P) (front : List P) (p q : P) (back : List P) : Prop where
  eq : head :: nodes ++ [head] = front ++ p :: q :: back
  sources : p ∉ front ∧ p ∉ (q :: back).dropLast
  targets : q ∉ (front ++ [p]).tail ∧ q ∉ back

theorem Cut.of_nodup {nodes : List P} (hnodup : (head :: nodes).Nodup)
    (h : head :: nodes ++ [head] = front ++ p :: q :: back) : Cut head nodes front p q back := by
  have hsources : head :: nodes = front ++ p :: (q :: back).dropLast := by
    have hlast := congrArg List.dropLast h
    rwa [List.dropLast_concat, List.dropLast_append_cons, List.dropLast_cons_cons] at hlast
  have htargets : nodes ++ [head] = (front ++ [p]).tail ++ q :: back := by
    have htail := congrArg List.tail h
    cases front with
    | nil => exact htail
    | cons x front =>
      rw [List.cons_append, List.tail_cons, List.append_assoc]
      exact htail
  have hnodup' : (nodes ++ [head]).Nodup :=
    (List.perm_append_singleton head nodes).nodup_iff.2 hnodup
  rw [hsources, List.nodup_append] at hnodup
  rw [htargets, List.nodup_append] at hnodup'
  refine ⟨h, ⟨fun hp => hnodup.2.2 p hp p List.mem_cons_self rfl, ?_⟩,
    fun hq => hnodup'.2.2 q hq q List.mem_cons_self rfl, ?_⟩
  · exact (List.nodup_cons.1 hnodup.2.1).1
  · exact (List.nodup_cons.1 hnodup'.2.1).1

theorem exists_cons_concat (l : List P) (x : P) : ∃ y l', l ++ [x] = y :: l' := by
  cases l with
  | nil => exact ⟨x, [], rfl⟩
  | cons y l => exact ⟨y, l ++ [x], rfl⟩

theorem Ring.next_eq (h : Ring heads head nodes)
    (he : head :: nodes ++ [head] = front ++ p :: q :: back) : (heads p).next = some q := by
  have hchain := h.linked
  rw [he, List.isChain_append_cons_cons] at hchain
  exact hchain.2.1.1

theorem Ring.prev_eq (h : Ring heads head nodes)
    (he : head :: nodes ++ [head] = front ++ p :: q :: back) : (heads q).prev = some p := by
  have hchain := h.linked
  rw [he, List.isChain_append_cons_cons] at hchain
  exact hchain.2.1.2

theorem Ring.first_eq (h : Ring heads head nodes) (hp : nodes ++ [head] = p :: back) :
    (heads head).next = some p := by
  have he : head :: nodes ++ [head] = [] ++ head :: p :: back := by
    rw [List.cons_append, hp]
    rfl
  exact h.next_eq he

theorem Ring.of_perm (h : Ring heads head nodes) (hnew : new ∉ head :: nodes)
    (hperm : nodes'.Perm (new :: nodes)) : (head :: nodes').Nodup := by
  have hcons : (head :: nodes').Perm (new :: head :: nodes) :=
    (hperm.cons head).trans (List.Perm.swap new head nodes)
  rw [hcons.nodup_iff]
  exact List.nodup_cons.2 ⟨hnew, h.nodup⟩

/-- Every node of a circular list has neighbours that are linked to it. -/
theorem Ring.neighbours (h : Ring heads head nodes) (hp : p ∈ head :: nodes) :
    ∃ prev next, Linked heads prev p ∧ Linked heads p next := by
  obtain ⟨front, rest, hsplit⟩ := List.append_of_mem hp
  obtain ⟨next, back, hback⟩ := exists_cons_concat rest head
  have hnext : Linked heads p next := by
    have hchain := h.linked
    rw [hsplit, List.append_assoc, List.cons_append, hback, List.isChain_append_cons_cons] at hchain
    exact hchain.2.1
  have hp' : p ∈ nodes ++ [head] :=
    (List.perm_append_singleton head nodes).mem_iff.2 hp
  obtain ⟨middle, back', hsplit'⟩ := List.append_of_mem hp'
  have hfront : ∃ front x, head :: middle = front ++ [x] :=
    ⟨_, _, (List.dropLast_append_getLast (List.cons_ne_nil head middle)).symm⟩
  obtain ⟨front', x, hfront⟩ := hfront
  have hprev : Linked heads x p := by
    have hchain := h.linked
    rw [List.cons_append, hsplit', ← List.cons_append, hfront, List.append_assoc,
      List.singleton_append, List.isChain_append_cons_cons] at hchain
    exact hchain.2.1
  exact ⟨x, next, hprev, hnext⟩

end Chains

section Links
variable {P : Type} [DecidableEq P]

@[simp] theorem setPrev_next (p q : P) (prev : Option P) (heads : P → ListHead P) :
    (setPrev p prev heads q).next = (heads q).next := by
  rw [setPrev, Function.update_apply]
  split
  case isTrue h => rw [h]
  case isFalse => rfl

@[simp] theorem setNext_prev (p q : P) (next : Option P) (heads : P → ListHead P) :
    (setNext p next heads q).prev = (heads q).prev := by
  rw [setNext, Function.update_apply]
  split
  case isTrue h => rw [h]
  case isFalse => rfl

theorem setPrev_prev (p q : P) (prev : Option P) (heads : P → ListHead P) :
    (setPrev p prev heads q).prev = if q = p then prev else (heads q).prev := by
  rw [setPrev, Function.update_apply]
  split
  case isTrue => rfl
  case isFalse => rfl

theorem setNext_next (p q : P) (next : Option P) (heads : P → ListHead P) :
    (setNext p next heads q).next = if q = p then next else (heads q).next := by
  rw [setNext, Function.update_apply]
  split
  case isTrue => rfl
  case isFalse => rfl

theorem link_next (new p q x : P) (heads : P → ListHead P) : (link new p q heads x).next =
    if x = p then some new else if x = new then some q else (heads x).next := by
  rw [link, setNext_next, setPrev_next, setNext_next, setPrev_next]

theorem link_prev (new p q x : P) (heads : P → ListHead P) : (link new p q heads x).prev =
    if x = new then some p else if x = q then some new else (heads x).prev := by
  rw [link, setNext_prev, setPrev_prev, setNext_prev, setPrev_prev]

/-- A new node is linked into the cut. -/
theorem Cut.link {heads : P → ListHead P} (cut : Cut head nodes front p q back)
    (h : Ring heads head nodes) (hnew : new ∉ head :: nodes) :
    (front ++ p :: new :: q :: back).IsChain (Linked (link new p q heads)) := by
  have hout : ∀ x ∈ front ++ p :: q :: back, x ≠ new := by
    rw [← cut.eq]
    rintro x hx rfl
    rcases List.mem_append.1 hx with hx | hx
    · exact hnew hx
    · rw [List.mem_singleton.1 hx] at hnew
      exact hnew List.mem_cons_self
  have hp : p ≠ new := hout p (List.mem_append_right _ List.mem_cons_self)
  have hq : q ≠ new := hout q (List.mem_append_right _ (.tail _ List.mem_cons_self))
  have hchain := h.linked
  rw [cut.eq, List.isChain_append_cons_cons] at hchain
  obtain ⟨hfront, _, hback⟩ := hchain
  rw [List.isChain_append_cons_cons, List.isChain_cons_cons]
  refine ⟨isChain_congr hfront (fun x hx => ?_) fun x hx => ?_, ⟨?_, ?_⟩, ⟨?_, ?_⟩,
    isChain_congr hback (fun x hx => ?_) fun x hx => ?_⟩
  · rw [List.dropLast_concat] at hx
    rw [link_next, if_neg (ne_of_mem_of_not_mem hx cut.sources.1),
      if_neg (hout x (List.mem_append_left _ hx))]
  · have hin : x ∈ front ++ p :: q :: back := by
      have hx' := List.mem_of_mem_tail hx
      rw [List.append_cons]
      exact List.mem_append_left _ hx'
    rw [link_prev, if_neg (hout x hin), if_neg (ne_of_mem_of_not_mem hx cut.targets.1)]
  · rw [link_next, if_pos rfl]
  · rw [link_prev, if_pos rfl]
  · rw [link_next, if_neg hp.symm, if_pos rfl]
  · rw [link_prev, if_neg hq, if_pos rfl]
  · have hin : x ∈ front ++ p :: q :: back :=
      List.mem_append_right _ (.tail _ (List.dropLast_subset _ hx))
    rw [link_next, if_neg (ne_of_mem_of_not_mem hx cut.sources.2), if_neg (hout x hin)]
  · have hin : x ∈ front ++ p :: q :: back := List.mem_append_right _ (.tail _ (.tail _ hx))
    rw [link_prev, if_neg (hout x hin), if_neg (ne_of_mem_of_not_mem hx cut.targets.2)]

theorem listDel_next (e p q x : P) (heads : P → ListHead P) :
    (setPrev e none (setNext e none (unlink p q heads)) x).next =
      if x = e then none else if x = p then some q else (heads x).next := by
  rw [setPrev_next, setNext_next, unlink, setNext_next, setPrev_next]

theorem listDel_prev (e p q x : P) (heads : P → ListHead P) :
    (setPrev e none (setNext e none (unlink p q heads)) x).prev =
      if x = e then none else if x = q then some p else (heads x).prev := by
  rw [setPrev_prev, setNext_prev, unlink, setNext_prev, setPrev_prev]

/-- A node between two cuts is unlinked. -/
theorem Cut.unlink {heads : P → ListHead P} (cut : Cut head nodes front p e (q :: back))
    (cut' : Cut head nodes (front ++ [p]) e q back) (h : Ring heads head nodes) :
    (front ++ p :: q :: back).IsChain
      (Linked (setPrev e none (setNext e none (unlink p q heads)))) := by
  have hchain := h.linked
  rw [cut.eq, List.isChain_append_cons_cons, List.isChain_cons_cons] at hchain
  obtain ⟨hfront, _, _, hback⟩ := hchain
  have hsource := cut.sources.2
  rw [List.dropLast_cons_cons] at hsource
  have htarget := cut'.targets.1
  have htail : (front ++ [p] ++ [e]).tail = (front ++ [p]).tail ++ [e] :=
    List.tail_append_of_ne_nil (List.append_ne_nil_of_right_ne_nil _ (List.cons_ne_nil _ _))
  rw [htail] at htarget
  have hep : p ≠ e := fun he => cut'.sources.1 (he ▸ List.mem_append_right _ List.mem_cons_self)
  have heq : q ≠ e := fun he => cut.targets.2 (he ▸ List.mem_cons_self)
  rw [List.isChain_append_cons_cons]
  refine ⟨isChain_congr hfront (fun x hx => ?_) fun x hx => ?_, ⟨?_, ?_⟩,
    isChain_congr hback (fun x hx => ?_) fun x hx => ?_⟩
  · rw [List.dropLast_concat] at hx
    rw [listDel_next, if_neg (ne_of_mem_of_not_mem (List.mem_append_left _ hx) cut'.sources.1),
      if_neg (ne_of_mem_of_not_mem hx cut.sources.1)]
  · rw [listDel_prev, if_neg (ne_of_mem_of_not_mem hx cut.targets.1),
      if_neg (ne_of_mem_of_not_mem (List.mem_append_left _ hx) htarget)]
  · rw [listDel_next, if_neg hep, if_pos rfl]
  · rw [listDel_prev, if_neg heq, if_pos rfl]
  · rw [listDel_next, if_neg (ne_of_mem_of_not_mem hx cut'.sources.2),
      if_neg (ne_of_mem_of_not_mem (List.mem_cons_of_mem _ hx) hsource)]
  · rw [listDel_prev, if_neg (ne_of_mem_of_not_mem (List.mem_cons_of_mem _ hx) cut.targets.2),
      if_neg (ne_of_mem_of_not_mem hx cut'.targets.2)]

end Links

section Rings
variable {P : Type} [DecidableEq P] {heads : P → ListHead P} {head new : P} {nodes : List P}

/-- A node is linked behind the head or a node. -/
theorem Ring.listAdd (h : Ring heads head nodes) (hnew : new ∉ head :: nodes)
    (front : List P) (p : P) (rest nodes' : List P)
    (hsplit : head :: nodes = front ++ p :: rest)
    (hsplit' : head :: nodes' = front ++ p :: new :: rest) :
    ∃ heads', listAdd new p heads = some heads' ∧ Ring heads' head nodes' := by
  obtain ⟨q, back, hback⟩ := exists_cons_concat rest head
  have he : head :: nodes ++ [head] = front ++ p :: q :: back := by
    rw [hsplit, List.append_assoc, List.cons_append, hback]
  have he' : head :: nodes' ++ [head] = front ++ p :: new :: q :: back := by
    rw [hsplit', List.append_assoc, List.cons_append, List.cons_append, hback]
  have hperm : nodes'.Perm (new :: nodes) := by
    rw [← List.perm_cons head, hsplit']
    have hmiddle : (front ++ p :: new :: rest).Perm (new :: (front ++ p :: rest)) := by
      rw [List.append_cons, List.append_cons front p rest]
      exact List.perm_middle
    rw [← hsplit] at hmiddle
    exact hmiddle.trans (List.Perm.swap head new nodes)
  refine ⟨link new p q heads, ?_, h.of_perm hnew hperm, ?_⟩
  · rw [Dlist.listAdd, h.next_eq he]
    rfl
  · rw [he']
    exact (Cut.of_nodup h.nodup he).link h hnew

/-- A node is linked before the head or a node. -/
theorem Ring.listAddTail (h : Ring heads head nodes) (hnew : new ∉ head :: nodes)
    (middle : List P) (p : P) (back nodes' : List P)
    (hsplit : nodes ++ [head] = middle ++ p :: back)
    (hsplit' : nodes' ++ [head] = middle ++ new :: p :: back) :
    ∃ heads', listAddTail new p heads = some heads' ∧ Ring heads' head nodes' := by
  have hfront : ∃ front x, head :: middle = front ++ [x] :=
    ⟨_, _, (List.dropLast_append_getLast (List.cons_ne_nil head middle)).symm⟩
  obtain ⟨front, x, hfront⟩ := hfront
  have he : head :: nodes ++ [head] = front ++ x :: p :: back := by
    rw [List.cons_append, hsplit, ← List.cons_append, hfront, List.append_assoc]
    rfl
  have he' : head :: nodes' ++ [head] = front ++ x :: new :: p :: back := by
    rw [List.cons_append, hsplit', ← List.cons_append, hfront, List.append_assoc]
    rfl
  have hperm : nodes'.Perm (new :: nodes) := by
    rw [← List.perm_append_right_iff [head], hsplit', List.cons_append, hsplit]
    exact List.perm_middle
  refine ⟨link new x p heads, ?_, h.of_perm hnew hperm, ?_⟩
  · rw [Dlist.listAddTail, h.prev_eq he]
    rfl
  · rw [he']
    exact (Cut.of_nodup h.nodup he).link h hnew

/-- A node is unlinked. -/
theorem Ring.listDel (h : Ring heads head (middle ++ e :: rest)) :
    ∃ heads' next, listDel e heads = some heads' ∧ (heads e).next = some next ∧
      (rest ++ [head]).head? = some next ∧ Ring heads' head (middle ++ rest) ∧
      (heads' e).next = none ∧ (heads' e).prev = none := by
  have hfront : ∃ front x, head :: middle = front ++ [x] :=
    ⟨_, _, (List.dropLast_append_getLast (List.cons_ne_nil head middle)).symm⟩
  obtain ⟨front, x, hfront⟩ := hfront
  obtain ⟨q, back, hback⟩ := exists_cons_concat rest head
  have he : head :: (middle ++ e :: rest) ++ [head] = front ++ x :: e :: q :: back := by
    rw [List.cons_append, List.append_assoc, List.cons_append, hback, ← List.cons_append, hfront,
      List.append_assoc]
    rfl
  have he' : head :: (middle ++ e :: rest) ++ [head] = front ++ [x] ++ e :: q :: back := by
    rw [he, List.append_cons]
  have hrest : head :: (middle ++ rest) ++ [head] = front ++ x :: q :: back := by
    rw [List.cons_append, List.append_assoc, hback, ← List.cons_append, hfront, List.append_assoc]
    rfl
  have hnodup : (head :: (middle ++ rest)).Nodup :=
    h.nodup.sublist (((List.sublist_cons_self e rest).append_left middle).cons_cons head)
  have hprev := h.prev_eq he
  have hnext := h.next_eq he'
  refine ⟨setPrev e none (setNext e none (unlink x q heads)), q, ?_, hnext, ?_, ⟨hnodup, ?_⟩, ?_,
    ?_⟩
  · rw [Dlist.listDel, hprev, hnext]
    rfl
  · rw [hback]
    rfl
  · rw [hrest]
    exact (Cut.of_nodup h.nodup he).unlink (Cut.of_nodup h.nodup he') h
  · rw [listDel_next, if_pos rfl]
  · rw [listDel_prev, if_pos rfl]

/-- Following the links of a chain visits its nodes. -/
theorem walk_chain {follow : P → Option P}
    (hchain : (p :: l ++ [head]).IsChain fun x y => follow x = some y)
    (hhead : head ∉ l) (hn : l.length < n) : walk follow head n p = some l := by
  induction l generalizing n p with
  | nil =>
    obtain ⟨n, rfl⟩ : ∃ m, n = m + 1 := ⟨n - 1, by rw [List.length_nil] at hn; omega⟩
    have hstep : follow p = some head := (List.isChain_cons_cons.1 hchain).1
    rw [walk, hstep, Option.bind_some, if_pos rfl]
  | cons q l ih =>
    obtain ⟨n, rfl⟩ : ∃ m, n = m + 1 := ⟨n - 1, by rw [List.length_cons] at hn; omega⟩
    obtain ⟨hstep, hrest⟩ := List.isChain_cons_cons.1 hchain
    rw [List.mem_cons, not_or] at hhead
    rw [walk, hstep, Option.bind_some, if_neg (Ne.symm hhead.1),
      ih hrest hhead.2 (Nat.lt_of_succ_lt_succ hn)]
    rfl

theorem Ring.forward (h : Ring heads head nodes) (hn : nodes.length < n) :
    walk (fun p => (heads p).next) head n head = some nodes := by
  apply walk_chain _ (List.nodup_cons.1 h.nodup).1 hn
  exact h.linked.imp fun _ _ hlinked => hlinked.1

theorem Ring.backward (h : Ring heads head nodes) (hn : nodes.length < n) :
    walk (fun p => (heads p).prev) head n head = some nodes.reverse := by
  have hhead := (List.nodup_cons.1 h.nodup).1
  apply walk_chain _ (fun hin => hhead (List.mem_reverse.1 hin)) (by rwa [List.length_reverse])
  have hreverse : head :: nodes.reverse ++ [head] = (head :: nodes ++ [head]).reverse := by
    rw [List.reverse_append, List.reverse_singleton, List.reverse_cons]
    rfl
  rw [hreverse, List.isChain_reverse]
  exact h.linked.imp fun _ _ hlinked => hlinked.2

end Rings

end BigBox.Dlist
