import BigBox.Lib.Dlist
import BigBox.Lib.TryRun

namespace BigBox.Cstl.DoublyLinked
open Dlist
set_option autoImplicit true

/-- `struct __list`: the pointer to its head, the links and the data of the nodes, the blocks
that are allocated and whether it was made with callbacks. -/
structure ListT (D : Type) where
  head : Nat
  heads : Nat → ListHead Nat
  data : Nat → D
  size : Nat
  blocks : List Nat
  listOps : Bool

section Calls
variable {D : Type}

def listNew (head : Nat) (heads : Nat → ListHead Nat) (data : Nat → D) (listOps : Bool) : ListT D :=
  ⟨head, initListHead head heads, data, 0, [], listOps⟩

/-- A node is allocated at the address `calloc` returns and takes the data. -/
def ListT.alloc (data : D) (node : Nat) (heads : Nat → ListHead Nat) (l : ListT D) : ListT D :=
  { l with
    heads := heads
    data := Function.update l.data node data
    size := l.size + 1
    blocks := node :: l.blocks }

/-- The result is the iterator that is returned. -/
def listInsert (pos : Option Nat) (data : D) (node : Nat) (l : ListT D) :
    Option (ListT D × Option Nat) :=
  match pos with
  | none => some (l, none)
  | some pos => (listAdd node pos l.heads).map fun heads => (l.alloc data node heads, some node)

def listPushFront (data : D) (node : Nat) (l : ListT D) : Option (ListT D × Option Nat) :=
  listInsert (some l.head) data node l

def listPushBack (data : D) (node : Nat) (l : ListT D) : Option (ListT D × Option Nat) :=
  listInsert (l.heads l.head).prev data node l

def listInsertBefore (pos : Nat) (data : D) (node : Nat) (l : ListT D) :
    Option (ListT D × Option Nat) :=
  (listAddTail node pos l.heads).map fun heads => (l.alloc data node heads, some node)

/-- The callbacks are read without a check, and only an allocated node can be freed. -/
def listErase (it : Nat) (l : ListT D) : Option (ListT D × Option Nat) :=
  (listDel it l.heads).bind fun heads =>
    if l.listOps = true ∧ it ∈ l.blocks then
      some ({ l with heads := heads, size := l.size - 1, blocks := l.blocks.erase it },
        (l.heads it).next)
    else none

/-- The loop of `reverse_list`. -/
def reverseLoop : Nat → Option Nat → Option Nat → (Nat → ListHead Nat) →
    Option ((Nat → ListHead Nat) × Option Nat)
  | 0, _, _, _ => none
  | _ + 1, none, prev, heads => some (heads, prev)
  | n + 1, some pnode, prev, heads =>
    reverseLoop n (heads pnode).next (some pnode)
      (Function.update heads pnode ⟨(heads pnode).next, prev⟩)

def reverseList (l : ListT D) : Option (ListT D) :=
  (reverseLoop (l.size + 3) (some l.head) none l.heads).bind fun r =>
    r.2.map fun prev => { l with heads := Function.update r.1 l.head (r.1 prev) }

/-- A call, with the address `calloc` returns where a node is allocated. -/
inductive Call (D : Type) where
  | insert (pos : Nat) (data : D) (node : Nat)
  | insertBefore (pos : Nat) (data : D) (node : Nat)
  | pushFront (data : D) (node : Nat)
  | pushBack (data : D) (node : Nat)
  | erase (it : Nat)
  | reverse

def listStep (l : ListT D) : Call D → Option (ListT D × Option Nat)
  | .insert pos data node => listInsert (some pos) data node l
  | .insertBefore pos data node => listInsertBefore pos data node l
  | .pushFront data node => listPushFront data node l
  | .pushBack data node => listPushBack data node l
  | .erase it => listErase it l
  | .reverse => (reverseList l).map fun l => (l, none)

/-- Positions are the head or nodes of the list, and nodes are allocated apart from these. -/
def Call.Valid (l : ListT D) : Call D → Prop
  | .insert pos _ node => pos ∈ l.head :: l.blocks ∧ node ∉ l.head :: l.blocks
  | .insertBefore pos _ node => pos ∈ l.head :: l.blocks ∧ node ∉ l.head :: l.blocks
  | .pushFront _ node => node ∉ l.head :: l.blocks
  | .pushBack _ node => node ∉ l.head :: l.blocks
  | .erase it => it ∈ l.head :: l.blocks
  | .reverse => True

/-- The reference sequence: the nodes in order, with their data. -/
def specStep (head : Nat) (t : List (Nat × D)) : Call D → List (Nat × D) × Option Nat
  | .insert pos data node =>
    (if pos = head then (node, data) :: t
      else t.flatMap fun e => if e.1 = pos then [e, (node, data)] else [e], some node)
  | .insertBefore pos data node =>
    (if pos = head then t ++ [(node, data)]
      else t.flatMap fun e => if e.1 = pos then [(node, data), e] else [e], some node)
  | .pushFront data node => ((node, data) :: t, some node)
  | .pushBack data node => (t ++ [(node, data)], some node)
  | .erase it =>
    (t.filter fun e => e.1 ≠ it,
      (((t.dropWhile fun e => e.1 ≠ it).tail.map Prod.fst) ++ [head]).head?)
  | .reverse => (t.reverse, none)

/-- The nodes a traversal visits, with their data. -/
def ListT.traverse (follow : ListHead Nat → Option Nat) (l : ListT D) : Option (List (Nat × D)) :=
  (walk (fun p => follow (l.heads p)) l.head (l.size + 1) l.head).map fun nodes =>
    nodes.map fun p => (p, l.data p)

/-- A well-formed list of a reference sequence. -/
structure ListT.WellFormed (l : ListT D) (t : List (Nat × D)) : Prop where
  linked : ∀ p ∈ l.head :: t.map Prod.fst, ∃ prev next,
    (l.heads p).next = some next ∧ (l.heads next).prev = some p ∧
      (l.heads p).prev = some prev ∧ (l.heads prev).next = some p
  forward : l.traverse ListHead.next = some t
  backward : l.traverse ListHead.prev = some t.reverse
  size_eq : l.size = t.length

/-- The calls that keep a list well-formed. -/
def Call.Ok (head : Nat) (listOps : Bool) : Call D → Prop
  | .erase it => listOps = true ∧ it ≠ head
  | .reverse => False
  | _ => True

end Calls

set_option autoImplicit true

section Keeps
variable {D : Type} {l : ListT D} {t t' : List (Nat × D)} {head : Nat}

/-- The links of a list form a circle of the reference sequence. -/
structure Holds (head : Nat) (listOps : Bool) (l : ListT D) (t : List (Nat × D)) : Prop where
  head_eq : l.head = head
  listOps_eq : l.listOps = listOps
  ring : Ring l.heads head (t.map Prod.fst)
  data_eq : ∀ e ∈ t, l.data e.1 = e.2
  size_eq : l.size = t.length
  blocks : l.blocks.Perm (t.map Prod.fst)

theorem Holds.mem_iff (h : Holds head listOps l t) :
    p ∈ l.head :: l.blocks ↔ p ∈ head :: t.map Prod.fst := by
  rw [h.head_eq]
  exact (h.blocks.cons head).mem_iff

/-- The nodes and data of a circle are what traversals see. -/
theorem Holds.wellFormed (h : Holds head listOps l t) : l.WellFormed t := by
  have hdata : (t.map Prod.fst).map (fun p => (p, l.data p)) = t := by
    rw [List.map_map]
    refine (List.map_congr_left fun e he => ?_).trans (List.map_id t)
    exact Prod.ext rfl (h.data_eq e he)
  have hlen : (t.map Prod.fst).length < l.size + 1 := by
    rw [List.length_map, h.size_eq]
    exact Nat.lt_succ_self _
  refine ⟨fun p hp => ?_, ?_, ?_, h.size_eq⟩
  · rw [h.head_eq] at hp
    obtain ⟨prev, next, hprev, hnext⟩ := h.ring.neighbours hp
    exact ⟨prev, next, hnext.1, hnext.2, hprev.2, hprev.1⟩
  · rw [ListT.traverse, h.head_eq, h.ring.forward hlen]
    exact congrArg some hdata
  · rw [ListT.traverse, h.head_eq, h.ring.backward hlen, Option.map_some, List.map_reverse, hdata]

/-- A new node takes its place in the reference sequence. -/
theorem Holds.alloc (h : Holds head listOps l t) (hnew : node ∉ head :: t.map Prod.fst)
    (hring : Ring heads head (t'.map Prod.fst)) (hperm : t'.Perm ((node, data) :: t)) :
    Holds head listOps (l.alloc data node heads) t' := by
  have hfst := hperm.map Prod.fst
  refine ⟨h.head_eq, h.listOps_eq, hring, fun e he => ?_, ?_, (h.blocks.cons node).trans hfst.symm⟩
  · change Function.update l.data node data e.1 = e.2
    rcases List.mem_cons.1 (hperm.mem_iff.1 he) with rfl | he
    · exact Function.update_self ..
    · have hne : e.1 ≠ node := by
        rintro rfl
        exact hnew (List.mem_cons_of_mem _ (List.mem_map_of_mem he))
      rw [Function.update_of_ne hne, h.data_eq e he]
  · rw [hperm.length_eq, List.length_cons, ← h.size_eq]
    rfl

theorem flatMap_of_not_mem {f : Nat × D → List (Nat × D)} (h : ∀ e ∈ t, f e = [e]) :
    t.flatMap f = t := by
  induction t with
  | nil => rfl
  | cons e t ih =>
    rw [List.flatMap_cons, h e List.mem_cons_self,
      ih fun e he => h e (List.mem_cons_of_mem _ he)]
    rfl

/-- The place of a node in the reference sequence. -/
theorem exists_place (hnodup : (t.map Prod.fst).Nodup) (hp : p ∈ t.map Prod.fst) :
    ∃ a e b, t = a ++ e :: b ∧ e.1 = p ∧ (∀ x ∈ a, x.1 ≠ p) ∧ ∀ x ∈ b, x.1 ≠ p := by
  obtain ⟨e, he, rfl⟩ := List.mem_map.1 hp
  obtain ⟨a, b, rfl⟩ := List.append_of_mem he
  rw [List.map_append, List.map_cons, List.nodup_append, List.nodup_cons] at hnodup
  refine ⟨a, e, b, rfl, rfl, fun x hx => ?_, fun x hx hxe => ?_⟩
  · exact hnodup.2.2 x.1 (List.mem_map_of_mem hx) e.1 List.mem_cons_self
  · exact hnodup.2.1.1 (hxe ▸ List.mem_map_of_mem hx)

theorem flatMap_place {f : Nat × D → List (Nat × D)} (h : ∀ x, x.1 ≠ p → f x = [x])
    (ha : ∀ x ∈ a, x.1 ≠ p) (hb : ∀ x ∈ b, x.1 ≠ p) :
    (a ++ e :: b).flatMap f = a ++ f e ++ b := by
  rw [List.flatMap_append, List.flatMap_cons, flatMap_of_not_mem fun x hx => h x (ha x hx),
    flatMap_of_not_mem fun x hx => h x (hb x hx), List.append_assoc]

theorem Holds.insert (h : Holds head listOps l t) (hpos : pos ∈ head :: t.map Prod.fst)
    (hnew : node ∉ head :: t.map Prod.fst) (data : D) :
    ∃ l', listInsert (some pos) data node l = some (l', some node) ∧
      Holds head listOps l' (specStep head t (.insert pos data node)).1 := by
  rw [listInsert, specStep]
  by_cases hhead : pos = head
  · obtain ⟨heads, hadd, hring⟩ := h.ring.listAdd hnew [] pos _ (node :: t.map Prod.fst)
      (by rw [hhead]; rfl) (by rw [hhead]; rfl)
    rw [if_pos hhead, hadd]
    exact ⟨_, rfl, h.alloc hnew hring (.refl _)⟩
  · have hmem := (List.mem_cons.1 hpos).resolve_left hhead
    obtain ⟨a, e, b, rfl, rfl, ha, hb⟩ := exists_place (List.nodup_cons.1 h.ring.nodup).2 hmem
    have hplace : ((a ++ e :: b).flatMap fun x => if x.1 = e.1 then [x, (node, data)] else [x]) =
        a ++ [e, (node, data)] ++ b := by
      rw [flatMap_place (fun x hx => if_neg hx) ha hb, if_pos rfl]
    obtain ⟨heads, hadd, hring⟩ := h.ring.listAdd hnew (head :: a.map Prod.fst) e.1
      (b.map Prod.fst) ((a ++ [e, (node, data)] ++ b).map Prod.fst)
      (by rw [List.map_append, List.map_cons]; rfl)
      (by rw [List.append_assoc, List.map_append]; rfl)
    rw [if_neg hhead, hplace, hadd]
    refine ⟨_, rfl, h.alloc hnew hring ?_⟩
    rw [List.append_assoc]
    have hmiddle : (a ++ e :: (node, data) :: b).Perm ((node, data) :: (a ++ e :: b)) := by
      rw [List.append_cons, List.append_cons a e b]
      exact List.perm_middle
    exact hmiddle

theorem Holds.insertBefore (h : Holds head listOps l t) (hpos : pos ∈ head :: t.map Prod.fst)
    (hnew : node ∉ head :: t.map Prod.fst) (data : D) :
    ∃ l', listInsertBefore pos data node l = some (l', some node) ∧
      Holds head listOps l' (specStep head t (.insertBefore pos data node)).1 := by
  rw [listInsertBefore, specStep]
  by_cases hhead : pos = head
  · obtain ⟨heads, hadd, hring⟩ := h.ring.listAddTail hnew (t.map Prod.fst) pos []
      ((t ++ [(node, data)]).map Prod.fst)
      (by rw [hhead]) (by rw [hhead, List.map_append, List.append_assoc]; rfl)
    rw [if_pos hhead, hadd]
    exact ⟨_, rfl, h.alloc hnew hring (List.perm_append_singleton _ _)⟩
  · have hmem := (List.mem_cons.1 hpos).resolve_left hhead
    obtain ⟨a, e, b, rfl, rfl, ha, hb⟩ := exists_place (List.nodup_cons.1 h.ring.nodup).2 hmem
    have hplace : ((a ++ e :: b).flatMap fun x => if x.1 = e.1 then [(node, data), x] else [x]) =
        a ++ [(node, data), e] ++ b := by
      rw [flatMap_place (fun x hx => if_neg hx) ha hb, if_pos rfl]
    obtain ⟨heads, hadd, hring⟩ := h.ring.listAddTail hnew (a.map Prod.fst) e.1
      (b.map Prod.fst ++ [head]) ((a ++ [(node, data), e] ++ b).map Prod.fst)
      (by rw [List.map_append, List.map_cons, List.append_assoc]; rfl)
      (by rw [List.append_assoc, List.map_append, List.append_assoc]; rfl)
    rw [if_neg hhead, hplace, hadd]
    refine ⟨_, rfl, h.alloc hnew hring ?_⟩
    rw [List.append_assoc]
    exact List.perm_middle

theorem Holds.pushBack (h : Holds head listOps l t) (hnew : node ∉ head :: t.map Prod.fst)
    (data : D) : ∃ l', listPushBack data node l = some (l', some node) ∧
      Holds head listOps l' (t ++ [(node, data)]) := by
  have hlast : ∃ front x, head :: t.map Prod.fst = front ++ [x] :=
    ⟨_, _, (List.dropLast_append_getLast (List.cons_ne_nil head _)).symm⟩
  obtain ⟨front, x, hlast⟩ := hlast
  have hprev : (l.heads head).prev = some x := by
    have hend : head :: t.map Prod.fst ++ [head] = front ++ x :: head :: [] := by
      rw [hlast, List.append_assoc]
      rfl
    exact h.ring.prev_eq hend
  obtain ⟨heads, hadd, hring⟩ := h.ring.listAdd hnew front x []
    ((t ++ [(node, data)]).map Prod.fst) hlast
    (by rw [List.map_append, ← List.cons_append, hlast, List.append_assoc]; rfl)
  rw [listPushBack, h.head_eq, hprev, listInsert, hadd]
  exact ⟨_, rfl, h.alloc hnew hring (List.perm_append_singleton _ _)⟩

theorem Holds.erase (h : Holds head true l t) (hit : it ∈ t.map Prod.fst) :
    ∃ l', listErase it l = some (l', (specStep head t (.erase it)).2) ∧
      Holds head true l' (specStep head t (.erase it)).1 := by
  obtain ⟨a, e, b, rfl, rfl, ha, hb⟩ := exists_place (List.nodup_cons.1 h.ring.nodup).2 hit
  have hring := h.ring
  rw [List.map_append, List.map_cons] at hring
  obtain ⟨heads, next, hdel, hnext, hhead, hring', _⟩ := hring.listDel
  have hfilter : ((a ++ e :: b).filter fun x => x.1 ≠ e.1) = a ++ b := by
    rw [List.filter_append, List.filter_cons_of_neg (by simp),
      List.filter_eq_self.2 (by simpa using ha), List.filter_eq_self.2 (by simpa using hb)]
  have hdrop : (a ++ e :: b).dropWhile (fun x => x.1 ≠ e.1) = e :: b := by
    rw [List.dropWhile_append_of_pos (by simpa using ha), List.dropWhile_cons_of_neg (by simp)]
  have hin : e.1 ∈ l.blocks := h.blocks.mem_iff.2 hit
  rw [specStep, hfilter, hdrop, listErase, hdel, Option.bind_some,
    if_pos ⟨h.listOps_eq, hin⟩, hnext, List.tail_cons, hhead]
  refine ⟨_, rfl, h.head_eq, h.listOps_eq, ?_, fun x hx => ?_, ?_, ?_⟩
  · rw [List.map_append]
    exact hring'
  · apply h.data_eq
    rcases List.mem_append.1 hx with hx | hx
    · exact List.mem_append_left _ hx
    · exact List.mem_append_right _ (List.mem_cons_of_mem _ hx)
  · change l.size - 1 = _
    rw [h.size_eq, List.length_append, List.length_append, List.length_cons]
    rfl
  · have hmiddle : (a ++ e :: b).Perm (e :: (a ++ b)) := List.perm_middle
    have hperm := (h.blocks.trans (hmiddle.map Prod.fst)).erase e.1
    rwa [List.map_cons, List.erase_cons_head] at hperm

/-- The loop ends at a node without a successor, which then has no predecessor. -/
theorem reverseLoop_prev (h : reverseLoop n (some p) prev heads = some (heads', last)) :
    ∃ q, last = some q ∧ (heads' q).prev = none := by
  induction n generalizing p prev heads with
  | zero => cases h
  | succ n ih =>
    rw [reverseLoop] at h
    cases hnext : (heads p).next with
    | some p' =>
      rw [hnext] at h
      exact ih h
    | none =>
      rw [hnext] at h
      cases n with
      | zero => cases h
      | succ n =>
        cases h
        exact ⟨p, rfl, by rw [Function.update_self]⟩

theorem reverseList_prev (h : reverseList l = some l') : (l'.heads l'.head).prev = none := by
  obtain ⟨⟨heads, last⟩, hloop, hlast⟩ := Option.bind_eq_some_iff.1 h
  obtain ⟨q, rfl, hq⟩ := reverseLoop_prev hloop
  cases hlast
  change (Function.update heads l.head (heads q) l.head).prev = none
  rw [Function.update_self, hq]

theorem listErase_none (h : Holds head listOps l t) (hbad : ¬ (listOps = true ∧ it ≠ head)) :
    listErase it l = none := by
  have hout : ¬ (l.listOps = true ∧ it ∈ l.blocks) := by
    rintro ⟨hops, hin⟩
    refine hbad ⟨h.listOps_eq ▸ hops, ?_⟩
    rintro rfl
    exact (List.nodup_cons.1 h.ring.nodup).1 (h.blocks.mem_iff.1 hin)
  rw [listErase]
  cases listDel it l.heads with
  | none => rfl
  | some heads => rw [Option.bind_some, if_neg hout]

theorem listStep_good (h : Holds head listOps l t) (c : Call D) (hvalid : c.Valid l)
    (hok : c.Ok head listOps) :
    ∃ l', listStep l c = some (l', (specStep head t c).2) ∧
      Holds head listOps l' (specStep head t c).1 := by
  cases c with
  | insert pos data node =>
    exact h.insert (h.mem_iff.1 hvalid.1) (fun hin => hvalid.2 (h.mem_iff.2 hin)) data
  | insertBefore pos data node =>
    exact h.insertBefore (h.mem_iff.1 hvalid.1) (fun hin => hvalid.2 (h.mem_iff.2 hin)) data
  | pushFront data node =>
    obtain ⟨l', hinsert, hl'⟩ := h.insert (List.mem_cons_self (a := head))
      (fun hin => hvalid (h.mem_iff.2 hin)) data
    rw [specStep, if_pos rfl] at hl'
    rw [listStep, listPushFront, h.head_eq]
    exact ⟨l', hinsert, hl'⟩
  | pushBack data node => exact h.pushBack (fun hin => hvalid (h.mem_iff.2 hin)) data
  | erase it =>
    obtain ⟨rfl, hne⟩ := hok
    exact h.erase ((List.mem_cons.1 (h.mem_iff.1 hvalid)).resolve_left hne)
  | reverse => exact hok.elim

theorem listStep_bad (h : Holds head listOps l t) (c : Call D) (hbad : ¬ c.Ok head listOps)
    (hstep : listStep l c = some (l', (specStep head t c).2)) :
    ¬ l'.WellFormed (specStep head t c).1 := by
  cases c with
  | insert pos data node => exact (hbad trivial).elim
  | insertBefore pos data node => exact (hbad trivial).elim
  | pushFront data node => exact (hbad trivial).elim
  | pushBack data node => exact (hbad trivial).elim
  | erase it =>
    rw [listStep, listErase_none h hbad] at hstep
    cases hstep
  | reverse =>
    intro hwell
    obtain ⟨l₁, hreverse, hl₁⟩ := Option.map_eq_some_iff.1 hstep
    cases hl₁
    obtain ⟨prev, _, _, _, hprev, _⟩ := hwell.linked _ List.mem_cons_self
    rw [reverseList_prev hreverse] at hprev
    cases hprev

theorem listNew_holds (head : Nat) (heads : Nat → ListHead Nat) (data : Nat → D) (listOps : Bool) :
    Holds head listOps (listNew head heads data listOps) [] := by
  refine ⟨rfl, rfl, ⟨List.nodup_singleton head, ?_⟩, nofun, rfl, .refl _⟩
  refine List.isChain_pair.2 ⟨?_, ?_⟩
  · rw [listNew, initListHead, setPrev_next, setNext_next, if_pos rfl]
  · rw [listNew, initListHead, setPrev_prev, if_pos rfl]

/-- A list is well-formed and holds the reference sequence throughout a run exactly when nothing is
reversed, and nothing but a node of a list with callbacks is erased. -/
theorem list_refines_iff (head : Nat) (heads : Nat → ListHead Nat) (data : Nat → D)
    (listOps : Bool) (cs : List (Call D))
    (hvalid : Admits listStep (fun l c => c.Valid l) (listNew head heads data listOps) cs) :
    Follows listStep (specStep head) ListT.WellFormed (listNew head heads data listOps) [] cs ↔
      ∀ c ∈ cs, c.Ok head listOps := by
  have hforall : Meets (specStep head) (fun _ c => c.Ok head listOps) [] cs ↔
      ∀ c ∈ cs, c.Ok head listOps := meets_iff_forall [] cs
  rw [← hforall]
  exact follows_iff_of_keeps (R := Holds head listOps) (fun _ _ h => h.wellFormed)
    (fun _ _ c h hc hok => listStep_good h c hc hok)
    (fun _ _ c h _ hbad _ hstep => listStep_bad h c hbad hstep)
    (listNew_holds head heads data listOps) hvalid

end Keeps

section Witness

/-- A new list of no callbacks with its head at address 1. -/
def emptyList : ListT Unit := listNew 1 (fun _ => ⟨none, none⟩) (fun _ => ()) false

theorem pushBack_valid : (Call.pushBack () 2).Valid emptyList :=
  (by decide : 2 ∉ [1])

theorem list_refines_iff_push :
    Follows listStep (specStep 1) ListT.WellFormed emptyList [] [.pushBack () 2] ↔
      ∀ c ∈ [Call.pushBack () 2], c.Ok 1 false :=
  list_refines_iff 1 _ _ false [.pushBack () 2] ⟨pushBack_valid, fun _ _ _ => trivial⟩

/-- A list of one node is reversed: the head has no predecessor any more. -/
theorem not_list_refines :
    Admits listStep (fun l c => c.Valid l) emptyList [.pushBack () 2, .reverse] ∧
      (tryRun listStep emptyList [.pushBack () 2, .reverse]).map
        (fun r => (r.1.heads r.1.head).prev) = some none ∧
      ¬ Follows listStep (specStep 1) ListT.WellFormed emptyList [] [.pushBack () 2, .reverse] := by
  refine ⟨⟨pushBack_valid, fun _ _ _ => ⟨trivial, fun _ _ _ => trivial⟩⟩, rfl, ?_⟩
  rintro ⟨_, l₁, hpush, _, l₂, hreverse, hwell⟩
  have hnew := listNew_holds 1 (fun _ => ⟨none, none⟩) (fun _ => ()) false
  obtain ⟨l, hstep, hl⟩ := listStep_good hnew (.pushBack () 2) pushBack_valid trivial
  cases hstep.symm.trans hpush
  exact listStep_bad hl .reverse id hreverse hwell

end Witness

end BigBox.Cstl.DoublyLinked
