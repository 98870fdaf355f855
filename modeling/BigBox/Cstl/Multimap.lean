import BigBox.Cstl.Multiset
import BigBox.Lib.TryRun
import Mathlib.Data.List.Infix
import Mathlib.Data.Multiset.Filter

namespace BigBox.Cstl
open Rbtree
set_option autoImplicit true

/-- Where a `struct list_head` is: in the list of a key or in the node of a value. -/
inductive Head where
  | list (p : Ptr)
  | node (p : Ptr)
  deriving DecidableEq, Repr

/-- `struct list_head`. -/
structure ListHead where
  prev : Option Head
  next : Option Head
  deriving DecidableEq, Repr

def initListHead (list : Head) (heads : Head → ListHead) : Head → ListHead :=
  Function.update heads list ⟨some list, some list⟩

def setPrev (h : Head) (prev : Option Head) (heads : Head → ListHead) : Head → ListHead :=
  Function.update heads h { heads h with prev }

def setNext (h : Head) (next : Option Head) (heads : Head → ListHead) : Head → ListHead :=
  Function.update heads h { heads h with next }

/-- `list_add`. It has no result when it writes through a missing pointer. -/
def listAdd (new head : Head) (heads : Head → ListHead) : Option (Head → ListHead) := do
  let next ← (heads head).next
  let heads := setPrev next (some new) heads
  let heads := setNext new (some next) heads
  let heads := setPrev new (some head) heads
  return setNext head (some new) heads

def listDel (entry : Head) (heads : Head → ListHead) : Option (Head → ListHead) := do
  let prev ← (heads entry).prev
  let next ← (heads entry).next
  let heads := setPrev next (some prev) heads
  let heads := setNext prev (some next) heads
  return Function.update heads entry ⟨none, none⟩

def listEmpty (head : Head) (heads : Head → ListHead) : Bool := (heads head).next = some head

structure MultimapList (K : Type) where
  key : K
  count : Int

/-- `multimap_ops_t`. What its `make_pair` does, where there is one, is part of each call. -/
structure MultimapOps (K V : Type) where
  makePair : Bool
  compareKey : Option (K → K → Int)
  compareValue : Option (V → V → Int)

/-- The lists are the blocks of the tree, `nodes` are the other blocks in use. -/
structure Multimap (K V : Type) where
  size : Nat
  ops : Option (MultimapOps K V)
  tree : Tree (MultimapList K)
  heads : Head → ListHead
  value : Ptr → V
  nodes : List Ptr

def multimapNew (node : Ptr → Node) (entry : Ptr → MultimapList K) (heads : Head → ListHead)
    (value : Ptr → V) (ops : Option (MultimapOps K V)) : Multimap K V :=
  ⟨0, ops, Tree.empty node entry, heads, value, []⟩

/-- The two comparisons, when both are there. -/
def MultimapOps.comparisons (ops : MultimapOps K V) : Option ((K → K → Int) × (V → V → Int)) := do
  let compareKey ← ops.compareKey
  let compareValue ← ops.compareValue
  return (compareKey, compareValue)

/-- What `make_pair` does in an insertion: the value it leaves in the node, and what it returns
for the key and leaves in the list. -/
structure Made (K V : Type) where
  value : V
  err : Int
  key : K

/-- The allocators are those of the node and of the list. -/
def multimapInsert (map : Multimap K V) (a a' : Allocator) (made : Made K V) (key : K) (value : V) :
    Option (Multimap K V × Int) := do
  let ops ← map.ops
  match ops.comparisons with
  | none => return (map, -1)
  | some (compareKey, _) =>
    let node := a.pick map.nodes
    let map := { map with
      nodes := node :: map.nodes
      value := Function.update map.value node (if ops.makePair then made.value else value)
      heads := initListHead (.node node) map.heads }
    match ← map.tree.findPlace fun tmp => compareKey key tmp.key with
    | .node tmp =>
      let heads ← listAdd (.list tmp) (.node node) map.heads
      let count ← increment (map.tree.entry tmp).count
      let tree := map.tree.set tmp { map.tree.entry tmp with count }
      return ({ map with heads := heads, tree := tree }, 0)
    | .link link =>
      if ops.makePair ∧ made.err ≠ 0 then
        return ({ map with nodes := map.nodes.erase node }, made.err)
      else
        let key := if ops.makePair then made.key else key
        let heads := Function.update map.heads (.list (a'.pick map.tree.blocks)) ⟨none, none⟩
        let tree ← map.tree.link a' link ⟨key, 0⟩
        return ({ map with heads := heads, tree := tree, size := map.size + 1 }, 0)

/-- A list leaves the tree. -/
def Multimap.removeList (map : Multimap K V) (list : Ptr) : Option (Multimap K V) := do
  let tree ← map.tree.remove list
  return { map with tree := tree, size := map.size - 1 }

/-- A node leaves its list. -/
def Multimap.removeNode (map : Multimap K V) (node : Ptr) : Option (Multimap K V) := do
  let heads ← listDel (.node node) map.heads
  return { map with heads := heads, nodes := map.nodes.erase node }

/-- `list_for_each_entry` over a list, with this body. The link to the next node is read behind
the body, and it cannot be read from a node that has been freed. -/
def forEachEntry (list : Ptr) (body : Ptr → Multimap K V → Option (Multimap K V)) :
    Nat → Option Head → Multimap K V → Option (Multimap K V)
  | 0, _, _ => none
  | _, none, _ => none
  | _ + 1, some (.list p), map => if p = list then some map else none
  | n + 1, some (.node node), map =>
    if node ∈ map.nodes then do
      let map ← body node map
      if node ∈ map.nodes then forEachEntry list body n (map.heads (.node node)).next map else none
    else none

def Multimap.forEach (map : Multimap K V) (list : Ptr)
    (body : Ptr → Multimap K V → Option (Multimap K V)) : Option (Multimap K V) :=
  forEachEntry list body (map.nodes.length + 1) (map.heads (.list list)).next map

def multimapRemove (map : Multimap K V) (key : K) (value : V) : Option (Multimap K V × Int) := do
  let ops ← map.ops
  match ops.comparisons with
  | none => return (map, -1)
  | some (compareKey, compareValue) =>
    match ← map.tree.lookup fun tmp => compareKey key tmp.key with
    | none => return (map, -1)
    | some list =>
      let map ← map.forEach list fun node map =>
        if compareValue (map.value node) value = 0 then do
          let map ← map.removeNode node
          if listEmpty (.list list) map.heads then map.removeList list else return map
        else return map
      return (map, 0)

def multimapRemoveAll (map : Multimap K V) (key : K) : Option (Multimap K V × Int) := do
  let ops ← map.ops
  match ops.compareKey with
  | none => return (map, -1)
  | some compareKey =>
    match ← map.tree.lookup fun tmp => compareKey key tmp.key with
    | none => return (map, -1)
    | some list =>
      let map ← map.forEach list fun node map => map.removeNode node
      let map ← map.removeList list
      return (map, 0)

/-- The list of a key, `none` for a missing one. -/
def multimapLookup (map : Multimap K V) (key : K) : Option (Option Ptr) := do
  let ops ← map.ops
  match ops.comparisons with
  | none => return none
  | some (compareKey, _) => map.tree.lookup fun tmp => compareKey key tmp.key

/-- The values met on the way through a list. -/
def valuesFrom (map : Multimap K V) (list : Ptr) : Nat → Option Head → Option (List V)
  | 0, _ => none
  | _, none => none
  | _ + 1, some (.list p) => if p = list then some [] else none
  | n + 1, some (.node node) =>
    if node ∈ map.nodes then
      (valuesFrom map list n (map.heads (.node node)).next).map (map.value node :: ·)
    else none

/-- The values a client reads from the list of a key. -/
def Multimap.values (map : Multimap K V) (key : K) : Option (List V) := do
  match ← multimapLookup map key with
  | none => return []
  | some list =>
    valuesFrom map list (map.nodes.length + 1) (map.heads (.list list)).next

inductive MultimapCall (K V : Type) where
  | insert (a a' : Allocator) (made : Made K V) (key : K) (value : V)
  | remove (key : K) (value : V)
  | removeAll (key : K)

def Multimap.step (map : Multimap K V) : MultimapCall K V → Option (Multimap K V × Int)
  | .insert a a' made key value => multimapInsert map a a' made key value
  | .remove key value => multimapRemove map key value
  | .removeAll key => multimapRemoveAll map key

section Values
variable {K V Q : Type} [LinearOrder Q] {content : K → Q} {makes : Bool} {cmp : K → K → Int}
  {cmpValue : V → V → Int}

/-- What a call that returned `r` does to the values of each key. -/
def bagStep (content : K → Q) (cmpValue : V → V → Int) (bag : Q → Multiset V) :
    MultimapCall K V × Int → Q → Multiset V
  | (.insert _ _ _ key value, r) =>
    if r = 0 then Function.update bag (content key) (value ::ₘ bag (content key)) else bag
  | (.remove key value, r) =>
    if r = 0 then
      Function.update bag (content key) ((bag (content key)).filter fun v => cmpValue v value ≠ 0)
    else bag
  | (.removeAll key, r) => if r = 0 then Function.update bag (content key) 0 else bag

def bagAfter (content : K → Q) (cmpValue : V → V → Int) (bag : Q → Multiset V)
    (log : List (MultimapCall K V × Int)) : Q → Multiset V :=
  log.foldl (bagStep content cmpValue) bag

/-- The list of every key holds the values of the key. -/
def Multimap.Shows (map : Multimap K V) (content : K → Q) (bag : Q → Multiset V) : Prop :=
  ∀ key, ∃ values, map.values key = some values ∧ ↑values = bag (content key)

/-- Every state of a run shows the values inserted and not removed. -/
def Multimap.Always (map : Multimap K V) (content : K → Q) (cmpValue : V → V → Int)
    (bag : Q → Multiset V) (calls : List (MultimapCall K V)) : Prop :=
  ∀ pre, pre <+: calls → ∃ map' rets, tryRun Multimap.step map pre = some (map', rets) ∧
    map'.Shows content (bagAfter content cmpValue bag (pre.zip rets))

/-- An insertion fails because `make_pair` cannot make the key. -/
def MultimapCall.InsertsNothing (makes : Bool) : MultimapCall K V → Prop
  | .insert _ _ made _ _ => makes = true ∧ made.err ≠ 0
  | .remove .. => True
  | .removeAll _ => True

theorem Multimap.Always.start {map : Multimap K V}
    (h : map.Always content cmpValue bag calls) : map.Shows content bag := by
  obtain ⟨map', rets, hrun, hshows⟩ := h [] List.nil_prefix
  cases hrun
  exact hshows

theorem Multimap.always_cons {map : Multimap K V} (h : map.step call = some (map', r)) :
    map.Always content cmpValue bag (call :: calls) ↔ map.Shows content bag ∧
      map'.Always content cmpValue (bagStep content cmpValue bag (call, r)) calls := by
  constructor
  · intro halways
    refine ⟨halways.start, fun pre hpre => ?_⟩
    obtain ⟨map'', rets, hrun, hshows⟩ := halways (call :: pre) ((List.prefix_cons_inj call).2 hpre)
    rw [tryRun_cons h] at hrun
    obtain ⟨⟨map₁, rets'⟩, hrun', he⟩ := Option.map_eq_some_iff.1 hrun
    cases he
    exact ⟨map₁, rets', hrun', hshows⟩
  · rintro ⟨hstart, halways⟩ pre hpre
    rcases List.prefix_cons_iff.1 hpre with rfl | ⟨pre', rfl, hpre'⟩
    · exact ⟨map, [], rfl, hstart⟩
    · obtain ⟨map'', rets, hrun, hshows⟩ := halways pre' hpre'
      exact ⟨map'', r :: rets, by rw [tryRun_cons h, hrun]; rfl, hshows⟩

/-- There is no list. -/
structure Multimap.Empty (map : Multimap K V) (makes : Bool) (cmp : K → K → Int)
    (cmpValue : V → V → Int) (content : K → Q) : Prop where
  ops : map.ops = some ⟨makes, some cmp, some cmpValue⟩
  tree : map.tree.Refines (fun list => content list.key) []

theorem Multimap.Empty.lookup {map : Multimap K V} (h : map.Empty makes cmp cmpValue content)
    (hc : Compares cmp content) (key : K) :
    (map.tree.lookup fun tmp => cmp key tmp.key) = some none := by
  rcases h.tree.lookup (hc.orders MultimapList.key key) with ⟨p, l', _, hhit⟩ | ⟨hrun, _⟩
  · exact nomatch hhit.perm.nil_eq
  · exact hrun

theorem Multimap.Empty.values {map : Multimap K V} (h : map.Empty makes cmp cmpValue content)
    (hc : Compares cmp content) (key : K) : map.values key = some [] := by
  have hlookup : multimapLookup map key = some none := by
    rw [multimapLookup, h.ops]
    exact h.lookup hc key
  rw [Multimap.values, hlookup]
  rfl

theorem Multimap.Empty.shows {map : Multimap K V} (h : map.Empty makes cmp cmpValue content)
    (hc : Compares cmp content) (hbag : ∀ q, bag q = 0) : map.Shows content bag :=
  fun key => ⟨[], h.values hc key, (hbag _).symm⟩

theorem Multimap.Empty.remove {map : Multimap K V} (h : map.Empty makes cmp cmpValue content)
    (hc : Compares cmp content) (key : K) (value : V) :
    map.step (.remove key value) = some (map, -1) := by
  rw [Multimap.step, multimapRemove, h.ops]
  simp only [MultimapOps.comparisons, Option.bind_eq_bind, Option.bind_some, Option.pure_def,
    h.lookup hc]

theorem Multimap.Empty.removeAll {map : Multimap K V} (h : map.Empty makes cmp cmpValue content)
    (hc : Compares cmp content) (key : K) : map.step (.removeAll key) = some (map, -1) := by
  rw [Multimap.step, multimapRemoveAll, h.ops]
  simp only [Option.bind_eq_bind, Option.bind_some, Option.pure_def, h.lookup hc]

/-- Every key has its place at the root. -/
theorem Multimap.Empty.place {map : Multimap K V} (h : map.Empty makes cmp cmpValue content)
    (hc : Compares cmp content) (key : K) :
    (map.tree.findPlace fun tmp => cmp key tmp.key) = some (.link none) ∧
      map.tree.Miss (fun list => content list.key) (content key) none [] := by
  have hroot : (map.tree.findPlace fun tmp => cmp key tmp.key) = some (.link none) := by
    rw [Tree.findPlace, h.tree.rbNode]
    rfl
  rcases h.tree.findPlace (hc.orders MultimapList.key key) with
    ⟨p, l', _, hhit⟩ | ⟨link, hrun, hmiss⟩
  · exact nomatch hhit.perm.nil_eq
  · cases hrun.symm.trans hroot
    exact ⟨hroot, hmiss⟩

theorem Multimap.Empty.insert_nothing {map : Multimap K V}
    (h : map.Empty makes cmp cmpValue content) (hc : Compares cmp content) (a a' : Allocator)
    (made : Made K V) (key : K) (value : V) (hno : makes = true ∧ made.err ≠ 0) :
    ∃ map', map.step (.insert a a' made key value) = some (map', made.err) ∧
      map'.Empty makes cmp cmpValue content := by
  obtain ⟨hrun, _⟩ := h.place hc key
  obtain ⟨size, ops, tree, heads, vals, nodes⟩ := map
  obtain rfl : ops = some ⟨makes, some cmp, some cmpValue⟩ := h.ops
  let node := a.pick nodes
  refine ⟨⟨size, _, tree, initListHead (.node node) heads,
    Function.update vals node (if makes then made.value else value), (node :: nodes).erase node⟩,
    ?_, rfl, h.tree⟩
  simp only [Multimap.step, multimapInsert, MultimapOps.comparisons, Option.bind_eq_bind,
    Option.bind_some, Option.pure_def, hrun, if_pos hno]
  rfl

/-- The first value of a key is in no list: the list of the key is not initialised. -/
theorem Multimap.Empty.insert_first {map : Multimap K V}
    (h : map.Empty makes cmp cmpValue content) (hc : Compares cmp content) (a a' : Allocator)
    (made : Made K V) (key : K) (value : V) (hno : ¬ (makes = true ∧ made.err ≠ 0)) :
    ∃ map' key', map.step (.insert a a' made key value) = some (map', 0) ∧
      map'.values key' = none := by
  obtain ⟨hrun, _⟩ := h.place hc key
  let key' := if makes then made.key else key
  obtain ⟨_, hmiss⟩ := h.place hc key'
  obtain ⟨size, ops, tree, heads, vals, nodes⟩ := map
  obtain rfl : ops = some ⟨makes, some cmp, some cmpValue⟩ := h.ops
  obtain ⟨tree', hlink, htree'⟩ := hmiss.link a' ⟨key', 0⟩ rfl
  let list := a'.pick tree.blocks
  have hblocks : tree'.blocks = [list] := by
    rw [Tree.blocks_of_link hlink]
    exact congrArg (list :: ·) h.tree.blocks
  have hlookup : (tree'.lookup fun tmp => cmp key' tmp.key) = some (some list) := by
    rcases htree'.lookup (hc.orders MultimapList.key key') with
      ⟨p, l', hfound, hhit⟩ | ⟨_, habsent⟩
    · have hp := hhit.mem
      rw [hblocks] at hp
      rw [← List.mem_singleton.1 hp]
      exact hfound
    · exact (habsent _ List.mem_cons_self rfl).elim
  let node := a.pick nodes
  let heads' := Function.update (initListHead (.node node) heads) (.list list) ⟨none, none⟩
  let map' : Multimap K V := ⟨size + 1, some ⟨makes, some cmp, some cmpValue⟩, tree', heads',
    Function.update vals node (if makes then made.value else value), node :: nodes⟩
  refine ⟨map', key', ?_, ?_⟩
  · simp only [Multimap.step, multimapInsert, MultimapOps.comparisons, Option.bind_eq_bind,
      Option.bind_some, Option.pure_def, hrun, if_neg hno]
    exact congrArg (Option.bind · _) hlink
  · have hfind : multimapLookup map' key' = some (some list) := hlookup
    have hhead : map'.heads (.list list) = ⟨none, none⟩ := Function.update_self ..
    rw [Multimap.values, hfind]
    simp only [Option.bind_eq_bind, Option.bind_some, hhead]
    rfl

/-- Every state of a run shows the values inserted and not removed exactly when no insertion
succeeds. -/
theorem Multimap.Empty.always_iff {map : Multimap K V}
    (h : map.Empty makes cmp cmpValue content) (hc : Compares cmp content)
    (hbag : ∀ q, bag q = 0) (calls : List (MultimapCall K V)) :
    map.Always content cmpValue bag calls ↔ ∀ call ∈ calls, call.InsertsNothing makes := by
  induction calls generalizing map with
  | nil =>
    refine iff_of_true (fun pre hpre => ?_) nofun
    rw [List.prefix_nil.1 hpre]
    exact ⟨map, [], rfl, h.shows hc hbag⟩
  | cons call calls ih =>
    have hfails : ∀ r, r ≠ 0 → bagStep content cmpValue bag (call, r) = bag := by
      intro r hr
      cases call <;> exact if_neg hr
    have hstep : ∀ map' r, map.step call = some (map', r) → r ≠ 0 →
        map'.Empty makes cmp cmpValue content → call.InsertsNothing makes →
        (map.Always content cmpValue bag (call :: calls) ↔
          ∀ c ∈ call :: calls, c.InsertsNothing makes) := by
      intro map' r hrun hr hempty hnothing
      rw [Multimap.always_cons hrun, hfails r hr, ih hempty, and_iff_right (h.shows hc hbag),
        List.forall_mem_cons, and_iff_right hnothing]
    cases call with
    | insert a a' made key value =>
      by_cases hno : makes = true ∧ made.err ≠ 0
      · obtain ⟨map', hrun, hempty⟩ := h.insert_nothing hc a a' made key value hno
        exact hstep map' _ hrun hno.2 hempty hno
      · obtain ⟨map', key', hrun, hvalues⟩ := h.insert_first hc a a' made key value hno
        rw [Multimap.always_cons hrun]
        apply iff_of_false
        · intro halways
          obtain ⟨values, hvalues', _⟩ := halways.2.start key'
          rw [hvalues] at hvalues'
          cases hvalues'
        · exact fun hall => hno (hall _ List.mem_cons_self)
    | remove key value => exact hstep map _ (h.remove hc key value) (by decide) h trivial
    | removeAll key => exact hstep map _ (h.removeAll hc key) (by decide) h trivial

/-- From a new map on, every state of a run shows for each key the values inserted and not removed
exactly when no insertion succeeds. -/
theorem multimap_values_iff (hc : Compares cmp content) (cmpValue : V → V → Int) (makes : Bool)
    (node : Ptr → Node) (entry : Ptr → MultimapList K) (heads : Head → ListHead) (value : Ptr → V)
    (calls : List (MultimapCall K V)) :
    (multimapNew node entry heads value (some ⟨makes, some cmp, some cmpValue⟩)).Always content
        cmpValue (fun _ => 0) calls ↔
      ∀ call ∈ calls, call.InsertsNothing makes :=
  Multimap.Empty.always_iff ⟨rfl, Tree.empty_refines node entry⟩ hc (fun _ => rfl) calls

end Values

def natMultimap : Multimap Nat Nat :=
  multimapNew (fun _ => ⟨none, .red, none, none⟩) (fun _ => ⟨0, 0⟩) (fun _ => ⟨none, none⟩)
    (fun _ => 0) (some ⟨false, some fun a b => (a : Int) - b, some fun a b => (a : Int) - b⟩)

theorem multimap_values_iff_remove :
    natMultimap.Always id (fun a b => (a : Int) - b) (fun _ => 0) [.remove 1 5] ↔
      ∀ call ∈ [MultimapCall.remove 1 5], call.InsertsNothing (K := Nat) (V := Nat) false :=
  multimap_values_iff ⟨by simp only [id]; omega, by simp only [id]; omega⟩ _ _ _ _ _ _ _

/-- The value of the first insertion is not found. -/
theorem not_multimap_values :
    ¬ natMultimap.Always id (fun a b => (a : Int) - b) (fun _ => 0)
      [.insert .next .next ⟨0, 0, 0⟩ 1 5] := by
  intro halways
  obtain ⟨map, rets, hrun, hshows⟩ :=
    halways [.insert .next .next ⟨0, 0, 0⟩ 1 5] (List.prefix_refl _)
  obtain ⟨values, hvalues, _⟩ := hshows 1
  have hcode : (tryRun Multimap.step natMultimap [.insert .next .next ⟨0, 0, 0⟩ 1 5]).bind
      (fun r => r.1.values 1) = none := rfl
  rw [hrun, Option.bind_some, hvalues] at hcode
  cases hcode

end BigBox.Cstl
