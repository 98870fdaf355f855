import BigBox.Cstl.TreeRefines
import BigBox.Lib.FiniteMap
import BigBox.Lib.TryRun

namespace BigBox.Cstl
open Rbtree
set_option autoImplicit true

/-- `map_ops_t`. What `make_pair` and the two copies behind it leave in a node is its result,
`none` when it returns `false`. -/
structure MapOps (K V : Type) where
  makePair : Option (K → Option V → Option (K × Option V))
  compareKey : Option (K → K → Int)

structure MapNode (K V : Type) where
  key : K
  value : Option V

structure Map (K V : Type) where
  size : Nat
  mapOps : Option (MapOps K V)
  tree : Tree (MapNode K V)

def mapNew (node : Ptr → Node) (entry : Ptr → MapNode K V) (ops : Option (MapOps K V)) :
    Map K V :=
  ⟨0, ops, Tree.empty node entry⟩

def mapSize (map : Map K V) : Nat := map.size

def mapEmpty (map : Map K V) : Bool := mapSize map = 0

def Map.compareKey (map : Map K V) : Option (K → K → Int) :=
  map.mapOps.bind MapOps.compareKey

/-- The loop at the start of `map_insert`. A missing `compare_key` is called as soon as there
is a node. -/
def Map.findPlace (map : Map K V) (key : K) : Option Place :=
  match map.compareKey with
  | some compareKey => map.tree.findPlace fun tmp => compareKey key tmp.key
  | none => if map.tree.mem.rbNode = none then some (.link none) else none

/-- The fields `map_insert` gives a new node. -/
def Map.makeNode (map : Map K V) (key : K) (value : Option V) : Option (MapNode K V) :=
  match map.mapOps.bind MapOps.makePair with
  | some makePair => (makePair key value).map fun pair => ⟨pair.1, pair.2⟩
  | none => some ⟨key, value⟩

def mapInsert (map : Map K V) (a : Allocator) (key : K) (value : Option V) :
    Option (Map K V × Int) := do
  match ← map.findPlace key with
  | .node _ => return (map, -1)
  | .link link =>
    match map.makeNode key value with
    | none => return (map, 0)
    | some node =>
      let tree ← map.tree.link a link node
      return ({ map with tree := tree, size := map.size + 1 }, 0)

def mapFind (map : Map K V) (key : K) : Option (Option V) :=
  match map.compareKey with
  | none => some none
  | some compareKey => do
    match ← map.tree.lookup fun tmp => compareKey key tmp.key with
    | none => return none
    | some node => return (map.tree.entry node).value

/-- The guard of `map_remove` lacks a negation: it returns at once when there are operations
and reads through the missing pointer when there are none. -/
def mapRemove (map : Map K V) (_key : K) : Option (Map K V × Int) :=
  if map.mapOps.isSome then some (map, -1) else none

/-- The counter stays as it is. The operations are read at every node. -/
def mapClear (map : Map K V) : Option (Map K V × Int) :=
  if map.mapOps.isNone ∧ map.tree.mem.rbNode ≠ none then none
  else map.tree.clear.map fun tree => ({ map with tree := tree }, 0)

inductive MapCall (K V : Type) where
  | insert (a : Allocator) (key : K) (value : Option V)
  | remove (key : K)
  | find (key : K)
  | clear

inductive MapAnswer (V : Type) where
  | ret (r : Int)
  | value (v : Option V)
  deriving DecidableEq, Repr

/-- A call, with what it returns and what `map_size` returns behind it. -/
def Map.step (map : Map K V) : MapCall K V → Option (Map K V × (MapAnswer V × Nat))
  | .insert a key value =>
    (mapInsert map a key value).map fun r => (r.1, .ret r.2, mapSize r.1)
  | .remove key => (mapRemove map key).map fun r => (r.1, .ret r.2, mapSize r.1)
  | .find key => (mapFind map key).map fun v => (map, .value v, mapSize map)
  | .clear => (mapClear map).map fun r => (r.1, .ret r.2, mapSize r.1)

section Refinement
variable {K V Q : Type} [LinearOrder Q] {content : K → Q}

/-- A finite map from the contents of the keys to the values. -/
abbrev Bindings (Q V : Type) := Finmap fun _ : Q => Option V

/-- What the calls do to a finite map. -/
def mapSpec (content : K → Q) (m : Bindings Q V) :
    MapCall K V → Bindings Q V × (MapAnswer V × Nat)
  | .insert _ key value =>
    if content key ∈ m then (m, .ret (-1), m.keys.card)
    else (m.insert (content key) value, .ret 0, (m.insert (content key) value).keys.card)
  | .remove key =>
    if content key ∈ m then (m.erase (content key), .ret 0, (m.erase (content key)).keys.card)
    else (m, .ret (-1), m.keys.card)
  | .find key => (m, .value ((m.lookup (content key)).getD none), m.keys.card)
  | .clear => (∅, .ret 0, 0)

/-- `compare_key` orders the contents and `make_pair`, where there is one, copies a pair. -/
structure MapOps.Faithful (ops : MapOps K V) (content : K → Q) : Prop where
  compareKey : ∃ compareKey, ops.compareKey = some compareKey ∧ Compares compareKey content
  makePair : ∀ makePair, ops.makePair = some makePair → ∀ key value,
    ∃ key', makePair key value = some (key', value) ∧ content key' = content key

/-- A key is removed only while it is absent, the map is cleared only while it is empty. -/
def MapCall.ok (content : K → Q) (m : Bindings Q V) : MapCall K V → Prop
  | .insert .. => True
  | .remove key => content key ∉ m
  | .find _ => True
  | .clear => m = ∅

/-- The map holds the bindings of a finite map. -/
structure Map.Refines (map : Map K V) (ops : MapOps K V) (content : K → Q) (m : Bindings Q V) :
    Prop where
  mapOps : map.mapOps = some ops
  size : map.size = m.keys.card
  tree : ∃ l, map.tree.Refines (fun node => content node.key) l ∧
    Binds m (fun node => content node.key) MapNode.value l

theorem mapNew_refines (node : Ptr → Node) (entry : Ptr → MapNode K V) (ops : MapOps K V) :
    (mapNew node entry (some ops)).Refines ops content ∅ :=
  ⟨rfl, rfl, [], Tree.empty_refines node entry, binds_empty _ _⟩

theorem Map.Refines.makeNode {map : Map K V} (h : map.Refines ops content m)
    (hops : ops.Faithful content) (key : K) (value : Option V) :
    ∃ key', map.makeNode key value = some ⟨key', value⟩ ∧ content key' = content key := by
  rw [Map.makeNode, h.mapOps, Option.bind_some]
  cases hmake : ops.makePair with
  | none => exact ⟨key, rfl, rfl⟩
  | some makePair =>
    obtain ⟨key', hrun, hkey⟩ := hops.makePair makePair hmake key value
    exact ⟨key', congrArg (Option.map _) hrun, hkey⟩

/-- An insertion binds a key that is absent and changes nothing else. -/
theorem Map.Refines.insert {map : Map K V} (h : map.Refines ops content m)
    (hops : ops.Faithful content) (a : Allocator) (key : K) (value : Option V) :
    ∃ map', map.step (.insert a key value) =
      some (map', (mapSpec content m (.insert a key value)).2) ∧
      map'.Refines ops content (mapSpec content m (.insert a key value)).1 := by
  obtain ⟨compareKey, hcompare, hc⟩ := hops.compareKey
  obtain ⟨l, htree, hbinds⟩ := h.tree
  have hplace : map.findPlace key = map.tree.findPlace fun tmp => compareKey key tmp.key := by
    rw [Map.findPlace, Map.compareKey, h.mapOps, Option.bind_some, hcompare]
  have hstep : map.step (.insert a key value) =
      (mapInsert map a key value).map fun r => (r.1, .ret r.2, mapSize r.1) := rfl
  rw [hstep, mapInsert, hplace]
  rcases htree.findPlace (hc.orders MapNode.key key) with
    ⟨p, l', hrun, hhit⟩ | ⟨link, hrun, hmiss⟩
  · have hmem : content key ∈ m := hhit.content_eq ▸ hbinds.mem hhit.perm
    rw [hrun, mapSpec, if_pos hmem]
    exact ⟨map, by rw [← h.size]; rfl, h⟩
  · have hmem : content key ∉ m := hbinds.notMem hmiss.absent
    obtain ⟨key', hnode, hkey⟩ := h.makeNode hops key value
    obtain ⟨tree', hlink, htree'⟩ := hmiss.link a ⟨key', value⟩ hkey
    have hbinds' : Binds (m.insert (content key) value) (fun node => content node.key)
        MapNode.value (⟨key', value⟩ :: l) := by
      rw [← hkey] at hmem ⊢
      exact hbinds.insert (e := ⟨key', value⟩) hmem
    have hcard : map.size + 1 = (m.insert (content key) value).keys.card := by
      rw [hbinds'.card, h.size, hbinds.card, List.length_cons]
    rw [hrun, mapSpec, if_neg hmem]
    refine ⟨{ map with tree := tree', size := map.size + 1 }, ?_, h.mapOps, hcard, _, htree',
      hbinds'⟩
    simp only [hnode, hlink, Option.bind_eq_bind, Option.bind_some, Option.pure_def,
      Option.map_some, mapSize, hcard]

theorem Map.Refines.find {map : Map K V} (h : map.Refines ops content m)
    (hops : ops.Faithful content) (key : K) :
    map.step (.find key) = some (map, (mapSpec content m (.find key)).2) := by
  obtain ⟨compareKey, hcompare, hc⟩ := hops.compareKey
  obtain ⟨l, htree, hbinds⟩ := h.tree
  have hkey : map.compareKey = some compareKey := by
    rw [Map.compareKey, h.mapOps, Option.bind_some, hcompare]
  have hstep : map.step (.find key) =
      (mapFind map key).map fun v => (map, .value v, mapSize map) := rfl
  rw [hstep, mapFind, hkey, mapSpec, ← h.size]
  rcases htree.lookup (hc.orders MapNode.key key) with ⟨p, l', hrun, hhit⟩ | ⟨hrun, habsent⟩
  · have hlookup := hbinds.lookup hhit.perm
    rw [hhit.content_eq] at hlookup
    simp only [hrun, hlookup, Option.bind_eq_bind, Option.bind_some]
    rfl
  · have hlookup := Finmap.lookup_eq_none.2 (hbinds.notMem habsent)
    simp only [hrun, hlookup, Option.bind_eq_bind, Option.bind_some]
    rfl

theorem Map.Refines.remove {map : Map K V} (h : map.Refines ops content m) (key : K) :
    map.step (.remove key) = some (map, .ret (-1), m.keys.card) := by
  have hstep : map.step (.remove key) =
      (mapRemove map key).map fun r => (r.1, .ret r.2, mapSize r.1) := rfl
  rw [hstep, mapRemove, h.mapOps, Option.isSome_some, if_pos rfl, ← h.size]
  rfl

/-- Every binding goes, the counter stays. -/
theorem Map.Refines.clear {map : Map K V} (h : map.Refines ops content m) :
    ∃ tree', map.step .clear = some ({ map with tree := tree' }, .ret 0, m.keys.card) ∧
      tree'.Refines (fun node => content node.key) [] := by
  obtain ⟨l, htree, _⟩ := h.tree
  obtain ⟨tree', hrun, htree'⟩ := htree.clear
  have hguard : ¬ (map.mapOps.isNone ∧ map.tree.mem.rbNode ≠ none) := by
    rw [h.mapOps]
    exact fun hg => Bool.false_ne_true hg.1
  have hstep : map.step .clear =
      (mapClear map).map fun r => (r.1, .ret r.2, mapSize r.1) := rfl
  refine ⟨tree', ?_, htree'⟩
  rw [hstep, mapClear, if_neg hguard, hrun, ← h.size]
  rfl

theorem mapStep_good {map : Map K V} (hops : ops.Faithful content)
    (h : map.Refines ops content m) (call : MapCall K V) (hok : call.ok content m) :
    ∃ map', map.step call = some (map', (mapSpec content m call).2) ∧
      map'.Refines ops content (mapSpec content m call).1 := by
  cases call with
  | insert a key value => exact h.insert hops a key value
  | find key => exact ⟨map, h.find hops key, h⟩
  | remove key =>
    rw [mapSpec, if_neg hok]
    exact ⟨map, h.remove key, h⟩
  | clear =>
    obtain ⟨tree', hrun, htree'⟩ := h.clear
    have hempty : m = ∅ := hok
    subst hempty
    exact ⟨_, hrun, h.mapOps, h.size, [], htree', binds_empty _ _⟩

theorem mapStep_bad {map : Map K V} (h : map.Refines ops content m) (call : MapCall K V)
    (hno : ¬ call.ok content m) (map' : Map K V) :
    map.step call ≠ some (map', (mapSpec content m call).2) := by
  cases call with
  | insert a key value => exact (hno trivial).elim
  | find key => exact (hno trivial).elim
  | remove key =>
    have hmem : content key ∈ m := Classical.not_not.1 hno
    rw [h.remove key, mapSpec, if_pos hmem]
    intro he
    have hret := congrArg (Option.map fun r => r.2.1) he
    cases hret
  | clear =>
    obtain ⟨tree', hrun, _⟩ := h.clear
    rw [hrun]
    intro he
    have hcard : m.keys.card = 0 := congrArg (fun r => r.2.2) (Option.some.inj he)
    exact hno (eq_empty_of_card hcard)

/-- The calls on a new map return what they would for a finite map exactly when every removal is
of an absent key and every clearing is of an empty map. -/
theorem map_refines_iff (hops : MapOps.Faithful ops content) (node : Ptr → Node)
    (entry : Ptr → MapNode K V) (calls : List (MapCall K V)) :
    (∃ map', tryRun Map.step (mapNew node entry (some ops)) calls =
      some (map', (run (mapSpec content) ∅ calls).2)) ↔
      Meets (mapSpec content) (fun m call => call.ok content m) ∅ calls :=
  tryRun_iff_meets (R := fun map m => Map.Refines map ops content m)
    (fun _ _ call h hok => mapStep_good hops h call hok)
    (fun _ _ call h hno => mapStep_bad h call hno)
    (mapNew_refines node entry ops) calls

end Refinement

section Witness

/-- Numbers as keys. -/
def natOps : MapOps Nat Nat := ⟨none, some fun a b => (a : Int) - b⟩

theorem natOps_faithful : natOps.Faithful id :=
  ⟨⟨_, rfl, ⟨by simp only [id]; omega, by simp only [id]; omega⟩⟩, nofun⟩

def natEntry : Ptr → MapNode Nat Nat := fun _ => ⟨0, none⟩

theorem map_refines_iff_insert :
    (∃ map', tryRun Map.step (mapNew (fun _ => ⟨none, .red, none, none⟩) natEntry (some natOps))
        [.insert .next 1 (some 5), .find 1] =
      some (map', (run (mapSpec id) ∅ [.insert .next 1 (some 5), .find 1]).2)) ↔
      Meets (mapSpec (V := Nat) id) (fun m call => call.ok id m) ∅
        [.insert .next 1 (some 5), .find 1] :=
  map_refines_iff natOps_faithful _ natEntry _

/-- A key just inserted is not removed. -/
theorem not_map_refines :
    ¬ ∃ map', tryRun Map.step
        (mapNew (fun _ => ⟨none, .red, none, none⟩) natEntry (some natOps))
        [.insert .next 1 (some 5), .remove 1] =
      some (map', (run (mapSpec id) ∅ [.insert .next 1 (some 5), .remove 1]).2) := by
  rintro ⟨map', h⟩
  have hcode : (tryRun Map.step
      (mapNew (fun _ => ⟨none, .red, none, none⟩) natEntry (some natOps))
      [.insert .next 1 (some 5), .remove 1]).map (fun r => r.2.map Prod.fst) =
      some [.ret 0, .ret (-1)] := rfl
  have hspec : (run (mapSpec id) ∅ [.insert .next 1 (some 5), .remove 1]).2.map Prod.fst =
      [.ret 0, .ret 0] := rfl
  rw [h, Option.map_some, hspec] at hcode
  exact absurd hcode (by decide)

end Witness

end BigBox.Cstl
