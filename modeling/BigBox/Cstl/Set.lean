import BigBox.Cstl.TreeRefines
import BigBox.Lib.TryRun
import Mathlib.Data.Finset.Card

namespace BigBox.Cstl
open Rbtree
set_option autoImplicit true

/-- `set_ops_t`. What `make_key` and the copy of this many bytes behind it leave in a node is its
result, `none` when the copy has no room. -/
structure SetOps (K : Type) where
  makeKey : Option (Nat → K → Option K)
  compareKey : Option (K → K → Int)

structure SetT (K : Type) where
  size : Nat
  typesize : Nat
  setOps : Option (SetOps K)
  tree : Tree K

def setNew (node : Ptr → Node) (entry : Ptr → K) (typesize : Nat) (ops : Option (SetOps K)) :
    Option (SetT K) :=
  if typesize = 0 then none else some ⟨0, typesize, ops, Tree.empty node entry⟩

def setSize (set : SetT K) : Nat := set.size

/-- The size is returned as it is. -/
def setEmpty (set : SetT K) : Bool := setSize set ≠ 0

def setContains (set : SetT K) (key : K) : Option Bool := do
  let ops ← set.setOps
  match ops.compareKey with
  | none => return false
  | some compareKey =>
    let node ← set.tree.lookup fun tmp => compareKey key tmp
    return node.isSome

def SetT.makeKey (set : SetT K) (ops : SetOps K) (key : K) : Option K :=
  match ops.makeKey with
  | some makeKey => makeKey set.typesize key
  | none => some key

def setInsert (set : SetT K) (a : Allocator) (key : K) : Option (SetT K × Int) :=
  match set.setOps with
  | none => some (set, -1)
  | some ops =>
    match ops.compareKey with
    | none => some (set, -1)
    | some compareKey => do
      match ← set.tree.findPlace fun tmp => compareKey key tmp with
      | .node _ => return (set, -1)
      | .link link =>
        let key ← set.makeKey ops key
        let tree ← set.tree.link a link key
        return ({ set with tree := tree, size := set.size + 1 }, 0)

def setRemove (set : SetT K) (key : K) : Option (SetT K × Int) := do
  let ops ← set.setOps
  match ops.compareKey with
  | none => return (set, -1)
  | some compareKey =>
    match ← set.tree.lookup fun tmp => compareKey key tmp with
    | none => return (set, -1)
    | some node =>
      let tree ← set.tree.remove node
      return ({ set with tree := tree, size := set.size - 1 }, 0)

/-- The counter stays as it is. The operations are read at every node. -/
def setClear (set : SetT K) : Option (SetT K × Int) :=
  if set.setOps.isNone ∧ set.tree.mem.rbNode ≠ none then none
  else set.tree.clear.map fun tree => ({ set with tree := tree }, 0)

inductive SetCall (K : Type) where
  | insert (a : Allocator) (key : K)
  | remove (key : K)
  | contains (key : K)
  | clear

inductive SetAnswer where
  | ret (r : Int)
  | found (b : Bool)
  deriving DecidableEq, Repr

def SetT.step (set : SetT K) : SetCall K → Option (SetT K × SetAnswer)
  | .insert a key => (setInsert set a key).map fun r => (r.1, .ret r.2)
  | .remove key => (setRemove set key).map fun r => (r.1, .ret r.2)
  | .contains key => (setContains set key).map fun b => (set, .found b)
  | .clear => (setClear set).map fun r => (r.1, .ret r.2)

section Refinement
variable {K Q : Type} [LinearOrder Q] {content : K → Q}

/-- What the calls do to a set of contents. -/
def setSpec (content : K → Q) (s : Finset Q) : SetCall K → Finset Q × SetAnswer
  | .insert _ key =>
    if content key ∈ s then (s, .ret (-1)) else (insert (content key) s, .ret 0)
  | .remove key => if content key ∈ s then (s.erase (content key), .ret 0) else (s, .ret (-1))
  | .contains key => (s, .found (content key ∈ s))
  | .clear => (∅, .ret 0)

/-- `compare_key` orders the contents and `make_key`, where there is one, makes room for a copy
of a key. -/
structure SetOps.Faithful (ops : SetOps K) (typesize : Nat) (content : K → Q) : Prop where
  compareKey : ∃ compareKey, ops.compareKey = some compareKey ∧ Compares compareKey content
  makeKey : ∀ makeKey, ops.makeKey = some makeKey → ∀ key,
    ∃ key', makeKey typesize key = some key' ∧ content key' = content key

/-- The set holds these contents. Nothing is said of its counter. -/
structure SetT.Refines (set : SetT K) (ops : SetOps K) (n : Nat) (content : K → Q)
    (s : Finset Q) : Prop where
  setOps : set.setOps = some ops
  typesize : set.typesize = n
  tree : ∃ l, set.tree.Refines content l ∧ s.val = ↑(l.map content)

theorem SetT.Refines.makeKey {set : SetT K} (h : set.Refines ops n content s)
    (hops : ops.Faithful n content) (key : K) :
    ∃ key', set.makeKey ops key = some key' ∧ content key' = content key := by
  rw [SetT.makeKey, h.typesize]
  cases hmake : ops.makeKey with
  | none => exact ⟨key, rfl, rfl⟩
  | some makeKey => exact hops.makeKey makeKey hmake key

/-- A hit is an element. -/
theorem val_of_hit {t : Tree K} {s : Finset Q} (h : t.Hit content c p l l')
    (hs : s.val = ↑(l.map content)) : s.val = c ::ₘ ↑(l'.map content) := by
  rw [hs, ← h.content_eq]
  exact Multiset.coe_eq_coe.2 (h.perm.map content)

theorem mem_of_hit {t : Tree K} {s : Finset Q} (h : t.Hit content c p l l')
    (hs : s.val = ↑(l.map content)) : c ∈ s := by
  rw [← Finset.mem_val, val_of_hit h hs]
  exact Multiset.mem_cons_self _ _

omit [LinearOrder Q] in
theorem notMem_of_absent {s : Finset Q} {l : List K} (hs : s.val = ↑(l.map content))
    (ha : ∀ e ∈ l, content e ≠ c) : c ∉ s := by
  rw [← Finset.mem_val, hs, Multiset.mem_coe]
  intro hmem
  obtain ⟨e, he, hc⟩ := List.mem_map.1 hmem
  exact ha e he hc

theorem SetT.Refines.insert {set : SetT K} (h : set.Refines ops n content s)
    (hops : ops.Faithful n content) (a : Allocator) (key : K) :
    ∃ set', set.step (.insert a key) = some (set', (setSpec content s (.insert a key)).2) ∧
      set'.Refines ops n content (setSpec content s (.insert a key)).1 := by
  obtain ⟨compareKey, hcompare, hc⟩ := hops.compareKey
  obtain ⟨l, htree, hs⟩ := h.tree
  have hstep : set.step (.insert a key) =
      (setInsert set a key).map fun r => (r.1, .ret r.2) := rfl
  rw [hstep, setInsert, h.setOps]
  simp only [hcompare]
  have horder : Orders (fun tmp => compareKey key tmp) content (content key) := hc.orders id key
  rcases htree.findPlace horder with ⟨p, l', hrun, hhit⟩ | ⟨link, hrun, hmiss⟩
  · rw [setSpec, if_pos (mem_of_hit hhit hs)]
    exact ⟨set, by rw [hrun]; rfl, h⟩
  · have hmem : content key ∉ s := notMem_of_absent hs hmiss.absent
    obtain ⟨key', hmake, hkey⟩ := h.makeKey hops key
    obtain ⟨tree', hlink, htree'⟩ := hmiss.link a key' hkey
    rw [setSpec, if_neg hmem]
    refine ⟨{ set with tree := tree', size := set.size + 1 }, ?_, h.setOps, h.typesize,
      key' :: l, htree', ?_⟩
    · simp only [hrun, hmake, hlink, Option.bind_eq_bind, Option.bind_some, Option.pure_def,
        Option.map_some, h.setOps]
    · rw [Finset.insert_val_of_notMem hmem, hs, List.map_cons, hkey]
      rfl

theorem SetT.Refines.remove {set : SetT K} (h : set.Refines ops n content s)
    (hops : ops.Faithful n content) (key : K) :
    ∃ set', set.step (.remove key) = some (set', (setSpec content s (.remove key)).2) ∧
      set'.Refines ops n content (setSpec content s (.remove key)).1 := by
  obtain ⟨compareKey, hcompare, hc⟩ := hops.compareKey
  obtain ⟨l, htree, hs⟩ := h.tree
  have hstep : set.step (.remove key) = (setRemove set key).map fun r => (r.1, .ret r.2) := rfl
  rw [hstep, setRemove, h.setOps]
  simp only [hcompare, Option.bind_eq_bind, Option.bind_some]
  have horder : Orders (fun tmp => compareKey key tmp) content (content key) := hc.orders id key
  rcases htree.lookup horder with ⟨p, l', hrun, hhit⟩ | ⟨hrun, habsent⟩
  · obtain ⟨tree', hremove, htree'⟩ := hhit.remove
    rw [setSpec, if_pos (mem_of_hit hhit hs)]
    refine ⟨{ set with tree := tree', size := set.size - 1 }, ?_, h.setOps, h.typesize,
      l', htree', ?_⟩
    · simp only [hrun, hremove, Option.bind_some, Option.pure_def, Option.map_some, h.setOps]
    · rw [Finset.erase_val, val_of_hit hhit hs, Multiset.erase_cons_head]
  · rw [setSpec, if_neg (notMem_of_absent hs habsent)]
    exact ⟨set, by rw [hrun]; rfl, h⟩

theorem SetT.Refines.contains {set : SetT K} (h : set.Refines ops n content s)
    (hops : ops.Faithful n content) (key : K) :
    set.step (.contains key) = some (set, (setSpec content s (.contains key)).2) := by
  obtain ⟨compareKey, hcompare, hc⟩ := hops.compareKey
  obtain ⟨l, htree, hs⟩ := h.tree
  have hstep : set.step (.contains key) =
      (setContains set key).map fun b => (set, .found b) := rfl
  rw [hstep, setContains, h.setOps, setSpec]
  simp only [hcompare, Option.bind_eq_bind, Option.bind_some]
  have horder : Orders (fun tmp => compareKey key tmp) content (content key) := hc.orders id key
  rcases htree.lookup horder with ⟨p, l', hrun, hhit⟩ | ⟨hrun, habsent⟩
  · have hmem := mem_of_hit hhit hs
    simp only [hrun, hmem, decide_true]
    rfl
  · have hmem := notMem_of_absent hs habsent
    simp only [hrun, hmem, decide_false]
    rfl

theorem SetT.Refines.clear {set : SetT K} (h : set.Refines ops n content s) :
    ∃ set', set.step .clear = some (set', (setSpec content s .clear).2) ∧
      set'.Refines ops n content (setSpec content s .clear).1 := by
  obtain ⟨l, htree, _⟩ := h.tree
  obtain ⟨tree', hrun, htree'⟩ := htree.clear
  have hguard : ¬ (set.setOps.isNone ∧ set.tree.mem.rbNode ≠ none) := by
    rw [h.setOps]
    exact fun hg => Bool.false_ne_true hg.1
  have hstep : set.step .clear = (setClear set).map fun r => (r.1, .ret r.2) := rfl
  refine ⟨{ set with tree := tree' }, ?_, h.setOps, h.typesize, [], htree', rfl⟩
  rw [hstep, setClear, if_neg hguard, hrun]
  rfl

theorem setStep_refines {set : SetT K} (hops : ops.Faithful n content)
    (h : set.Refines ops n content s) (call : SetCall K) :
    ∃ set', set.step call = some (set', (setSpec content s call).2) ∧
      set'.Refines ops n content (setSpec content s call).1 := by
  cases call with
  | insert a key => exact h.insert hops a key
  | remove key => exact h.remove hops key
  | contains key => exact ⟨set, h.contains hops key, h⟩
  | clear => exact h.clear

/-- The answers of insertions, removals and look-ups are those of a set of contents. -/
theorem set_answers (hops : SetOps.Faithful ops n content) (node : Ptr → Node)
    (entry : Ptr → K) (calls : List (SetCall K)) :
    ∃ set', tryRun SetT.step ⟨0, n, some ops, Tree.empty node entry⟩ calls =
      some (set', (run (setSpec content) ∅ calls).2) ∧
      set'.Refines ops n content (run (setSpec content) ∅ calls).1 := by
  apply tryRun_of_meets (R := fun set s => SetT.Refines set ops n content s)
    (fun _ _ call h _ => setStep_refines hops h call) _ (meets_true ∅ calls)
  exact ⟨rfl, rfl, [], Tree.empty_refines node entry, rfl⟩

/-- `set_size` and `set_empty` never both tell the truth: no state a run ends in has the size of
its set in the counter and is empty exactly when it says so. -/
theorem set_never_refines (hops : SetOps.Faithful ops n content) (hn : n ≠ 0)
    (node : Ptr → Node) (entry : Ptr → K) (calls : List (SetCall K)) :
    ∃ set set', setNew node entry n (some ops) = some set ∧
      tryRun SetT.step set calls = some (set', (run (setSpec content) ∅ calls).2) ∧
      ¬ (setSize set' = (run (setSpec content) ∅ calls).1.card ∧
        (setEmpty set' = true ↔ (run (setSpec content) ∅ calls).1 = ∅)) := by
  obtain ⟨set', hrun, _⟩ := set_answers hops node entry calls
  refine ⟨_, set', if_neg hn, hrun, ?_⟩
  intro ⟨hsize, hempty⟩
  rw [setEmpty, decide_eq_true_iff, hsize, ne_eq, Finset.card_eq_zero] at hempty
  exact iff_not_self hempty.symm

end Refinement

/-- Numbers as keys. -/
def natSetOps : SetOps Nat := ⟨none, some fun a b => (a : Int) - b⟩

theorem natSetOps_faithful : natSetOps.Faithful 8 id :=
  ⟨⟨_, rfl, ⟨by simp only [id]; omega, by simp only [id]; omega⟩⟩, nofun⟩

theorem set_never_refines_insert :
    ∃ set set', setNew (fun _ => ⟨none, .red, none, none⟩) (fun _ => 0) 8 (some natSetOps) =
        some set ∧
      tryRun SetT.step set [.insert .next 1] =
        some (set', (run (setSpec id) ∅ [.insert .next 1]).2) ∧
      ¬ (setSize set' = (run (setSpec id) ∅ [SetCall.insert .next 1]).1.card ∧
        (setEmpty set' = true ↔ (run (setSpec id) ∅ [SetCall.insert .next 1]).1 = ∅)) :=
  set_never_refines natSetOps_faithful (by decide) _ _ _

/-- A set with one element says that it is empty. -/
theorem not_set_refines :
    ¬ ∃ set set', setNew (fun _ => ⟨none, .red, none, none⟩) (fun _ => 0) 8 (some natSetOps) =
        some set ∧
      tryRun SetT.step set [.insert .next 1] =
        some (set', (run (setSpec id) ∅ [.insert .next 1]).2) ∧
      setSize set' = (run (setSpec id) ∅ [SetCall.insert .next 1]).1.card ∧
      (setEmpty set' = true ↔ (run (setSpec id) ∅ [SetCall.insert .next 1]).1 = ∅) := by
  rintro ⟨set, set', hnew, hrun, hsize, hempty⟩
  have hcard : (run (setSpec id) ∅ [SetCall.insert .next 1]).1.card = 1 := rfl
  rw [setEmpty, decide_eq_true_iff, hsize, ← Finset.card_eq_zero, hcard] at hempty
  exact absurd (hempty.1 (by decide)) (by decide)

end BigBox.Cstl
