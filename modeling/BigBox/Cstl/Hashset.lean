import BigBox.Cstl.Hashmap
import BigBox.Cstl.HashmapRefines
import BigBox.Lib.FiniteMap

namespace BigBox.Cstl
open Rbtree
set_option autoImplicit true

/-- `hashset_t`. The result of `make_key` is what it returns and leaves in a node, that of
`calculate_hash` is `none` when it fails. -/
structure Hashset (K : Type) where
  capacity : Nat
  size : Nat
  lists : Hlists
  key : Ptr → K
  blocks : List Ptr
  makeKey : Option (K → Int × K)
  compareKey : Option (K → K → Int)
  calculateHash : Option (K → Option UInt32)

/-- There may be no memory for the buckets. The operations are assigned behind it. -/
def hashsetInit (memory : Bool) (capacity : Nat) (next : Ptr → Option Ptr)
    (pprev : Ptr → Option Slot) (key : Ptr → K) : Option (Hashset K) :=
  if memory then some ⟨capacity, 0, ⟨fun _ => none, next, pprev⟩, key, [], none, none, none⟩
  else none

/-- The counter less one. -/
def Hashset.sizeDown (set : Hashset K) : Nat := unsigned (set.size + 4294967295)

def Hashset.findNode (set : Hashset K) (compareKey : K → K → Int) (key : K) (hash : Nat) :
    Option (Option Ptr) :=
  Buckets.findNode (fun node => compareKey (set.key node) key = 0) set.lists.next
    (set.blocks.length + 1) (set.lists.first hash)

/-- The two operations that every access needs. -/
def Hashset.required (set : Hashset K) : Option ((K → K → Int) × (K → Option UInt32)) := do
  let calculateHash ← set.calculateHash
  let compareKey ← set.compareKey
  return (compareKey, calculateHash)

/-- What `make_key` returns and leaves in a new node. -/
def Hashset.makeNode (set : Hashset K) (key : K) : Int × K :=
  match set.makeKey with
  | some makeKey => makeKey key
  | none => (0, key)

/-- A new node is put in front of a bucket. -/
def Hashset.add (set : Hashset K) (node : Ptr) (hash : Nat) (key : K) : Hashset K :=
  { set with
    lists := hlistAddHead node hash (initHlistNode node set.lists)
    key := Function.update set.key node key
    blocks := node :: set.blocks
    size := unsigned (set.size + 1) }

/-- A node whose key is not made is freed before it gets into a bucket. -/
def hashsetInsert (set : Hashset K) (a : Allocator) (memory : Bool) (key : K) :
    Option (Hashset K × Int) :=
  match set.required with
  | none => some (set, -22)
  | some (compareKey, calculateHash) =>
    match calculateHash key with
    | none => some (set, -22)
    | some hash => do
      let hash := hash.toNat % set.capacity
      match ← set.findNode compareKey key hash with
      | some _ => return (set, -17)
      | none =>
        if memory then
          let (err, key) := set.makeNode key
          if err ≠ 0 then return (set, err)
          else return (set.add (a.pick set.blocks) hash key, 0)
        else return (set, -12)

/-- `lookup`. -/
def Hashset.lookup (set : Hashset K) (compareKey : K → K → Int)
    (calculateHash : K → Option UInt32) (key : K) : Option (Option Ptr) :=
  match calculateHash key with
  | none => some none
  | some hash => set.findNode compareKey key (hash.toNat % set.capacity)

def hashsetRemove (set : Hashset K) (key : K) : Option (Hashset K × Int) :=
  match set.required with
  | none => some (set, -22)
  | some (compareKey, calculateHash) => do
    match ← set.lookup compareKey calculateHash key with
    | none => return (set, -2)
    | some node =>
      let lists ← hlistDel node set.lists
      return ({ set with
        lists := lists, blocks := set.blocks.erase node, size := set.sizeDown }, 0)

/-- Its loops are those of `hashmap_clear`. -/
def hashsetClear (set : Hashset K) : Option (Hashset K × Int) := do
  let (lists, blocks) ← clearBuckets (set.blocks.length + 1) set.capacity (set.lists, set.blocks)
  return ({ set with lists := lists, blocks := blocks, size := 0 }, 0)

def hashsetSize (set : Hashset K) : Int := toInt set.size

def hashsetContains (set : Hashset K) (key : K) : Option Int :=
  match set.required with
  | none => some 0
  | some (compareKey, calculateHash) => do
    let node ← set.lookup compareKey calculateHash key
    return if node.isSome then 1 else 0

/-- An insertion comes with whether there is memory for a node. -/
inductive HashsetCall (K : Type) where
  | insert (a : Allocator) (memory : Bool) (key : K)
  | remove (key : K)
  | contains (key : K)
  | clear

/-- What a call returns, whether this is the `-EEXIST` of an insertion, and what `hashset_size`
returns behind it. -/
structure HashsetAnswer where
  ret : Int
  present : Bool
  size : Int
  deriving DecidableEq, Repr

def Hashset.step (set : Hashset K) : HashsetCall K → Option (Hashset K × HashsetAnswer)
  | .insert a memory key =>
    (hashsetInsert set a memory key).map fun r => (r.1, ⟨r.2, r.2 = -17, hashsetSize r.1⟩)
  | .remove key => (hashsetRemove set key).map fun r => (r.1, ⟨r.2, false, hashsetSize r.1⟩)
  | .contains key => (hashsetContains set key).map fun r => (set, ⟨r, false, hashsetSize set⟩)
  | .clear => (hashsetClear set).map fun r => (r.1, ⟨r.2, false, hashsetSize r.1⟩)

open Rbtree Buckets
set_option autoImplicit true

section Refinement
variable {K Q : Type} {content : K → Q} {hash : Q → Option UInt32}

structure HashsetOps (K : Type) where
  makeKey : Option (K → Int × K)
  compareKey : K → K → Int
  calculateHash : K → Option UInt32

/-- `compare_key` compares the contents, `calculate_hash` depends on them, and `make_key`, where
there is one, copies a key when it succeeds. -/
structure HashsetOps.Faithful (ops : HashsetOps K) (content : K → Q)
    (hash : Q → Option UInt32) : Prop where
  compareKey : ops.compareKey a b = 0 ↔ content a = content b
  calculateHash : ∀ key, ops.calculateHash key = hash (content key)
  makeKey : ∀ makeKey, ops.makeKey = some makeKey → ∀ key, (makeKey key).1 = 0 →
    content (makeKey key).2 = content key

/-- What `make_key` returns, 0 when there is none. -/
def HashsetOps.makeError (ops : HashsetOps K) (key : K) : Int :=
  match ops.makeKey with
  | some makeKey => (makeKey key).1
  | none => 0

/-- What keeps an absent key from getting into a node. -/
def HashsetOps.error (ops : HashsetOps K) (memory : Bool) (key : K) : Int :=
  if ops.calculateHash key = none then -22
  else if memory then ops.makeError key
  else -12

/-- What the calls do to a finite set. -/
def hashsetSpec [DecidableEq Q] (ops : HashsetOps K) (content : K → Q) (s : Finset Q) :
    HashsetCall K → Finset Q × HashsetAnswer
  | .insert _ memory key =>
    if content key ∈ s then (s, ⟨-17, true, s.card⟩)
    else if ops.error memory key = 0 then
      (insert (content key) s, ⟨0, false, (insert (content key) s).card⟩)
    else (s, ⟨ops.error memory key, false, s.card⟩)
  | .remove key =>
    if content key ∈ s then (s.erase (content key), ⟨0, false, (s.erase (content key)).card⟩)
    else (s, ⟨-2, false, s.card⟩)
  | .contains key => (s, ⟨if content key ∈ s then 1 else 0, false, s.card⟩)
  | .clear => (∅, ⟨0, false, 0⟩)

/-- `make_key` does not fail with `-EEXIST` for an absent key, and the number of elements fits in
an `int`. -/
def HashsetCall.ok (ops : HashsetOps K) (content : K → Q) (s : Finset Q) : HashsetCall K → Prop
  | .insert _ memory key => content key ∈ s ∨
    ops.error memory key ≠ -17 ∧ (ops.error memory key = 0 → s.card + 1 < 2147483648)
  | .remove _ => True
  | .contains _ => True
  | .clear => True

/-- The rows of nodes that hold the elements of a finite set. -/
structure Hashset.Table (set : Hashset K) (ops : HashsetOps K) (content : K → Q)
    (hash : Q → Option UInt32) (s : Finset Q) (rows : Nat → List Ptr) : Prop where
  compareKey : set.compareKey = some ops.compareKey
  calculateHash : set.calculateHash = some ops.calculateHash
  makeKey : set.makeKey = ops.makeKey
  capacity : 0 < set.capacity
  size : set.size = s.card
  bound : s.card < 2147483648
  row : ∀ b, b < set.capacity → set.lists.Row b (rows b)
  blocks : (slots set.capacity rows).Perm set.blocks
  bucket : ∀ b, b < set.capacity → ∀ p ∈ rows b,
    ∃ h, hash (content (set.key p)) = some h ∧ h.toNat % set.capacity = b
  holds : Enumerates s (fun p => content (set.key p)) (slots set.capacity rows)

def Hashset.Refines (set : Hashset K) (ops : HashsetOps K) (content : K → Q)
    (hash : Q → Option UInt32) (s : Finset Q) : Prop :=
  ∃ rows, set.Table ops content hash s rows

theorem Hashset.sizeDown_eq {set : Hashset K} (h : set.size = n + 1) (hn : n < 2147483648) :
    set.sizeDown = n := by
  unfold Hashset.sizeDown unsigned
  omega

section Table
variable {set : Hashset K} {ops : HashsetOps K} {s : Finset Q} {rows : Nat → List Ptr} {key : K}

theorem Hashset.Table.required (h : set.Table ops content hash s rows) :
    set.required = some (ops.compareKey, ops.calculateHash) := by
  rw [Hashset.required, h.compareKey, h.calculateHash]
  rfl

theorem Hashset.Table.nodup (h : set.Table ops content hash s rows) :
    (slots set.capacity rows).Nodup := h.holds.nodup

theorem Hashset.Table.size_eq (h : set.Table ops content hash s rows) :
    hashsetSize set = s.card := by
  rw [hashsetSize, h.size, toInt_of_lt h.bound]

theorem Hashset.Table.row_length (h : set.Table ops content hash s rows) (hb : b < set.capacity) :
    (rows b).length ≤ set.blocks.length := by
  rw [← h.blocks.length_eq]
  exact length_row rows hb

/-- The bucket of a key in the set. -/
theorem Hashset.Table.mem (h : set.Table ops content hash s rows) (hin : content key ∈ s) :
    ∃ b p k, b < set.capacity ∧ p ∈ rows b ∧ content (set.key p) = content key ∧
      hash (content key) = some k ∧ k.toNat % set.capacity = b := by
  obtain ⟨p, hp, hkey⟩ := h.holds.mem_iff.1 hin
  obtain ⟨b, hb, hpb⟩ := mem_slots.1 hp
  obtain ⟨k, hk, hkb⟩ := h.bucket b hb p hpb
  exact ⟨b, p, k, hb, hpb, hkey, hkey ▸ hk, hkb⟩

/-- What the loop over the bucket of a key finds. -/
theorem Hashset.Table.find (h : set.Table ops content hash s rows)
    (hops : ops.Faithful content hash) (hk : hash (content key) = some k) :
    (∃ p, p ∈ rows (k.toNat % set.capacity) ∧ content (set.key p) = content key ∧
      set.findNode ops.compareKey key (k.toNat % set.capacity) = some (some p)) ∨
    (content key ∉ s ∧
      set.findNode ops.compareKey key (k.toNat % set.capacity) = some none) := by
  let b := k.toNat % set.capacity
  have hb : b < set.capacity := Nat.mod_lt _ h.capacity
  have hrun : set.findNode ops.compareKey key b =
      some ((rows b).find? fun node => ops.compareKey (set.key node) key = 0) :=
    findNode_eq _ (h.row b hb) (Nat.le_succ_of_le (h.row_length hb))
  rw [hrun]
  cases hfind : (rows b).find? fun node => ops.compareKey (set.key node) key = 0 with
  | some p =>
    have hsame := List.find?_some hfind
    rw [decide_eq_true_iff, hops.compareKey] at hsame
    exact .inl ⟨p, List.mem_of_find?_eq_some hfind, hsame, rfl⟩
  | none =>
    refine .inr ⟨fun hin => ?_, rfl⟩
    obtain ⟨c, p, k', hc, hp, hkey, hk', hkc⟩ := h.mem hin
    have hbc : c = b := by
      rw [← hkc, Option.some.inj (hk'.symm.trans hk)]
    have hno := List.find?_eq_none.1 hfind p (hbc ▸ hp)
    rw [decide_eq_true_iff, hops.compareKey] at hno
    exact hno hkey

/-- What `lookup` finds. -/
theorem Hashset.Table.lookup (h : set.Table ops content hash s rows)
    (hops : ops.Faithful content hash) (key : K) :
    (∃ p b, b < set.capacity ∧ p ∈ rows b ∧ content (set.key p) = content key ∧
      set.lookup ops.compareKey ops.calculateHash key = some (some p)) ∨
    (content key ∉ s ∧ set.lookup ops.compareKey ops.calculateHash key = some none) := by
  rw [Hashset.lookup, hops.calculateHash]
  cases hk : hash (content key) with
  | none =>
    refine .inr ⟨fun hin => ?_, rfl⟩
    obtain ⟨_, _, k, _, _, _, hsome, _⟩ := h.mem hin
    rw [hk] at hsome
    cases hsome
  | some k =>
    rcases h.find hops hk with ⟨p, hp, hkey, hrun⟩ | ⟨hno, hrun⟩
    · exact .inl ⟨p, _, Nat.mod_lt _ h.capacity, hp, hkey, hrun⟩
    · exact .inr ⟨hno, hrun⟩

section Steps
variable [DecidableEq Q]

theorem Hashset.Table.contains_step (h : set.Table ops content hash s rows)
    (hops : ops.Faithful content hash) (key : K) :
    set.step (.contains key) = some (set, (hashsetSpec ops content s (.contains key)).2) := by
  have hsize := h.size_eq
  rw [Hashset.step, hashsetContains, h.required, hashsetSpec]
  rcases h.lookup hops key with ⟨p, b, hb, hp, hkey, hrun⟩ | ⟨hno, hrun⟩
  · have hin : content key ∈ s := h.holds.mem_iff.2 ⟨p, mem_slots.2 ⟨b, hb, hp⟩, hkey⟩
    simp only [hrun, hsize, if_pos hin, Option.bind_eq_bind, Option.bind_some, Option.pure_def,
      Option.map_some, Option.isSome_some, if_true]
  · simp only [hrun, hsize, if_neg hno, Option.bind_eq_bind, Option.bind_some, Option.pure_def,
      Option.map_some, Option.isSome_none, Bool.false_eq_true, if_false]

/-- A node leaves the table. -/
theorem Hashset.Table.del (h : set.Table ops content hash s rows) (hb : b < set.capacity)
    (hp : p ∈ rows b) :
    ∃ lists rows', hlistDel p set.lists = some lists ∧
      Hashset.Table { set with lists, blocks := set.blocks.erase p, size := set.sizeDown } ops
        content hash (s.erase (content (set.key p))) rows' := by
  obtain ⟨xs, ys, hrow⟩ := List.append_of_mem hp
  have hnd : (xs ++ p :: ys).Nodup := hrow ▸ nodup_row h.nodup hb
  have hperm := slots_remove hb hrow
  obtain ⟨lists, hrun, hlists, hother⟩ := (hrow ▸ h.row b hb).del hnd
  have hholds := h.holds.erase hperm
  have hcard : set.size = (s.erase (content (set.key p))).card + 1 := by
    rw [h.size, h.holds.card, hholds.card, hperm.length_eq, List.length_cons]
  have hbound : (s.erase (content (set.key p))).card < 2147483648 := by
    have hlt := h.bound
    rw [← h.size, hcard] at hlt
    omega
  have hdown := Hashset.sizeDown_eq hcard hbound
  refine ⟨lists, Function.update rows b (xs ++ ys), hrun, ?_⟩
  refine ⟨h.compareKey, h.calculateHash, h.makeKey, h.capacity, hdown, hbound, fun c hc => ?_,
    ?_, fun c hc q hq => ?_, hholds⟩
  · by_cases hcb : c = b
    · rw [hcb, Function.update_self]
      exact hlists
    · rw [Function.update_of_ne hcb]
      refine hother c (rows c) hcb (fun q hq => ?_) (h.row c hc)
      rw [← hrow]
      exact rows_disjoint h.nodup hc hb hcb hq
  · have herase := (hperm.symm.trans h.blocks).erase p
    rw [List.erase_cons_head] at herase
    exact herase
  · by_cases hcb : c = b
    · rw [hcb, Function.update_self] at hq
      rw [hcb]
      apply h.bucket b hb
      rw [hrow]
      rcases List.mem_append.1 hq with hq | hq
      · exact List.mem_append_left _ hq
      · exact List.mem_append_right _ (List.mem_cons_of_mem _ hq)
    · rw [Function.update_of_ne hcb] at hq
      exact h.bucket c hc q hq

theorem Hashset.Table.remove_step (h : set.Table ops content hash s rows)
    (hops : ops.Faithful content hash) (key : K) :
    ∃ set', set.step (.remove key) = some (set', (hashsetSpec ops content s (.remove key)).2) ∧
      set'.Refines ops content hash (hashsetSpec ops content s (.remove key)).1 := by
  rw [Hashset.step, hashsetRemove, h.required, hashsetSpec]
  rcases h.lookup hops key with ⟨p, b, hb, hp, hkey, hrun⟩ | ⟨hno, hrun⟩
  · have hin : content key ∈ s := h.holds.mem_iff.2 ⟨p, mem_slots.2 ⟨b, hb, hp⟩, hkey⟩
    obtain ⟨lists, rows', hdel, htable⟩ := h.del hb hp
    rw [hkey] at htable
    have hsize := htable.size_eq
    refine ⟨_, ?_, by rw [if_pos hin]; exact ⟨rows', htable⟩⟩
    simp only [hrun, hdel, if_pos hin, hsize, Option.bind_eq_bind, Option.bind_some,
      Option.pure_def, Option.map_some]
  · refine ⟨set, ?_, by rw [if_neg hno]; exact ⟨rows, h⟩⟩
    simp only [hrun, if_neg hno, h.size_eq, Option.bind_eq_bind, Option.bind_some,
      Option.pure_def, Option.map_some]

theorem Hashset.Table.add (h : set.Table ops content hash s rows) (hnode : node ∉ set.blocks)
    (hk : hash (content key) = some k) (hno : content key ∉ s) (hlt : s.card + 1 < 2147483648) :
    (set.add node (k.toNat % set.capacity) key).Table ops content hash
      (insert (content key) s) (Function.update rows (k.toNat % set.capacity)
        (node :: rows (k.toNat % set.capacity))) := by
  let b := k.toNat % set.capacity
  have hb : b < set.capacity := Nat.mod_lt _ h.capacity
  have hfresh : node ∉ slots set.capacity rows := fun hn => hnode (h.blocks.mem_iff.1 hn)
  have hrows : ∀ c, c < set.capacity → node ∉ rows c := fun c hc hn =>
    hfresh (mem_slots.2 ⟨c, hc, hn⟩)
  have hkeep : ∀ c, c < set.capacity → (initHlistNode node set.lists).Row c (rows c) :=
    fun c hc => (h.row c hc).init (hrows c hc)
  have hsame : ∀ p ∈ slots set.capacity rows, p ≠ node := fun p hp he => hfresh (he ▸ hp)
  have hperm := slots_push rows hb node
  have hold : Enumerates s (fun p => content ((set.add node b key).key p))
      (slots set.capacity rows) :=
    h.holds.congr fun p hp => congrArg content (Function.update_of_ne (hsame p hp) ..)
  have hkey : content ((set.add node b key).key node) = content key :=
    congrArg content (Function.update_self ..)
  have hholds := (hold.insert (hkey ▸ hno)).perm hperm.symm
  simp only [hkey] at hholds
  have hcard : (insert (content key) s).card = s.card + 1 := by
    rw [hholds.card, h.holds.card, hperm.length_eq, List.length_cons]
  have hsize : (set.add node b key).size = (insert (content key) s).card := by
    have hunsigned : unsigned (s.card + 1) = s.card + 1 := unsigned_of_lt (by omega)
    rw [hcard, ← hunsigned, ← h.size]
    rfl
  refine ⟨h.compareKey, h.calculateHash, h.makeKey, h.capacity, hsize, hcard ▸ hlt,
    fun c hc => ?_, hperm.trans (h.blocks.cons node), fun c hc p hp => ?_, hholds⟩
  · by_cases hcb : c = b
    · rw [hcb, Function.update_self]
      exact (hkeep b hb).addHead (hrows b hb) (nodup_row h.nodup hb)
    · rw [Function.update_of_ne hcb]
      exact (hkeep c hc).addHead_other (hkeep b hb) hcb (hrows c hc) fun q hq =>
        rows_disjoint h.nodup hc hb hcb hq
  · have hother : p ∈ rows c → ∃ k, hash (content ((set.add node b key).key p)) = some k ∧
        k.toNat % set.capacity = c := by
      intro hp
      have hpne := hsame p (mem_slots.2 ⟨c, hc, hp⟩)
      have hkeep : (set.add node b key).key p = set.key p := Function.update_of_ne hpne ..
      rw [hkeep]
      exact h.bucket c hc p hp
    by_cases hcb : c = b
    · rw [hcb, Function.update_self] at hp
      rcases List.mem_cons.1 hp with rfl | hp
      · exact ⟨k, hkey ▸ hk, hcb.symm⟩
      · exact hother (hcb ▸ hp)
    · rw [Function.update_of_ne hcb] at hp
      exact hother hp

omit [DecidableEq Q] in
theorem Hashset.Table.insert_present (h : set.Table ops content hash s rows)
    (hops : ops.Faithful content hash) (a : Allocator) (memory : Bool) (hin : content key ∈ s) :
    set.step (.insert a memory key) = some (set, ⟨-17, true, s.card⟩) := by
  obtain ⟨_, _, k, _, _, _, hk, _⟩ := h.mem hin
  have hcalculate : ops.calculateHash key = some k := (hops.calculateHash key).trans hk
  rw [Hashset.step, hashsetInsert, h.required]
  rcases h.find hops hk with ⟨p, hp, hkey, hrun⟩ | ⟨hno, hrun⟩
  · simp only [hcalculate, hrun, h.size_eq, Option.bind_eq_bind, Option.bind_some, Option.pure_def,
      Option.map_some, decide_true]
  · exact (hno hin).elim

omit [DecidableEq Q] in
theorem Hashset.Table.makeNode_fst (h : set.Table ops content hash s rows) (key : K) :
    (set.makeNode key).1 = ops.makeError key := by
  rw [Hashset.makeNode, HashsetOps.makeError, h.makeKey]
  cases ops.makeKey <;> rfl

omit [DecidableEq Q] in
theorem Hashset.Table.makeNode_snd (h : set.Table ops content hash s rows)
    (hops : ops.Faithful content hash) (hmake : ops.makeError key = 0) :
    content (set.makeNode key).2 = content key := by
  rw [HashsetOps.makeError] at hmake
  rw [Hashset.makeNode, h.makeKey]
  cases hkey : ops.makeKey with
  | none => rfl
  | some makeKey =>
    rw [hkey] at hmake
    exact hops.makeKey makeKey hkey key hmake

omit [DecidableEq Q] in
/-- An insertion that fails leaves the set as it is. -/
theorem Hashset.Table.insert_fails (h : set.Table ops content hash s rows)
    (hops : ops.Faithful content hash) (a : Allocator) (hno : content key ∉ s)
    (herror : ops.error memory key ≠ 0) :
    set.step (.insert a memory key) = some (set, ⟨ops.error memory key,
      ops.error memory key = -17, s.card⟩) := by
  rw [Hashset.step, hashsetInsert, h.required, ← h.size_eq]
  unfold HashsetOps.error at herror ⊢
  cases hcalculate : ops.calculateHash key with
  | none => simp only [hcalculate, Option.map_some, if_true]
  | some k =>
    rw [hcalculate, if_neg (Option.some_ne_none k)] at herror
    rcases h.find hops ((hops.calculateHash key).symm.trans hcalculate) with
      ⟨p, hp, hkey, _⟩ | ⟨_, hrun⟩
    · have hmem : p ∈ slots set.capacity rows := mem_slots.2 ⟨_, Nat.mod_lt _ h.capacity, hp⟩
      exact (hno (h.holds.mem_iff.2 ⟨p, hmem, hkey⟩)).elim
    · cases memory with
      | false =>
        simp only [hcalculate, hrun, Option.bind_eq_bind, Option.bind_some, Option.pure_def,
          Option.map_some, Bool.false_eq_true, if_false, reduceCtorEq]
      | true =>
        have hmake := h.makeNode_fst key
        rw [if_pos rfl] at herror
        simp only [hcalculate, hrun, hmake, Option.bind_eq_bind, Option.bind_some, Option.pure_def,
          Option.map_some, if_true, if_pos herror, if_false, reduceCtorEq]

omit [DecidableEq Q] in
theorem Hashset.Table.insert_absent (h : set.Table ops content hash s rows)
    (hops : ops.Faithful content hash) (a : Allocator) (hno : content key ∉ s)
    (herror : ops.error memory key = 0) :
    ∃ key' k, content key' = content key ∧ hash (content key') = some k ∧
      set.step (.insert a memory key) =
        some (set.add (a.pick set.blocks) (k.toNat % set.capacity) key', ⟨0, false,
          hashsetSize (set.add (a.pick set.blocks) (k.toNat % set.capacity) key')⟩) := by
  rw [HashsetOps.error] at herror
  cases hcalculate : ops.calculateHash key with
  | none =>
    rw [if_pos hcalculate] at herror
    cases herror
  | some k =>
    rw [hcalculate, if_neg (Option.some_ne_none k)] at herror
    have hk : hash (content key) = some k := (hops.calculateHash key).symm.trans hcalculate
    cases memory with
    | false => cases herror
    | true =>
      rw [if_pos rfl] at herror
      have hkey := h.makeNode_snd hops herror
      refine ⟨(set.makeNode key).2, k, hkey, hkey ▸ hk, ?_⟩
      rw [Hashset.step, hashsetInsert, h.required]
      rcases h.find hops hk with ⟨p, hp, hkey, _⟩ | ⟨_, hrun⟩
      · have hmem : p ∈ slots set.capacity rows := mem_slots.2 ⟨_, Nat.mod_lt _ h.capacity, hp⟩
        exact (hno (h.holds.mem_iff.2 ⟨p, hmem, hkey⟩)).elim
      · have hmake : (set.makeNode key).1 = 0 := (h.makeNode_fst key).trans herror
        simp only [hcalculate, hrun, hmake, Option.bind_eq_bind, Option.bind_some, Option.pure_def,
          Option.map_some, if_true, ne_eq, not_true_eq_false, if_false, Int.reduceNeg,
          Int.reduceEq, decide_false]

theorem Hashset.Table.insert_step (h : set.Table ops content hash s rows)
    (hops : ops.Faithful content hash) (a : Allocator) (memory : Bool) (key : K)
    (hok : HashsetCall.ok ops content s (.insert a memory key)) :
    ∃ set', set.step (.insert a memory key) =
      some (set', (hashsetSpec ops content s (.insert a memory key)).2) ∧
      set'.Refines ops content hash (hashsetSpec ops content s (.insert a memory key)).1 := by
  rw [hashsetSpec]
  by_cases hin : content key ∈ s
  · rw [if_pos hin]
    exact ⟨set, h.insert_present hops a memory hin, rows, h⟩
  · obtain ⟨hne, hlt⟩ := hok.resolve_left hin
    rw [if_neg hin]
    by_cases herror : ops.error memory key = 0
    · obtain ⟨key', k, hkey, hk, hrun⟩ := h.insert_absent hops a hin herror
      have htable := h.add (a.fresh _) hk (hkey ▸ hin) (hlt herror)
      rw [hkey] at htable
      rw [if_pos herror]
      exact ⟨_, by rw [hrun, htable.size_eq], _, htable⟩
    · rw [if_neg herror]
      refine ⟨set, ?_, rows, h⟩
      rw [h.insert_fails hops a hin herror, decide_eq_false hne]

/-- A key that is absent is said to be present, or there is one more than an `int` can count. -/
theorem Hashset.Table.insert_wrong (h : set.Table ops content hash s rows)
    (hops : ops.Faithful content hash) (a : Allocator) (memory : Bool) (key : K)
    (hno : ¬ HashsetCall.ok ops content s (.insert a memory key)) (set' : Hashset K) :
    set.step (.insert a memory key) ≠
      some (set', (hashsetSpec ops content s (.insert a memory key)).2) := by
  obtain ⟨hin, hbad⟩ := not_or.1 hno
  rw [hashsetSpec, if_neg hin]
  by_cases herror : ops.error memory key = 0
  · have hne : ops.error memory key ≠ -17 := by
      rw [herror]
      decide
    have hlt : ¬ s.card + 1 < 2147483648 := fun hlt => hbad ⟨hne, fun _ => hlt⟩
    have hcard : s.card + 1 = 2147483648 := by
      have := h.bound
      omega
    obtain ⟨key', k, _, _, hrun⟩ := h.insert_absent hops a hin herror
    rw [hrun, if_pos herror]
    intro he
    have hsize := congrArg (fun r => r.2.size) (Option.some.inj he)
    have hwraps : hashsetSize (set.add (a.pick set.blocks) (k.toNat % set.capacity) key') =
        -2147483648 := by
      rw [hashsetSize, ← toInt_intMax, ← hcard, ← h.size]
      rfl
    have hnonneg : (0 : Int) ≤ -2147483648 := by
      rw [← hwraps, show hashsetSize _ = _ from hsize]
      exact Int.natCast_nonneg _
    exact absurd hnonneg (by decide)
  · have hexist : ops.error memory key = -17 := by
      by_contra hne
      exact hbad ⟨hne, fun h0 => (herror h0).elim⟩
    rw [h.insert_fails hops a hin herror, if_neg herror, decide_eq_true hexist]
    intro he
    have hpresent := congrArg (fun r => r.2.present) (Option.some.inj he)
    exact Bool.noConfusion hpresent

end Steps

/-- Every node goes. -/
theorem Hashset.Table.clear_step (h : set.Table ops content hash s rows) :
    ∃ set', set.step .clear = some (set', ⟨0, false, 0⟩) ∧
      set'.Refines ops content hash ∅ := by
  obtain ⟨lists, hrun, hrows, _⟩ := clearBuckets_rows h.row h.nodup
    (fun b hb => Nat.le_succ_of_le (h.row_length hb)) (Nat.le_refl _) set.blocks
  rw [diff_of_perm h.blocks.symm] at hrun
  have hsize : hashsetSize { set with lists, blocks := [], size := 0 } = 0 :=
    toInt_of_lt (Nat.zero_lt_succ _)
  refine ⟨{ set with lists, blocks := [], size := 0 }, ?_, fun _ => [], ?_⟩
  · rw [Hashset.step, hashsetClear, hrun]
    simp only [Option.bind_eq_bind, Option.bind_some, Option.pure_def, Option.map_some, hsize]
  · have hslots : slots set.capacity (fun _ => ([] : List Ptr)) = [] := slots_empty _
    refine ⟨h.compareKey, h.calculateHash, h.makeKey, h.capacity, rfl, Nat.zero_lt_succ _, hrows,
      ?_, nofun, ?_⟩
    · rw [hslots]
    · rw [hslots]
      exact enumerates_empty _

end Table

section Runs
variable [DecidableEq Q] {set : Hashset K} {ops : HashsetOps K} {s : Finset Q}

theorem hashsetStep_good (hops : ops.Faithful content hash) (h : set.Refines ops content hash s)
    (call : HashsetCall K) (hok : call.ok ops content s) :
    ∃ set', set.step call = some (set', (hashsetSpec ops content s call).2) ∧
      set'.Refines ops content hash (hashsetSpec ops content s call).1 := by
  obtain ⟨rows, htable⟩ := h
  cases call with
  | insert a memory key => exact htable.insert_step hops a memory key hok
  | remove key => exact htable.remove_step hops key
  | contains key => exact ⟨set, htable.contains_step hops key, rows, htable⟩
  | clear => exact htable.clear_step

theorem hashsetStep_bad (hops : ops.Faithful content hash) (h : set.Refines ops content hash s)
    (call : HashsetCall K) (hno : ¬ call.ok ops content s) (set' : Hashset K) :
    set.step call ≠ some (set', (hashsetSpec ops content s call).2) := by
  obtain ⟨rows, htable⟩ := h
  cases call with
  | insert a memory key => exact htable.insert_wrong hops a memory key hno set'
  | remove key => exact (hno trivial).elim
  | contains key => exact (hno trivial).elim
  | clear => exact (hno trivial).elim

omit [DecidableEq Q] in
theorem hashsetInit_refines (hinit : hashsetInit memory capacity next pprev key = some set)
    (hcapacity : 0 < capacity) :
    Hashset.Refines { set with
      makeKey := ops.makeKey
      compareKey := some ops.compareKey
      calculateHash := some ops.calculateHash } ops content hash ∅ := by
  rw [hashsetInit] at hinit
  split at hinit
  case isTrue =>
    cases hinit
    have hslots : slots capacity (fun _ => ([] : List Ptr)) = [] := slots_empty _
    refine ⟨fun _ => [], rfl, rfl, rfl, hcapacity, rfl, Nat.zero_lt_succ _, fun b _ => rfl,
      .of_eq hslots, nofun, ?_⟩
    exact (enumerates_empty _).perm (.of_eq hslots.symm)
  case isFalse => cases hinit

/-- The calls on a new hash set return what they would for a finite set exactly when no copy of an
absent key fails with `-EEXIST` and the number of elements fits in an `int`. -/
theorem hashset_refines_iff (hops : ops.Faithful content hash)
    (hinit : hashsetInit memory capacity next pprev key = some set) (hcapacity : 0 < capacity)
    (calls : List (HashsetCall K)) :
    (∃ set', tryRun Hashset.step { set with
        makeKey := ops.makeKey
        compareKey := some ops.compareKey
        calculateHash := some ops.calculateHash } calls =
      some (set', (run (hashsetSpec ops content) ∅ calls).2)) ↔
      Meets (hashsetSpec ops content) (fun s call => call.ok ops content s) ∅ calls :=
  tryRun_iff_meets (R := fun set s => Hashset.Refines set ops content hash s)
    (fun _ _ call h hok => hashsetStep_good hops h call hok)
    (fun _ _ call h hno => hashsetStep_bad hops h call hno)
    (hashsetInit_refines hinit hcapacity) calls

end Runs

end Refinement

section Witness

/-- Numbers as keys, in the bucket of their last bits. A key from 100 on is not copied. -/
def natHashsetOps : HashsetOps Nat :=
  ⟨some fun key => if key < 100 then (0, key) else (-17, 0), fun a b => (a : Int) - b,
    fun key => some (UInt32.ofNat key)⟩

theorem natHashsetOps_faithful :
    natHashsetOps.Faithful id fun key => some (UInt32.ofNat key) where
  compareKey := by
    intro a b
    exact Int.sub_eq_zero.trans Int.natCast_inj
  calculateHash _ := rfl
  makeKey := by
    intro makeKey hmake key hkey
    cases hmake
    dsimp only at hkey ⊢
    split at hkey
    case isTrue hlt => rw [if_pos hlt]
    case isFalse => cases hkey

def natHashset : Hashset Nat :=
  ⟨4, 0, ⟨fun _ => none, fun _ => none, fun _ => none⟩, fun _ => 0, [], none, none, none⟩

theorem hashset_refines_iff_insert :
    (∃ set', tryRun Hashset.step { natHashset with
        makeKey := natHashsetOps.makeKey
        compareKey := some natHashsetOps.compareKey
        calculateHash := some natHashsetOps.calculateHash } [.insert .next true 1, .contains 1] =
      some (set', (run (hashsetSpec natHashsetOps id) ∅
        [.insert .next true 1, .contains 1]).2)) ↔
      Meets (hashsetSpec natHashsetOps id) (fun s call => call.ok natHashsetOps id s) ∅
        [.insert .next true 1, .contains 1] :=
  hashset_refines_iff natHashsetOps_faithful
    (rfl : hashsetInit true 4 (fun _ => none) (fun _ => none) (fun _ => 0) = some natHashset)
    (by decide) _

/-- An absent key whose copy fails with `-EEXIST`. -/
theorem not_hashset_refines :
    ¬ ∃ set', tryRun Hashset.step { natHashset with
        makeKey := natHashsetOps.makeKey
        compareKey := some natHashsetOps.compareKey
        calculateHash := some natHashsetOps.calculateHash } [.insert .next true 100] =
      some (set', (run (hashsetSpec natHashsetOps id) ∅ [.insert .next true 100]).2) := by
  rintro ⟨set', h⟩
  have hcode : (tryRun Hashset.step { natHashset with
      makeKey := natHashsetOps.makeKey
      compareKey := some natHashsetOps.compareKey
      calculateHash := some natHashsetOps.calculateHash } [.insert .next true 100]).map
      (fun r => r.2.map HashsetAnswer.present) = some [true] := by decide +kernel
  have hspec : (run (hashsetSpec natHashsetOps id) ∅ [.insert .next true 100]).2.map
      HashsetAnswer.present = [false] := by decide +kernel
  rw [h, Option.map_some, hspec] at hcode
  exact absurd hcode (by decide)

end Witness

end BigBox.Cstl
