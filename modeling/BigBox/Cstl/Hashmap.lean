import BigBox.Lib.Buckets
import BigBox.Lib.CInt
import BigBox.Lib.FiniteMap
import BigBox.Lib.Memory
import BigBox.Lib.TryRun
import BigBox.Rbtree.Linked

namespace BigBox.Cstl
open Rbtree
set_option autoImplicit true

/-- Where a pointer to a `struct hlist_node` is: in the head of a bucket or in a node. -/
inductive Slot where
  | first (b : Nat)
  | next (p : Ptr)
  deriving DecidableEq, Repr

/-- The heads of the buckets and the links of the nodes. -/
structure Hlists where
  first : Nat → Option Ptr
  next : Ptr → Option Ptr
  pprev : Ptr → Option Slot

def Hlists.write (slot : Slot) (p : Option Ptr) (m : Hlists) : Hlists :=
  match slot with
  | .first b => { m with first := Function.update m.first b p }
  | .next q => { m with next := Function.update m.next q p }

def Hlists.setPprev (p : Ptr) (slot : Option Slot) (m : Hlists) : Hlists :=
  { m with pprev := Function.update m.pprev p slot }

/-- The statement `if (p) p->pprev = slot`. -/
def Hlists.setPprevIf (p : Option Ptr) (slot : Option Slot) (m : Hlists) : Hlists :=
  match p with
  | some p => m.setPprev p slot
  | none => m

def initHlistNode (h : Ptr) (m : Hlists) : Hlists := (m.write (.next h) none).setPprev h none

def hlistAddHead (n : Ptr) (b : Nat) (m : Hlists) : Hlists :=
  let first := m.first b
  let m := m.write (.next n) first
  let m := m.setPprevIf first (some (.next n))
  let m := m.write (.first b) (some n)
  m.setPprev n (some (.first b))

/-- `hlist_del`. It has no result when it writes through a missing pointer. -/
def hlistDel (n : Ptr) (m : Hlists) : Option Hlists := do
  let next := m.next n
  let pprev ← m.pprev n
  let m := m.write pprev next
  let m := m.setPprevIf next (some pprev)
  return (m.write (.next n) none).setPprev n none

/-- `hashmap_t`. The result of `make_pair` is what it returns and leaves in a node, that of
`calculate_hash` is `none` when it fails. -/
structure Hashmap (K V : Type) where
  capacity : Nat
  size : Nat
  lists : Hlists
  key : Ptr → K
  value : Ptr → V
  blocks : List Ptr
  makePair : Option (K → V → Int × K × V)
  compareKey : Option (K → K → Int)
  calculateHash : Option (K → Option UInt32)

/-- The operations are assigned behind it. -/
def hashmapInit (capacity : Nat) (next : Ptr → Option Ptr) (pprev : Ptr → Option Slot)
    (key : Ptr → K) (value : Ptr → V) : Option (Hashmap K V) :=
  if capacity = 0 then none
  else some ⟨capacity, 0, ⟨fun _ => none, next, pprev⟩, key, value, [], none, none, none⟩

/-- The counter less one. -/
def Hashmap.sizeDown (map : Hashmap K V) : Nat := unsigned (map.size + 4294967295)

def Hashmap.findNode (map : Hashmap K V) (compareKey : K → K → Int) (key : K) (hash : Nat) :
    Option (Option Ptr) :=
  Buckets.findNode (fun node => compareKey (map.key node) key = 0) map.lists.next
    (map.blocks.length + 1) (map.lists.first hash)

/-- The two operations that every access needs. -/
def Hashmap.required (map : Hashmap K V) : Option ((K → K → Int) × (K → Option UInt32)) := do
  let calculateHash ← map.calculateHash
  let compareKey ← map.compareKey
  return (compareKey, calculateHash)

/-- What `make_pair` returns and leaves in a new node. -/
def Hashmap.makeNode (map : Hashmap K V) (key : K) (value : V) : Int × K × V :=
  match map.makePair with
  | some makePair => makePair key value
  | none => (0, key, value)

/-- A new node is put in front of a bucket. -/
def Hashmap.add (map : Hashmap K V) (node : Ptr) (hash : Nat) (key : K) (value : V) :
    Hashmap K V :=
  { map with
    lists := hlistAddHead node hash (initHlistNode node map.lists)
    key := Function.update map.key node key
    value := Function.update map.value node value
    blocks := node :: map.blocks
    size := unsigned (map.size + 1) }

def hashmapInsert (map : Hashmap K V) (a : Allocator) (key : K) (value : V) :
    Option (Hashmap K V × Int) :=
  match map.required with
  | none => some (map, -1)
  | some (compareKey, calculateHash) =>
    match calculateHash key with
    | none => some (map, -1)
    | some hash => do
      let hash := hash.toNat % map.capacity
      match ← map.findNode compareKey key hash with
      | some _ => return (map, -1)
      | none =>
        let (err, key, value) := map.makeNode key value
        if err ≠ 0 then return (map, err)
        else return (map.add (a.pick map.blocks) hash key value, 0)

/-- `lookup`. -/
def Hashmap.lookup (map : Hashmap K V) (compareKey : K → K → Int)
    (calculateHash : K → Option UInt32) (key : K) : Option (Option Ptr) :=
  match calculateHash key with
  | none => some none
  | some hash => map.findNode compareKey key (hash.toNat % map.capacity)

def hashmapRemove (map : Hashmap K V) (key : K) : Option (Hashmap K V × Int) :=
  match map.required with
  | none => some (map, -1)
  | some (compareKey, calculateHash) => do
    match ← map.lookup compareKey calculateHash key with
    | none => return (map, -1)
    | some node =>
      let lists ← hlistDel node map.lists
      return ({ map with
        lists := lists, blocks := map.blocks.erase node, size := map.sizeDown }, 0)

/-- The loop of `hashmap_clear` over a bucket. The next node is read before a node is freed. -/
def clearBucket : Nat → Option Ptr → Hlists × List Ptr → Option (Hlists × List Ptr)
  | _, none, m => some m
  | 0, some _, _ => none
  | n + 1, some node, m => do
    let hlist := m.1.next node
    let lists ← hlistDel node m.1
    clearBucket n hlist (lists, m.2.erase node)

/-- The loop of `hashmap_clear` over the first buckets. -/
def clearBuckets (rounds : Nat) : Nat → Hlists × List Ptr → Option (Hlists × List Ptr)
  | 0, m => some m
  | i + 1, m => do
    let m ← clearBuckets rounds i m
    clearBucket rounds (m.1.first i) m

/-- The counter stays as it is. -/
def hashmapClear (map : Hashmap K V) : Option (Hashmap K V × Int) := do
  let (lists, blocks) ← clearBuckets (map.blocks.length + 1) map.capacity (map.lists, map.blocks)
  return ({ map with lists := lists, blocks := blocks }, 0)

def hashmapSize (map : Hashmap K V) : Int := toInt map.size

/-- The second result is the address of the value, as the node whose field it is. -/
def hashmapLookup (map : Hashmap K V) (key : K) : Option (Int × Option Ptr) :=
  match map.required with
  | none => some (-1, none)
  | some (compareKey, calculateHash) => do
    match ← map.lookup compareKey calculateHash key with
    | none => return (-1, none)
    | some node => return (0, some node)

inductive HashmapCall (K V : Type) where
  | insert (a : Allocator) (key : K) (value : V)
  | remove (key : K)
  | lookup (key : K)
  | clear

/-- What a call returns, with the value read through the address a look-up yields, and what
`hashmap_size` returns behind it. -/
structure HashmapAnswer (V : Type) where
  ret : Int
  value : Option V
  size : Int
  deriving DecidableEq, Repr

def Hashmap.step (map : Hashmap K V) : HashmapCall K V → Option (Hashmap K V × HashmapAnswer V)
  | .insert a key value =>
    (hashmapInsert map a key value).map fun r => (r.1, ⟨r.2, none, hashmapSize r.1⟩)
  | .remove key => (hashmapRemove map key).map fun r => (r.1, ⟨r.2, none, hashmapSize r.1⟩)
  | .lookup key =>
    (hashmapLookup map key).map fun r => (map, ⟨r.1, r.2.map map.value, hashmapSize map⟩)
  | .clear => (hashmapClear map).map fun r => (r.1, ⟨r.2, none, hashmapSize r.1⟩)

end BigBox.Cstl
