import BigBox.Lib.Buckets
import BigBox.Lib.CInt
import BigBox.Lib.Memory
import BigBox.Lib.TryRun

namespace BigBox.Timer
open Buckets
set_option autoImplicit true

def sdHashFulltab : Nat := 2
def sdHashGrowtab : Nat := 4
def sdHashDefaultSize : Nat := 10

/-- The address of a `hash_iter_t`. -/
abbrev Iter := Nat

/-- `hash_ops_t` without the operations that free. A null pointer is `none`. -/
structure HashOps (K D : Type) where
  hash : Option K → UInt32
  compare : Option K → Option K → Int
  keyDup : Option (Option K → Option K)
  dataDup : Option (Option D → Option D)

/-- The buckets and the links of the entries. -/
structure HashLinks where
  tab : Nat → Option Iter
  next : Iter → Option Iter
  prev : Iter → Option Iter

/-- `hash_t` with the fields of the entries and the addresses of those allocated. -/
structure HashTable (K D : Type) where
  nelem : Nat
  size : Nat
  links : HashLinks
  key : Iter → Option K
  data : Iter → Option D
  hkey : Iter → UInt32
  foreach : Iter → Int
  blocks : List Iter
  ops : HashOps K D

def newSize (aSize : Nat) : Nat := if aSize = 0 then sdHashDefaultSize else aSize

/-- There is no table whose pointers take more than the address space. -/
def hashNew (memory : HashTable K D) (aSize : Nat) (ops : HashOps K D) : Option (HashTable K D) :=
  if 8 * newSize aSize < 2 ^ 64 then
    some { memory with
      nelem := 0
      size := newSize aSize
      links := { memory.links with tab := fun _ => none }
      blocks := []
      ops }
  else none

/-- A division by zero has no result. -/
def hindex (h : UInt32) (n : Nat) : Option Nat := if n = 0 then none else some (h.toNat % n)

/-- The bucket with an index kept in an `int`. There is none with a negative index. -/
def bucketAt (i : Nat) : Option Nat := if toInt i < 0 then none else some (toInt i).toNat

def HashLinks.setPrev (p : Iter) (prev : Option Iter) (m : HashLinks) : HashLinks :=
  { m with prev := Function.update m.prev p prev }

/-- The statement `if (p != 0) p->prev = prev`. -/
def HashLinks.setPrevIf (p : Option Iter) (prev : Option Iter) (m : HashLinks) : HashLinks :=
  match p with
  | some p => m.setPrev p prev
  | none => m

/-- An entry is put in front of a bucket. -/
def HashLinks.link (p : Iter) (h : Nat) (m : HashLinks) : HashLinks :=
  let m := { m with next := Function.update m.next p (m.tab h) }
  let m := { m with tab := Function.update m.tab h (some p) }
  m.setPrevIf (m.next p) (some p)

/-- The loop over the bucket of a key. -/
def HashTable.find (t : HashTable K D) (key : Option K) : Option (Option Iter) := do
  let h ← bucketAt (← hindex (t.ops.hash key) t.size)
  findNode (fun p => t.ops.compare key (t.key p) = 0) t.links.next (t.blocks.length + 1)
    (t.links.tab h)

def hashLookup (t : HashTable K D) (key : Option K) : Option (Option Iter) :=
  match key with
  | none => some none
  | some _ => t.find key

/-- The loop of `rehash` over an old bucket. -/
def relinkBucket (hkey : Iter → UInt32) (size : Nat) :
    Nat → Option Iter → HashLinks → Option HashLinks
  | _, none, m => some m
  | 0, some _, _ => none
  | n + 1, some p, m => do
    let q := m.next p
    let h ← hindex (hkey p) size
    relinkBucket hkey size n q ((m.link p h).setPrev p none)

/-- The loop of `rehash` over the first old buckets. -/
def relinkBuckets (hkey : Iter → UInt32) (size rounds : Nat) (old : Nat → Option Iter) :
    Nat → HashLinks → Option HashLinks
  | 0, m => some m
  | i + 1, m => do
    let m ← relinkBuckets hkey size rounds old i m
    relinkBucket hkey size rounds (old i) m

/-- The new size as the `int` it is kept in. -/
def grownSize (size : Nat) : Int := toInt (sdHashGrowtab * size)

/-- `grow` tells whether `calloc` has memory for the new table. It never has for a negative
size. -/
def rehash (t : HashTable K D) (grow : Bool) : Option (HashTable K D) :=
  let size := grownSize t.size
  if size < 0 ∨ grow = false then some t
  else do
    let links ← relinkBuckets t.hkey size.toNat (t.blocks.length + 1) t.links.tab t.size
      { t.links with tab := fun _ => none }
    return { t with links, size := size.toNat }

def growIfFull (t : HashTable K D) (grow : Bool) : Option (HashTable K D) :=
  if t.nelem > sdHashFulltab * t.size then rehash t grow else some t

/-- A new entry before it is linked. -/
def HashTable.calloc (t : HashTable K D) (p : Iter) (key : Option K) : HashTable K D :=
  let dup := match t.ops.keyDup with
    | some keyDup => keyDup key
    | none => key
  { t with
    links := { t.links with
      next := Function.update t.links.next p none
      prev := Function.update t.links.prev p none }
    key := Function.update t.key p dup
    data := Function.update t.data p none
    hkey := Function.update t.hkey p (t.ops.hash key)
    foreach := Function.update t.foreach p 0
    blocks := p :: t.blocks }

def hashLookadd (t : HashTable K D) (a : Allocator) (grow : Bool) (key : Option K) :
    Option (HashTable K D × Option Iter) :=
  match key with
  | none => some (t, none)
  | some _ => do
    match ← hashLookup t key with
    | some p => return (t, some p)
    | none =>
      let p := a.pick t.blocks
      let t := t.calloc p key
      let t ← growIfFull t grow
      let h ← bucketAt (← hindex (t.hkey p) t.size)
      return ({ t with links := t.links.link p h, nelem := t.nelem + 1 }, some p)

def HashTable.setData (t : HashTable K D) (p : Iter) (data : Option D) : HashTable K D :=
  let dup := match t.ops.dataDup with
    | some dataDup => dataDup data
    | none => data
  { t with data := Function.update t.data p dup }

def hashAdd (t : HashTable K D) (a : Allocator) (grow : Bool) (key : Option K)
    (data : Option D) : Option (HashTable K D × Option Iter) := do
  match ← hashLookadd t a grow key with
  | (t, none) => return (t, none)
  | (t, some p) => return (t.setData p data, some p)

/-- The statement that takes an entry out of the list behind its `prev`, or of its bucket. -/
def HashLinks.unlink (p : Iter) (hkey : UInt32) (size : Nat) (m : HashLinks) :
    Option HashLinks := do
  let m := m.setPrevIf (m.next p) (m.prev p)
  match m.prev p with
  | some q => return { m with next := Function.update m.next q (m.next p) }
  | none =>
    let h ← hindex hkey size
    return { m with tab := Function.update m.tab h (m.next p) }

/-- An entry that `hash_foreach` is at stays in its list. -/
def hashIterDel (t : HashTable K D) (p : Iter) : Option (HashTable K D) := do
  let t := { t with data := Function.update t.data p none, key := Function.update t.key p none }
  if t.foreach p = 1 then return { t with foreach := Function.update t.foreach p 0 }
  else
    let links ← t.links.unlink p (t.hkey p) t.size
    return { t with links, nelem := t.nelem - 1, blocks := t.blocks.erase p }

def hashDel (t : HashTable K D) (key : Option K) : Option (HashTable K D) := do
  match ← t.find key with
  | none => return t
  | some p => hashIterDel t p

/-- The loop of `hash_clear` over a bucket. -/
def clearBucket (next : Iter → Option Iter) :
    Nat → Option Iter → List Iter → Option (List Iter)
  | _, none, blocks => some blocks
  | 0, some _, _ => none
  | n + 1, some p, blocks => clearBucket next n (next p) (blocks.erase p)

/-- The loop of `hash_clear` over the first buckets. -/
def clearBuckets (next : Iter → Option Iter) (rounds : Nat) :
    Nat → (Nat → Option Iter) × List Iter → Option ((Nat → Option Iter) × List Iter)
  | 0, m => some m
  | h + 1, m => do
    let (tab, blocks) ← clearBuckets next rounds h m
    let blocks ← clearBucket next rounds (tab h) blocks
    return (Function.update tab h none, blocks)

def hashClear (t : HashTable K D) : Option (HashTable K D) := do
  let (tab, blocks) ← clearBuckets t.links.next (t.blocks.length + 1) t.size
    (t.links.tab, t.blocks)
  return { t with links := { t.links with tab }, blocks, nelem := 0 }

inductive HashCall (K D : Type) where
  | add (a : Allocator) (grow : Bool) (key : K) (data : Option D)
  | lookadd (a : Allocator) (grow : Bool) (key : K)
  | del (key : K)
  | iterDel (p : Iter)
  | clear
  | lookup (key : K)

/-- The entry a call returns with what its data stand for, and `nelem` behind the call. -/
structure HashAnswer (E : Type) where
  iter : Option Iter
  data : Option E
  nelem : Nat
  deriving DecidableEq, Repr

def HashTable.answer (value : Option D → E) (t : HashTable K D) (p : Option Iter) :
    HashAnswer E := ⟨p, p.map fun p => value (t.data p), t.nelem⟩

def HashTable.step (value : Option D → E) (t : HashTable K D) :
    HashCall K D → Option (HashTable K D × HashAnswer E)
  | .add a grow key data =>
    (hashAdd t a grow (some key) data).map fun r => (r.1, r.1.answer value r.2)
  | .lookadd a grow key =>
    (hashLookadd t a grow (some key)).map fun r => (r.1, r.1.answer value r.2)
  | .del key => (hashDel t (some key)).map fun t => (t, t.answer value none)
  | .iterDel p => (hashIterDel t p).map fun t => (t, t.answer value none)
  | .clear => (hashClear t).map fun t => (t, t.answer value none)
  | .lookup key => (hashLookup t (some key)).map fun p => (t, t.answer value p)

end BigBox.Timer
