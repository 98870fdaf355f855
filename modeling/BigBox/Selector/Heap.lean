import BigBox.Lib.RedBlack
import BigBox.Lib.TryRun
import Mathlib.Data.Finset.Basic

namespace BigBox.Selector
open RedBlack (Side)
set_option autoImplicit true

abbrev Ptr := Nat

structure Timeval where
  tv_sec : Int
  tv_usec : Int

def cmpTimeval (tv1 tv2 : Timeval) : Int :=
  if tv1.tv_sec < tv2.tv_sec then -1
  else if tv1.tv_sec > tv2.tv_sec then 1
  else if tv1.tv_usec < tv2.tv_usec then -1
  else if tv1.tv_usec > tv2.tv_usec then 1
  else 0

/-- The fields of every timer, `left` and `right` as its children, and `timer_top` and
`timer_last`. -/
structure Heap where
  timeout : Ptr → Timeval
  child : Side → Ptr → Option Ptr
  up : Ptr → Option Ptr
  top : Option Ptr
  last : Option Ptr

namespace Heap

def setChild (s : Heap) (d : Side) (x : Ptr) (y : Option Ptr) : Heap :=
  { s with child := Function.update s.child d (Function.update (s.child d) x y) }

def setUp (s : Heap) (x : Ptr) (y : Option Ptr) : Heap :=
  { s with up := Function.update s.up x y }

/-- `if(x) x->up = y;` -/
def setUpOf (s : Heap) (x : Option Ptr) (y : Ptr) : Heap :=
  match x with
  | some x => s.setUp x (some y)
  | none => s

/-- `if(x->up) { if(x->up->left == x) x->up->left = y; else x->up->right = y; } else *top = y;` -/
def replaceChild (s : Heap) (x y : Ptr) : Heap :=
  match s.up x with
  | some u => if s.child .left u = some x then s.setChild .left u (some y)
    else s.setChild .right u (some y)
  | none => { s with top := some y }

/-- `if(*last == x) *last = y;` -/
def moveLast (s : Heap) (x y : Ptr) : Heap :=
  if s.last = some x then { s with last := some y } else s

/-- `curr->up && (curr->up->left == curr)`, or `right`. -/
def isChild (s : Heap) (d : Side) (curr : Ptr) : Bool :=
  match s.up curr with
  | some u => s.child d u == some curr
  | none => false

/-- While we are a left node, or a right node, go up. -/
def climb (s : Heap) (d : Side) : Nat → Nat → Ptr → Option (Nat × Ptr)
  | 0, _, _ => none
  | fuel + 1, upcount, curr =>
    if s.isChild d curr then (s.up curr).bind fun u => s.climb d fuel (upcount + 1) u
    else some (upcount, curr)

/-- Trace down, if no pointer on the way is null. -/
def descend (s : Heap) (d : Side) : Nat → Option Ptr → Option (Option Ptr)
  | 0, curr => some curr
  | upcount + 1, curr => curr.bind fun curr => s.descend d upcount (s.child d curr)

/-- `upcount--`; an unsigned counter that wraps leads to a null pointer. -/
def decrement (upcount : Nat) : Option Nat := if upcount = 0 then none else some (upcount - 1)

/-- The parent of the next position, and the side it is on. -/
def findNextPos (fuel : Nat) (s : Heap) (curr : Ptr) : Option (Ptr × Side) :=
  if s.isChild .left curr then (s.up curr).map fun u => (u, .right)
  else (s.climb .right fuel 0 curr).bind fun (upcount, curr) =>
    match s.up curr with
    | some u => (decrement upcount).bind fun upcount =>
        (s.descend .left upcount (s.child .right u)).bind fun curr => curr.map (·, .left)
    | none => (s.descend .left upcount (some curr)).bind fun curr => curr.map (·, .left)

def findPrevElem (fuel : Nat) (s : Heap) (curr : Ptr) : Option (Option Ptr) :=
  if s.isChild .right curr then (s.up curr).map fun u => s.child .left u
  else (s.climb .left fuel 0 curr).bind fun (upcount, curr) =>
    match s.up curr with
    | some u => s.descend .right upcount (s.child .left u)
    | none => (decrement upcount).bind fun upcount => s.descend .right upcount (some curr)

/-- The body of the loop of `send_up`. -/
def swapUp (s : Heap) (elem parent : Ptr) : Heap :=
  let tmp1 := s.child .left elem
  let tmp2 := s.child .right elem
  let d : Side := if s.child .left parent = some elem then .left else .right
  let s := s.setChild d elem (some parent)
  let s := s.setChild d.other elem (s.child d.other parent)
  let s := s.setUpOf (s.child d.other elem) elem
  let s := s.setUp elem (s.up parent)
  let s := s.replaceChild parent elem
  let s := s.setUp parent (some elem)
  let s := s.setChild .left parent tmp1
  let s := s.setUpOf (s.child .left parent) parent
  let s := s.setChild .right parent tmp2
  let s := s.setUpOf (s.child .right parent) parent
  s.moveLast elem parent

def sendUp (elem : Ptr) : Nat → Heap → Option Heap
  | 0, _ => none
  | fuel + 1, s =>
    match s.up elem with
    | some parent =>
      if cmpTimeval (s.timeout elem) (s.timeout parent) < 0 then
        sendUp elem fuel (s.swapUp elem parent)
      else some s
    | none => some s

/-- Swap with the left element, or with the right one. -/
def swapDown (s : Heap) (elem other : Ptr) (d : Side) : Heap :=
  let tmp1 := s.child .left other
  let tmp2 := s.child .right other
  let s := s.replaceChild elem other
  let s := s.setUp other (s.up elem)
  let s := s.setUp elem (some other)
  let s := s.setChild d.other other (s.child d.other elem)
  let s := s.setChild d other (some elem)
  let s := s.setChild .left elem tmp1
  let s := s.setChild .right elem tmp2
  let s := s.setUpOf (s.child d.other other) other
  let s := s.setUpOf (s.child .left elem) elem
  let s := s.setUpOf (s.child .right elem) elem
  s.moveLast other elem

def sendDown (elem : Ptr) : Nat → Heap → Option Heap
  | 0, _ => none
  | fuel + 1, s =>
    match s.child .left elem with
    | none => some s
    | some left =>
      match (s.child .right elem).filter
          fun right => 0 < cmpTimeval (s.timeout left) (s.timeout right) with
      | some right =>
        if 0 < cmpTimeval (s.timeout elem) (s.timeout right) then
          sendDown elem fuel (s.swapDown elem right .right)
        else some s
      | none =>
        if 0 < cmpTimeval (s.timeout elem) (s.timeout left) then
          sendDown elem fuel (s.swapDown elem left .left)
        else some s

def addToHeap (fuel : Nat) (s : Heap) (elem : Ptr) : Option Heap :=
  let s := s.setChild .left elem none
  let s := s.setChild .right elem none
  let s := s.setUp elem none
  match s.top with
  | none => some { s with top := some elem, last := some elem }
  | some _ =>
    s.last.bind fun last => (s.findNextPos fuel last).bind fun (parent, d) =>
      let s := s.setChild d parent (some elem)
      let s := s.setUp elem (some parent)
      let s := { s with last := some elem }
      if cmpTimeval (s.timeout elem) (s.timeout parent) < 0 then sendUp elem fuel s else some s

/-- The place of `elem` is taken by `to_insert`. -/
def insertAt (s : Heap) (elem to_insert : Ptr) : Heap :=
  let s := s.replaceChild elem to_insert
  let s := s.setUp to_insert (s.up elem)
  let s := s.setUpOf (s.child .left elem) to_insert
  let s := s.setUpOf (s.child .right elem) to_insert
  let s := s.setChild .left to_insert (s.child .left elem)
  let s := s.setChild .right to_insert (s.child .right elem)
  s.moveLast elem to_insert

/-- Propagate an element to the right place in the tree. -/
def propagate (fuel : Nat) (s : Heap) (elem : Ptr) : Option Heap :=
  match (s.up elem).filter fun u => cmpTimeval (s.timeout elem) (s.timeout u) < 0 with
  | some _ => sendUp elem fuel s
  | none => sendDown elem fuel s

def removeFromHeap (fuel : Nat) (s : Heap) (elem : Ptr) : Option Heap :=
  s.last.bind fun to_insert =>
    match s.up to_insert with
    | none => some { s with top := none, last := none }
    | some u => (s.findPrevElem fuel to_insert).bind fun prev =>
      let s := { s with last := prev }
      let s := if s.child .left u = some to_insert then s.setChild .left u none
        else s.setChild .right u none
      if elem = to_insert then some s else (s.insertAt elem to_insert).propagate fuel to_insert

end Heap

/-- A timer gets its timeout and goes into the heap, or leaves it. -/
inductive Call where
  | add (elem : Ptr) (timeout : Timeval)
  | remove (elem : Ptr)

def Heap.step (fuel : Nat) (s : Heap) : Call → Option (Heap × Unit)
  | .add elem timeout =>
    (Heap.addToHeap fuel { s with timeout := Function.update s.timeout elem timeout } elem).map
      (·, ())
  | .remove elem => (s.removeFromHeap fuel elem).map (·, ())

/-- The timers added and not removed. -/
def live (timers : Finset Ptr) : Call → Finset Ptr × Unit
  | .add elem _ => (insert elem timers, ())
  | .remove elem => (timers.erase elem, ())

/-- A timer is added while it is not in the heap, and removed while it is. -/
def Valid (timers : Finset Ptr) : Call → Prop
  | .add elem _ => elem ∉ timers
  | .remove elem => elem ∈ timers

end BigBox.Selector
