import BigBox.Lib.Fifo
import BigBox.Lib.TryRun

namespace BigBox.Ringbuffer1
set_option autoImplicit true

/-- An integer as an `unsigned int`. -/
@[irreducible] def uint (n : Int) : Nat := (n % 4294967296).toNat

/-- An integer as an `int`. -/
@[irreducible] def int (n : Int) : Int := n.bmod 4294967296

/-- `RINGBUFF_T`, with the bytes `data` points at. -/
structure RingBuff where
  data : List UInt8
  count : Nat
  itemSz : Nat
  head : Nat
  tail : Nat
  deriving DecidableEq, Repr

def ringBufferInit (buffer : List UInt8) (itemSize count : Nat) : RingBuff :=
  ⟨buffer, count, itemSize, 0, 0⟩

section Calls
variable (rb : RingBuff)

/-- `RB_INDH`. -/
def indH : Nat := rb.head &&& (rb.count - 1)

/-- `RB_INDT`. -/
def indT : Nat := rb.tail &&& (rb.count - 1)

def getCount : Int := int ((rb.head : Int) - rb.tail)

def getFree : Int := rb.count - getCount rb

/-- The number of bytes of some items, a product of two `int`s. -/
def byteCount (cnt : Int) : Option Nat :=
  if 0 ≤ cnt * rb.itemSz ∧ cnt * rb.itemSz < 2147483648 then some (cnt * rb.itemSz).toNat
  else none

/-- The offset of an item, a product of an `unsigned int` and an `int`. -/
def offset (ind : Nat) : Nat := uint ((ind : Int) * rb.itemSz)

/-- The segment lengths both block calls compute, of `n` items from an index on. -/
def segments (n : Int) (ind : Nat) (num : Int) : Int × Int :=
  let cnt1 := if rb.count ≤ uint (ind + n) then int (rb.count - ind) else n
  (min cnt1 num, min (n - cnt1) (num - min cnt1 num))

/-- A segment is copied to the head, which moves on. -/
def write (bytes : List UInt8) (cnt : Int) : RingBuff :=
  { rb with
    data := copyAt rb.data (offset rb (indH rb)) bytes
    head := uint (rb.head + cnt) }

/-- A segment at the tail, which moves on. -/
def read (n : Nat) (cnt : Int) : RingBuff × List UInt8 :=
  ({ rb with tail := uint (rb.tail + cnt) }, (rb.data.drop (offset rb (indT rb))).take n)

def ringBufferInsert (data : List UInt8) : RingBuff × Int :=
  if (rb.count : Int) ≤ getCount rb then (rb, 0)
  else (write rb (data.take rb.itemSz) 1, 1)

def ringBufferInsertMult (data : List UInt8) (num : Int) : Option (RingBuff × Int) :=
  if (rb.count : Int) ≤ getCount rb then some (rb, 0)
  else
    let cnt := segments rb (getFree rb) (indH rb) num
    (byteCount rb cnt.1).bind fun n₁ => (byteCount rb cnt.2).map fun n₂ =>
      (write (write rb (data.take n₁) cnt.1) ((data.drop n₁).take n₂) cnt.2, cnt.1 + cnt.2)

/-- The bytes that land in the caller's array come with the result. -/
def ringBufferPop : RingBuff × Int × List UInt8 :=
  if rb.head = rb.tail then (rb, 0, [])
  else
    let r := read rb rb.itemSz 1
    (r.1, 1, r.2)

def ringBufferPopMult (num : Int) : Option (RingBuff × Int × List UInt8) :=
  if rb.head = rb.tail then some (rb, 0, [])
  else
    let cnt := segments rb (getCount rb) (indT rb) num
    (byteCount rb cnt.1).bind fun n₁ => (byteCount rb cnt.2).map fun n₂ =>
      let r₁ := read rb n₁ cnt.1
      let r₂ := read r₁.1 n₂ cnt.2
      (r₂.1, cnt.1 + cnt.2, r₁.2 ++ r₂.2)

end Calls

inductive Call where
  | insert (item : List UInt8)
  | insertMult (items : List (List UInt8))
  | pop
  | popMult (num : Nat)

/-- The call of a queue of items that it stands for. -/
def Call.toFifo : Call → Fifo.Call (List UInt8)
  | .insert item => .put [item]
  | .insertMult items => .put items
  | .pop => .get 1
  | .popMult num => .get num

/-- A call with what it returns and the bytes it delivers. -/
def ringStep (rb : RingBuff) : Call → Option (RingBuff × Int × List UInt8)
  | .insert item => some ((ringBufferInsert rb item).1, (ringBufferInsert rb item).2, [])
  | .insertMult items =>
    (ringBufferInsertMult rb items.flatten items.length).map fun r => (r.1, r.2, [])
  | .pop => some (ringBufferPop rb)
  | .popMult num => ringBufferPopMult rb num

/-- Items of the ring buffer's size, and no more of them than an `int` counts. -/
def Call.Valid (itemSz : Nat) : Call → Prop
  | .insert item => item.length = itemSz
  | .insertMult items => (∀ item ∈ items, item.length = itemSz) ∧ items.length < 2147483648
  | .pop => True
  | .popMult num => num < 2147483648

/-- Items are inserted one at a time. -/
def inserts (rb : RingBuff) (items : List (List UInt8)) : RingBuff × List Int :=
  run ringBufferInsert rb items

/-- Items are popped one at a time. -/
def pops (rb : RingBuff) (num : Nat) : RingBuff × List (Int × List UInt8) :=
  run (fun rb (_ : Unit) => ringBufferPop rb) rb (List.replicate num ())

/-- A block call does what its items do one at a time. -/
def Call.ItemWise (rb : RingBuff) : Call → Prop
  | .insertMult items =>
    let r := inserts rb (items.take (getFree rb).toNat)
    ringBufferInsertMult rb items.flatten items.length = some (r.1, r.2.sum)
  | .popMult num =>
    let r := pops rb (min num (getCount rb).toNat)
    ringBufferPopMult rb num = some (r.1, (r.2.map Prod.fst).sum, (r.2.map Prod.snd).flatten)
  | _ => True

/-- No offset of the next items wraps around. -/
def InReach (rb : RingBuff) (ind n : Nat) : Prop :=
  ∀ i, i < n → (ind + i) % rb.count * rb.itemSz < 4294967296

/-- The bytes of `n` items from an index on can be counted, up to the end of the buffer and
behind it. -/
def Countable (rb : RingBuff) (ind n : Nat) : Prop :=
  min n (rb.count - ind) * rb.itemSz < 2147483648 ∧
    (n - (rb.count - ind)) * rb.itemSz < 2147483648

/-- No product of a call overflows. -/
def Call.Fits (rb : RingBuff) : Call → Prop
  | .insert _ => InReach rb (indH rb) (min 1 (getFree rb).toNat)
  | .insertMult items =>
    InReach rb (indH rb) (min items.length (getFree rb).toNat) ∧
      Countable rb (indH rb) (min items.length (getFree rb).toNat)
  | .pop => InReach rb (indT rb) (min 1 (getCount rb).toNat)
  | .popMult num =>
    InReach rb (indT rb) (min num (getCount rb).toNat) ∧
      Countable rb (indT rb) (min num (getCount rb).toNat)

end BigBox.Ringbuffer1
