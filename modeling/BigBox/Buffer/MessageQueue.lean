import BigBox.Lib.CInt
import BigBox.Lib.TryRun
import BigBox.Lib.ShiftRegister

namespace BigBox.Buffer
set_option autoImplicit true

inductive MessageItemState where
  | unsent
  | awaitingAck
  | complete
  deriving DecidableEq, Repr

def MessageItemState.code : MessageItemState → Nat
  | .unsent => 0
  | .awaitingAck => 1
  | .complete => 2

/-- `struct message_item` as it is read from memory. -/
structure MessageItem where
  start : Nat
  size : Nat
  state : Nat
  deriving DecidableEq, Repr

def sizeofItem : Nat := 24

def readItem (mem : Nat → UInt8) (item : Nat) : MessageItem :=
  ⟨readWord mem item 8, readWord mem (item + 8) 8, readWord mem (item + 16) 4⟩

def setStart (item start : Nat) (mem : Nat → UInt8) : Nat → UInt8 := writeWord mem item 8 start

def setSize (item size : Nat) (mem : Nat → UInt8) : Nat → UInt8 :=
  writeWord mem (item + 8) 8 size

def setState (item : Nat) (state : MessageItemState) (mem : Nat → UInt8) : Nat → UInt8 :=
  writeWord mem (item + 16) 4 state.code

/-- `struct message_queue` with the memory its pointers point into. -/
structure MessageQueue where
  memStart : Nat
  memEnd : Nat
  curr : Nat
  currSz : Nat
  queueTail : Nat
  mem : Nat → UInt8

/-- The address of the item with an index. -/
def mqGet (mq : MessageQueue) (index : Nat) : Nat := mq.memEnd - sizeofItem - sizeofItem * index

def mqLength (mq : MessageQueue) : Nat := (mq.memEnd - mq.queueTail) / sizeofItem

def mqCurrsz (mq : MessageQueue) : Nat :=
  if mq.curr ≥ mq.queueTail - sizeofItem then 0 else mq.queueTail - sizeofItem - mq.curr

def mqInit (mem : Nat → UInt8) (buf bufsz : Nat) : MessageQueue :=
  let mq : MessageQueue := ⟨buf, buf + bufsz, buf, 0, buf + bufsz, mem⟩
  { mq with currSz := mqCurrsz mq }

def mqRegister (mq : MessageQueue) (nbytes : Nat) : MessageQueue × Nat :=
  let tail := mq.queueTail - sizeofItem
  let mem := setStart tail mq.curr mq.mem
  let mem := setSize tail nbytes mem
  let mem := setState tail .unsent mem
  let mq := { mq with queueTail := tail, curr := mq.curr + nbytes, mem }
  ({ mq with currSz := mqCurrsz mq }, tail)

/-- The loop of `mq_clean` that looks for the first item to keep. -/
def newHead (mem : Nat → UInt8) (tail : Nat) : Nat → Nat → Option Nat
  | 0, _ => none
  | n + 1, item =>
    if item ≥ tail then
      if (readItem mem item).state ≠ MessageItemState.complete.code then some item
      else newHead mem tail n (item - sizeofItem)
    else some item

/-- The loop of `mq_clean` that moves the starts of the first items. -/
def bumpStarts (mq : MessageQueue) (removing : Nat) : Nat → Nat → UInt8
  | 0 => mq.mem
  | i + 1 =>
    let mem := bumpStarts mq removing i
    setStart (mqGet mq i) ((readItem mem (mqGet mq i)).start - removing) mem

/-- The end of `mq_clean`. The index is an `int`: there is no item with a negative one, and one
more than the greatest does not exist. -/
def moveQueue (mq : MessageQueue) (newTailIdx : Int) (removing : Nat) : Option MessageQueue :=
  if newTailIdx < 0 ∨ newTailIdx = 2147483647 then none
  else
    let idx := newTailIdx.toNat
    let mem := memmove mq.mem (mqGet mq idx) mq.queueTail (sizeofItem * (idx + 1))
    let mq := { mq with mem, queueTail := mqGet mq idx }
    let mq := { mq with mem := bumpStarts mq removing (idx + 1) }
    some { mq with currSz := mqCurrsz mq }

def mqClean (mq : MessageQueue) : Option MessageQueue := do
  let head ← newHead mq.mem mq.queueTail (mqLength mq + 1) (mqGet mq 0)
  if head < mq.queueTail then
    let mq := { mq with curr := mq.memStart, queueTail := mq.memEnd }
    return { mq with currSz := mqCurrsz mq }
  else if head = mqGet mq 0 then return mq
  else
    let start := (readItem mq.mem head).start
    let n := mq.curr - start
    let removing := start - mq.memStart
    let mq := { mq with
      mem := memmove mq.mem mq.memStart start n
      curr := mq.memStart + n }
    moveQueue mq (toInt ((head - mq.queueTail) / sizeofItem)) removing

/-- The caller packs a message and registers it, gives an item another state, or cleans. -/
inductive MqCall where
  | register (bytes : List UInt8)
  | state (index : Nat) (state : MessageItemState)
  | clean

def MessageQueue.pack (mq : MessageQueue) (bytes : List UInt8) : MessageQueue :=
  { mq with mem := writeBytes mq.mem mq.curr bytes }

/-- The output is the item that `mq_register` returns. -/
def MessageQueue.step (mq : MessageQueue) : MqCall → Option (MessageQueue × Option Nat)
  | .register bytes =>
    let (mq, item) := mqRegister (mq.pack bytes) bytes.length
    some (mq, some item)
  | .state index state => some ({ mq with mem := setState (mqGet mq index) state mq.mem }, none)
  | .clean => (mqClean mq).map fun mq => (mq, none)

/-- A message that is registered has at least one byte and fits, and a state is that of an item in
the queue. -/
def MqCall.valid (mq : MessageQueue) : MqCall → Prop
  | .register bytes => 1 ≤ bytes.length ∧ bytes.length ≤ mq.currSz
  | .state index _ => index < mqLength mq
  | .clean => True

end BigBox.Buffer
