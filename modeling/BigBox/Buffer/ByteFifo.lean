import BigBox.Lib.CInt
import BigBox.Lib.Fifo

namespace BigBox.ByteFifo
set_option autoImplicit true

/-- `fifo_t`, with the bytes of its buffer. The sizes and indices are `uint32_t`. -/
structure FifoT where
  buffer : List UInt8
  size : Nat
  head : Nat
  tail : Nat
  deriving DecidableEq, Repr

def ringBufferInit (buffer : List UInt8) (size : Nat) : FifoT := ⟨buffer, size, 0, 0⟩

section Calls
variable (rb : FifoT)

/-- From the tail to the last index. -/
def tailToEnd : Nat := unsigned (rb.size + 4294967296 - 1 - rb.tail)

def headToEnd : Nat := unsigned (rb.size + 4294967296 - rb.head)

def ringBufferFreeSpace : Nat := unsigned (tailToEnd rb + rb.head) % rb.size

def ringBufferUsedSpace : Nat := unsigned (headToEnd rb + rb.tail) % rb.size

/-- The contiguous bytes behind the pointer to the head. -/
def ringBufferGetData : List UInt8 :=
  (rb.buffer.drop rb.head).take
    (min (headToEnd rb) (unsigned (headToEnd rb + rb.tail) % rb.size))

def ringBufferConsume (bytesConsumed : Nat) : FifoT :=
  { rb with head := unsigned (rb.head + bytesConsumed) % rb.size }

def ringBufferWrite (data : List UInt8) : FifoT × Nat :=
  let amountToCopy := min data.length (unsigned (tailToEnd rb + rb.head) % rb.size)
  let tailToEnd' := unsigned (tailToEnd rb + 1)
  let front := copyAt rb.buffer rb.tail (data.take (min amountToCopy tailToEnd'))
  let buffer := if tailToEnd' < amountToCopy then
    copyAt front 0 ((data.drop tailToEnd').take (amountToCopy - tailToEnd')) else front
  ({ rb with buffer := buffer, tail := unsigned (rb.tail + amountToCopy) % rb.size }, amountToCopy)

/-- The loop of `ring_buffer_read`. -/
def readLoop : Nat → Nat → List UInt8
  | 0, _ => []
  | n + 1, head => rb.buffer.getD head 0 :: readLoop n (unsigned (head + 1) % rb.size)

/-- The bytes that land in the caller's array. -/
def ringBufferRead (dataLength : Nat) : FifoT × List UInt8 :=
  let maxBytesToRead := min dataLength (ringBufferUsedSpace rb)
  if maxBytesToRead ≠ 0 then
    (ringBufferConsume rb maxBytesToRead, readLoop rb maxBytesToRead rb.head)
  else (rb, [])

/-- `ring_buffer_get_data`, then `ring_buffer_consume` of as many of these bytes. -/
def drain (n : Nat) : FifoT × List UInt8 :=
  let data := (ringBufferGetData rb).take n
  (ringBufferConsume rb data.length, data)

end Calls

inductive Call where
  | write (data : List UInt8)
  | read (dataLength : Nat)
  | drain (n : Nat)

/-- A call with how many bytes it moves, the bytes it delivers and the space used after it. -/
def ringStep (rb : FifoT) : Call → FifoT × Fifo.Reply UInt8
  | .write data =>
    let r := ringBufferWrite rb data
    (r.1, ⟨r.2, [], ringBufferUsedSpace r.1⟩)
  | .read dataLength =>
    let r := ringBufferRead rb dataLength
    (r.1, ⟨r.2.length, r.2, ringBufferUsedSpace r.1⟩)
  | .drain n =>
    let r := drain rb n
    (r.1, ⟨r.2.length, r.2, ringBufferUsedSpace r.1⟩)

/-- The call of a queue of bytes that it stands for: a drain takes no more than it was shown. -/
def Call.toFifo (rb : FifoT) : Call → Fifo.Call UInt8
  | .write data => .put data
  | .read dataLength => .get dataLength
  | .drain n => .get (min n (ringBufferGetData rb).length)

/-- The calls of a queue of bytes that a run stands for. -/
def fifoCalls (rb : FifoT) : List Call → List (Fifo.Call UInt8)
  | [] => []
  | c :: cs => c.toFifo rb :: fifoCalls (ringStep rb c).1 cs

/-- Bytes are drained, some at a time. -/
def drains (rb : FifoT) (ns : List Nat) : FifoT × List UInt8 :=
  let r := run drain rb ns
  (r.1, r.2.flatten)

/-- A byte FIFO that holds some bytes. -/
structure FifoT.Holds (rb : FifoT) (bytes : List UInt8) : Prop where
  size_le : rb.size ≤ 2147483648
  buffer_length : rb.buffer.length = rb.size
  head_lt : rb.head < rb.size
  tail_lt : rb.tail < rb.size
  length_lt : bytes.length < rb.size
  wraps : WrapsTo rb.size (rb.head + bytes.length) rb.tail
  bytes_eq : window rb.buffer rb.head bytes.length = bytes

section Spaces
variable {rb : FifoT} {bytes : List UInt8}

theorem FifoT.Holds.tailToEnd_eq (h : rb.Holds bytes) : tailToEnd rb = rb.size - 1 - rb.tail := by
  have hsize := h.size_le
  have htail := h.tail_lt
  have hsum : rb.size + 4294967296 - 1 - rb.tail = rb.size - 1 - rb.tail + 4294967296 := by omega
  rw [tailToEnd, hsum]
  unfold unsigned
  rw [Nat.add_mod_right, Nat.mod_eq_of_lt (by omega)]

theorem FifoT.Holds.headToEnd_eq (h : rb.Holds bytes) : headToEnd rb = rb.size - rb.head := by
  have hsize := h.size_le
  have hhead := h.head_lt
  have hsum : rb.size + 4294967296 - rb.head = rb.size - rb.head + 4294967296 := by omega
  rw [headToEnd, hsum]
  unfold unsigned
  rw [Nat.add_mod_right, Nat.mod_eq_of_lt (by omega)]

theorem FifoT.Holds.usedSpace_eq (h : rb.Holds bytes) : ringBufferUsedSpace rb = bytes.length := by
  have hsize := h.size_le
  have hhead := h.head_lt
  have htail := h.tail_lt
  have hlen := h.length_lt
  rw [ringBufferUsedSpace, h.headToEnd_eq, unsigned_of_lt (by omega)]
  rcases h.wraps with he | he
  · have hsum : rb.size - rb.head + rb.tail = bytes.length + rb.size := by omega
    rw [hsum, Nat.add_mod_right, Nat.mod_eq_of_lt hlen]
  · have hsum : rb.size - rb.head + rb.tail = bytes.length := by omega
    rw [hsum, Nat.mod_eq_of_lt hlen]

theorem FifoT.Holds.freeSpace_eq (h : rb.Holds bytes) :
    ringBufferFreeSpace rb = rb.size - 1 - bytes.length := by
  have hsize := h.size_le
  have hhead := h.head_lt
  have htail := h.tail_lt
  have hlen := h.length_lt
  rw [ringBufferFreeSpace, h.tailToEnd_eq, unsigned_of_lt (by omega)]
  rcases h.wraps with he | he
  · have hsum : rb.size - 1 - rb.tail + rb.head = rb.size - 1 - bytes.length := by omega
    rw [hsum, Nat.mod_eq_of_lt (by omega)]
  · have hsum : rb.size - 1 - rb.tail + rb.head = rb.size - 1 - bytes.length + rb.size := by omega
    rw [hsum, Nat.add_mod_right, Nat.mod_eq_of_lt (by omega)]

/-- An index that moves on wraps around at the size. -/
theorem FifoT.Holds.move (h : rb.Holds bytes) (hi : i < rb.size) (hn : n ≤ rb.size) :
    WrapsTo rb.size (i + n) (unsigned (i + n) % rb.size) ∧
      unsigned (i + n) % rb.size < rb.size := by
  have hsize := h.size_le
  have hlt : unsigned (i + n) % rb.size < rb.size := Nat.mod_lt _ (by omega)
  rw [unsigned_of_lt (by omega)] at hlt ⊢
  refine ⟨?_, hlt⟩
  rcases Nat.lt_or_ge (i + n) rb.size with hin | hover
  · exact .inl (Nat.mod_eq_of_lt hin).symm
  · rw [Nat.mod_eq_sub_mod hover, Nat.mod_eq_of_lt (by omega)]
    exact .inr (by omega)

end Spaces

section Calls
variable {rb : FifoT} {bytes : List UInt8}

/-- Consuming bytes leaves the others. -/
theorem FifoT.Holds.consumed (h : rb.Holds bytes) (hn : n ≤ bytes.length) :
    (ringBufferConsume rb n).Holds (bytes.drop n) := by
  have hlen := h.length_lt
  obtain ⟨hwraps, hlt⟩ := h.move h.head_lt (n := n) (by omega)
  have hlength : rb.buffer.length = rb.size := h.buffer_length
  have hwindow : (window rb.buffer rb.head bytes.length).drop n =
      window rb.buffer (unsigned (rb.head + n) % rb.size) (bytes.length - n) :=
    window_drop rb.buffer hn (by omega) (hlength.symm ▸ hwraps)
  refine ⟨h.size_le, h.buffer_length, hlt, h.tail_lt, ?_, ?_, ?_⟩
  · rw [List.length_drop]
    exact Nat.lt_of_le_of_lt (Nat.sub_le _ _) hlen
  · rw [List.length_drop]
    change WrapsTo rb.size (unsigned (rb.head + n) % rb.size + (bytes.length - n)) rb.tail
    have htail := h.tail_lt
    have hold := h.wraps
    unfold WrapsTo at hold hwraps ⊢
    omega
  · rw [h.bytes_eq] at hwindow
    rw [List.length_drop]
    exact hwindow.symm

/-- The contiguous bytes are the oldest ones. -/
theorem FifoT.Holds.getData (h : rb.Holds bytes) :
    ringBufferGetData rb = bytes.take (min (rb.size - rb.head) bytes.length) := by
  have hhead := h.head_lt
  have hlength := h.buffer_length
  have hused := h.usedSpace_eq
  rw [ringBufferUsedSpace] at hused
  rw [ringBufferGetData, hused, h.headToEnd_eq, ← window_eq_slice _ (by omega),
    ← window_take _ _ (Nat.min_le_right _ _), h.bytes_eq]

theorem FifoT.Holds.drained (h : rb.Holds bytes) (n : Nat) :
    (drain rb n).1.Holds (bytes.drop (min n (ringBufferGetData rb).length)) ∧
      (drain rb n).2 = bytes.take (min n (ringBufferGetData rb).length) := by
  have hdata : (ringBufferGetData rb).take n =
      bytes.take (min n (ringBufferGetData rb).length) := by
    rw [h.getData, List.take_take, List.length_take, List.take_eq_take_iff]
    omega
  have hlength : ((ringBufferGetData rb).take n).length =
      min n (ringBufferGetData rb).length := List.length_take
  have hle : (ringBufferGetData rb).length ≤ bytes.length := by
    rw [h.getData, List.length_take]
    omega
  rw [drain, hlength]
  exact ⟨h.consumed (by omega), hdata⟩

theorem window_one (cells : List UInt8) (hs : s < cells.length) :
    window cells s 1 = [cells.getD s 0] := by
  rw [window_eq_slice cells (by omega), List.drop_eq_getElem_cons hs, List.take_succ_cons,
    List.take_zero, List.getD_eq_getElem?_getD, List.getElem?_eq_getElem hs, Option.getD_some]

/-- The loop delivers the bytes from an index on. -/
theorem FifoT.Holds.readLoop_eq (h : rb.Holds bytes) (hs : s < rb.size) (hn : n ≤ rb.size) :
    readLoop rb n s = window rb.buffer s n := by
  induction n generalizing s with
  | zero => exact List.take_zero.symm
  | succ n ih =>
    have hlength : rb.buffer.length = rb.size := h.buffer_length
    obtain ⟨hwraps, hlt⟩ := h.move hs (n := 1) (by omega)
    have hfirst : (window rb.buffer s (n + 1)).take 1 = [rb.buffer.getD s 0] := by
      rw [window_take _ _ (Nat.succ_le_succ (Nat.zero_le n)), window_one _ (by omega)]
    have hrest : (window rb.buffer s (n + 1)).drop 1 =
        window rb.buffer (unsigned (s + 1) % rb.size) n :=
      window_drop rb.buffer (Nat.succ_le_succ (Nat.zero_le n)) (by omega) (hlength.symm ▸ hwraps)
    rw [readLoop, ih hlt (by omega), ← hrest, ← List.singleton_append, ← hfirst,
      List.take_append_drop]

theorem drop_min_length (bytes : List α) (n : Nat) :
    bytes.drop (min n bytes.length) = bytes.drop n := by
  rcases Nat.le_total n bytes.length with hle | hle
  · rw [Nat.min_eq_left hle]
  · rw [Nat.min_eq_right hle, List.drop_length, List.drop_of_length_le hle]

theorem FifoT.Holds.reads (h : rb.Holds bytes) (n : Nat) :
    (ringBufferRead rb n).1.Holds (bytes.drop n) ∧ (ringBufferRead rb n).2 = bytes.take n := by
  have hlen := h.length_lt
  rw [ringBufferRead, h.usedSpace_eq]
  have hle : min n bytes.length ≤ bytes.length := Nat.min_le_right _ _
  rw [← drop_min_length, List.take_eq_take_min]
  split
  case isTrue hpos =>
    refine ⟨h.consumed hle, ?_⟩
    rw [h.readLoop_eq h.head_lt (by omega), ← window_take _ _ hle, h.bytes_eq]
  case isFalse hzero =>
    rw [Classical.not_not.1 hzero, List.drop_zero, List.take_zero]
    exact ⟨h, rfl⟩

/-- Writing appends the bytes there is room for. -/
theorem FifoT.Holds.writes (h : rb.Holds bytes) (data : List UInt8) :
    (ringBufferWrite rb data).1.Holds (bytes ++ data.take (rb.size - 1 - bytes.length)) ∧
      (ringBufferWrite rb data).2 = min data.length (rb.size - 1 - bytes.length) := by
  have hsize := h.size_le
  have htail := h.tail_lt
  have hlen := h.length_lt
  have hlength := h.buffer_length
  have hfree := h.freeSpace_eq
  rw [ringBufferFreeSpace] at hfree
  have hend : unsigned (tailToEnd rb + 1) = rb.size - rb.tail := by
    rw [h.tailToEnd_eq, unsigned_of_lt (by omega)]
    omega
  rw [ringBufferWrite, hfree, hend]
  generalize hm : min data.length (rb.size - 1 - bytes.length) = m
  have hdata : data.take (rb.size - 1 - bytes.length) = data.take m := by
    rw [List.take_eq_take_min, Nat.min_comm, hm]
  have htake : (data.take m).length = m := by
    rw [List.length_take]
    omega
  have hover : Overlaid rb.buffer rb.tail (data.take m)
      (if rb.size - rb.tail < m then
        copyAt (copyAt rb.buffer rb.tail (data.take (min m (rb.size - rb.tail)))) 0
          ((data.drop (rb.size - rb.tail)).take (m - (rb.size - rb.tail)))
      else copyAt rb.buffer rb.tail (data.take (min m (rb.size - rb.tail)))) := by
    split
    case isTrue hwrap =>
      have hfirst : data.take (min m (rb.size - rb.tail)) =
          (data.take m).take (rb.buffer.length - rb.tail) := by
        rw [List.take_take, hlength, Nat.min_comm]
      have hsecond : (data.drop (rb.size - rb.tail)).take (m - (rb.size - rb.tail)) =
          (data.take m).drop (rb.buffer.length - rb.tail) := by
        rw [List.drop_take, hlength]
      rw [hfirst, hsecond]
      exact overlaid_wrap rb.buffer (by omega) (by omega) (by omega)
    case isFalse hfit =>
      rw [Nat.min_eq_left (by omega)]
      exact overlaid_copyAt rb.buffer (by omega)
  have hwindow := hover.window_append (hlength.symm ▸ h.wraps) (by omega)
  obtain ⟨hwraps, hlt⟩ := h.move htail (n := m) (by omega)
  rw [htake, h.bytes_eq] at hwindow
  refine ⟨⟨hsize, hover.length_eq.trans hlength, h.head_lt, hlt, ?_, ?_, ?_⟩, rfl⟩
  · rw [hdata, List.length_append, htake]
    change bytes.length + m < rb.size
    omega
  · rw [hdata, List.length_append, htake]
    have hold := h.wraps
    have hhead := h.head_lt
    change WrapsTo rb.size (rb.head + (bytes.length + m)) (unsigned (rb.tail + m) % rb.size)
    unfold WrapsTo at hold hwraps ⊢
    omega
  · rw [hdata, List.length_append, htake]
    exact hwindow

end Calls

section Runs
variable {rb : FifoT} {bytes : List UInt8}

/-- A byte FIFO of a size that holds the bytes of a queue. -/
def Represents (n : Nat) (rb : FifoT) (q : Fifo UInt8 (n - 1)) : Prop :=
  rb.Holds q.items ∧ rb.size = n

theorem ringStep_write (rb : FifoT) (data : List UInt8) : ringStep rb (.write data) =
    ((ringBufferWrite rb data).1, ⟨(ringBufferWrite rb data).2, [],
      ringBufferUsedSpace (ringBufferWrite rb data).1⟩) := rfl

theorem ringStep_read (rb : FifoT) (n : Nat) : ringStep rb (.read n) =
    ((ringBufferRead rb n).1, ⟨(ringBufferRead rb n).2.length, (ringBufferRead rb n).2,
      ringBufferUsedSpace (ringBufferRead rb n).1⟩) := rfl

theorem ringStep_drain (rb : FifoT) (n : Nat) : ringStep rb (.drain n) =
    ((drain rb n).1, ⟨(drain rb n).2.length, (drain rb n).2,
      ringBufferUsedSpace (drain rb n).1⟩) := rfl

theorem ringBufferWrite_size (rb : FifoT) (data : List UInt8) :
    (ringBufferWrite rb data).1.size = rb.size := by
  obtain ⟨buffer, tail, n, h⟩ : ∃ buffer tail n,
      ringBufferWrite rb data = (⟨buffer, rb.size, rb.head, tail⟩, n) := ⟨_, _, _, rfl⟩
  rw [h]

theorem ringBufferRead_size (rb : FifoT) (n : Nat) : (ringBufferRead rb n).1.size = rb.size := by
  rw [ringBufferRead]
  split
  case isTrue => rfl
  case isFalse => rfl

theorem drain_size (rb : FifoT) (n : Nat) : (drain rb n).1.size = rb.size := rfl

theorem step_put (q : Fifo UInt8 cap) (data : List UInt8) : q.step (.put data) =
    (q.put data, ⟨min data.length q.free, [], (q.items ++ data.take q.free).length⟩) := rfl

theorem step_get (q : Fifo UInt8 cap) (n : Nat) : q.step (.get n) =
    (q.get n, ⟨min n q.items.length, q.items.take n, (q.items.drop n).length⟩) := rfl

theorem Represents.step {q : Fifo UInt8 (n - 1)} (h : Represents n rb q) (c : Call) :
    Represents n (ringStep rb c).1 (q.step (c.toFifo rb)).1 ∧
      (ringStep rb c).2 = (q.step (c.toFifo rb)).2 := by
  obtain ⟨hholds, hsize⟩ := h
  cases c with
  | write data =>
    have hfree : q.free = rb.size - 1 - q.items.length := by rw [hsize, Fifo.free]
    obtain ⟨hafter, hcount⟩ := hholds.writes data
    rw [← hfree] at hafter hcount
    rw [Call.toFifo, ringStep_write, step_put]
    dsimp only
    rw [hafter.usedSpace_eq, hcount]
    exact ⟨⟨hafter, (ringBufferWrite_size rb data).trans hsize⟩, rfl⟩
  | read m =>
    obtain ⟨hafter, hread⟩ := hholds.reads m
    rw [Call.toFifo, ringStep_read, step_get]
    dsimp only
    rw [hafter.usedSpace_eq, hread, List.length_take]
    exact ⟨⟨hafter, (ringBufferRead_size rb m).trans hsize⟩, rfl⟩
  | drain m =>
    obtain ⟨hafter, hdrain⟩ := hholds.drained m
    rw [Call.toFifo, ringStep_drain, step_get]
    dsimp only
    rw [hafter.usedSpace_eq, hdrain, List.length_take]
    exact ⟨⟨hafter, (drain_size rb m).trans hsize⟩, rfl⟩

theorem Represents.run {q : Fifo UInt8 (n - 1)} (h : Represents n rb q) (cs : List Call) :
    Represents n (run ringStep rb cs).1 (run Fifo.step q (fifoCalls rb cs)).1 ∧
      (run ringStep rb cs).2 = (run Fifo.step q (fifoCalls rb cs)).2 := by
  induction cs generalizing rb q with
  | nil => exact ⟨h, rfl⟩
  | cons c cs ih =>
    obtain ⟨hnext, hreply⟩ := h.step c
    obtain ⟨hlast, hreplies⟩ := ih hnext
    refine ⟨hlast, ?_⟩
    rw [fifoCalls, run_cons_snd, run_cons_snd, hreply, hreplies]

theorem ringBufferInit_represents (hpos : 1 ≤ n) (hle : n ≤ 2147483648)
    (hbuffer : buffer.length = n) :
    Represents n (ringBufferInit buffer n) (Fifo.empty UInt8 (n - 1)) :=
  ⟨⟨hle, hbuffer, hpos, hpos, hpos, .inl rfl, List.take_zero⟩, rfl⟩

theorem FifoT.Holds.consume_zero (h : rb.Holds bytes) : ringBufferConsume rb 0 = rb := by
  have hsize := h.size_le
  have hhead := h.head_lt
  rw [ringBufferConsume, Nat.add_zero, unsigned_of_lt (by omega), Nat.mod_eq_of_lt hhead]

theorem FifoT.Holds.consume_consume (h : rb.Holds bytes) (hle : i + j ≤ bytes.length) :
    ringBufferConsume (ringBufferConsume rb i) j = ringBufferConsume rb (i + j) := by
  have hsize := h.size_le
  have hhead := h.head_lt
  have hlen := h.length_lt
  have hmod : (rb.head + i) % rb.size < rb.size := Nat.mod_lt _ (by omega)
  have hmove : unsigned (unsigned (rb.head + i) % rb.size + j) % rb.size =
      unsigned (rb.head + (i + j)) % rb.size := by
    rw [unsigned_of_lt (n := rb.head + i) (by omega), unsigned_of_lt (by omega),
      unsigned_of_lt (by omega), Nat.mod_add_mod, Nat.add_assoc]
  rw [ringBufferConsume, ringBufferConsume]
  dsimp only
  rw [hmove]
  rfl

theorem FifoT.Holds.read_eq (h : rb.Holds bytes) (n : Nat) :
    ringBufferRead rb n = (ringBufferConsume rb (min n bytes.length), bytes.take n) := by
  have hread := (h.reads n).2
  have hstate : (ringBufferRead rb n).1 = ringBufferConsume rb (min n bytes.length) := by
    rw [ringBufferRead, h.usedSpace_eq]
    split
    case isTrue => rfl
    case isFalse hzero => rw [Classical.not_not.1 hzero, h.consume_zero]
  exact Prod.ext hstate hread

theorem FifoT.Holds.drain_eq (h : rb.Holds bytes) (n : Nat) :
    drain rb n = (ringBufferConsume rb (min n (ringBufferGetData rb).length),
      bytes.take (min n (ringBufferGetData rb).length)) := by
  have hlength : ((ringBufferGetData rb).take n).length =
      min n (ringBufferGetData rb).length := List.length_take
  have hstate : (drain rb n).1 = ringBufferConsume rb (min n (ringBufferGetData rb).length) := by
    rw [← hlength]
    rfl
  exact Prod.ext hstate (h.drained n).2

theorem FifoT.Holds.length_getData (h : rb.Holds bytes) :
    (ringBufferGetData rb).length = min (rb.size - rb.head) bytes.length := by
  rw [h.getData, List.length_take]
  omega

theorem drains_cons (rb : FifoT) (n : Nat) (ns : List Nat) : drains rb (n :: ns) =
    ((drains (drain rb n).1 ns).1, (drain rb n).2 ++ (drains (drain rb n).1 ns).2) := rfl

theorem FifoT.Holds.exists_drains (h : rb.Holds bytes) (ns : List Nat) :
    ∃ k, k ≤ bytes.length ∧ drains rb ns = (ringBufferConsume rb k, bytes.take k) := by
  induction ns generalizing rb bytes with
  | nil =>
    refine ⟨0, Nat.zero_le _, ?_⟩
    rw [h.consume_zero, List.take_zero]
    rfl
  | cons n ns ih =>
    have hle : min n (ringBufferGetData rb).length ≤ bytes.length := by
      rw [h.length_getData]
      omega
    obtain ⟨k, hk, hrest⟩ := ih (h.consumed hle)
    rw [List.length_drop] at hk
    refine ⟨min n (ringBufferGetData rb).length + k, by omega, ?_⟩
    rw [drains_cons, h.drain_eq]
    dsimp only
    rw [hrest, h.consume_consume (by omega), ← List.take_add]

/-- Draining some bytes at a time is reading as many at once. -/
theorem FifoT.Holds.drains_eq (h : rb.Holds bytes) (ns : List Nat) :
    drains rb ns = ringBufferRead rb (drains rb ns).2.length := by
  obtain ⟨k, hk, hdrains⟩ := h.exists_drains ns
  have hlength : (bytes.take k).length = k := by
    rw [List.length_take, Nat.min_eq_left hk]
  rw [hdrains, hlength, h.read_eq, Nat.min_eq_left hk]

/-- Draining twice delivers everything. -/
theorem FifoT.Holds.drains_all (h : rb.Holds bytes) :
    drains rb [rb.size, rb.size] = ringBufferRead rb rb.size := by
  have hlen := h.length_lt
  have hhead := h.head_lt
  have hfirst : min rb.size (ringBufferGetData rb).length =
      min (rb.size - rb.head) bytes.length := by
    rw [h.length_getData]
    omega
  have hafter := h.consumed (Nat.min_le_right (rb.size - rb.head) bytes.length)
  have hsecond : min rb.size
      (ringBufferGetData (ringBufferConsume rb (min (rb.size - rb.head) bytes.length))).length =
        bytes.length - min (rb.size - rb.head) bytes.length := by
    have hold := hafter.wraps
    have hhead' := hafter.head_lt
    have htail := hafter.tail_lt
    have hsize : (ringBufferConsume rb (min (rb.size - rb.head) bytes.length)).size = rb.size := rfl
    rw [hafter.length_getData, List.length_drop]
    obtain ⟨hwraps, hlt⟩ := h.move hhead (n := min (rb.size - rb.head) bytes.length) (by omega)
    change WrapsTo rb.size _
      (ringBufferConsume rb (min (rb.size - rb.head) bytes.length)).head at hwraps
    unfold WrapsTo at hwraps
    omega
  have hall : drains rb [rb.size, rb.size] = (ringBufferConsume rb bytes.length, bytes) := by
    rw [drains_cons, h.drain_eq, hfirst, drains_cons]
    dsimp only
    have hnil : ∀ rb : FifoT, drains rb [] = (rb, []) := fun _ => rfl
    have hcut : min (rb.size - rb.head) bytes.length ≤ bytes.length := Nat.min_le_right _ _
    have htake : (bytes.drop (min (rb.size - rb.head) bytes.length)).take
        (bytes.length - min (rb.size - rb.head) bytes.length) =
          bytes.drop (min (rb.size - rb.head) bytes.length) := by
      rw [List.take_of_length_le]
      rw [List.length_drop]
    rw [hafter.drain_eq, hsecond, hnil]
    dsimp only
    rw [h.consume_consume (by omega), Nat.add_sub_cancel' hcut, List.append_nil, htake,
      List.take_append_drop]
  rw [hall, h.read_eq, Nat.min_eq_right (Nat.le_of_lt hlen),
    List.take_of_length_le (Nat.le_of_lt hlen)]

/-- Every run of calls is a run of the queue of bytes, and draining delivers what reading does. -/
theorem byte_fifo_refines (hpos : 1 ≤ n) (hle : n ≤ 2147483648) (buffer : List UInt8)
    (hbuffer : buffer.length = n) (cs : List Call) :
    let rb := (run ringStep (ringBufferInit buffer n) cs).1
    (run ringStep (ringBufferInit buffer n) cs).2 =
        (run Fifo.step (Fifo.empty UInt8 (n - 1)) (fifoCalls (ringBufferInit buffer n) cs)).2 ∧
      ringBufferUsedSpace rb + ringBufferFreeSpace rb = n - 1 ∧
      (∀ data, (ringBufferWrite rb data).2 = min data.length (ringBufferFreeSpace rb)) ∧
      (∀ ns, drains rb ns = ringBufferRead rb (drains rb ns).2.length) ∧
      drains rb [n, n] = ringBufferRead rb n := by
  obtain ⟨⟨hholds, hsize⟩, hreplies⟩ := (ringBufferInit_represents hpos hle hbuffer).run cs
  have hlen := hholds.length_lt
  refine ⟨hreplies, ?_, fun data => ?_, hholds.drains_eq, ?_⟩
  · rw [hholds.usedSpace_eq, hholds.freeSpace_eq, hsize]
    omega
  · rw [(hholds.writes data).2, hholds.freeSpace_eq]
  · have hall := hholds.drains_all
    rwa [hsize] at hall

/-- Four bytes are written, one does not fit, and the others are read and drained. -/
def fourCalls : List Call := [.write [1, 2, 3, 4], .read 1, .drain 5, .write [5, 6]]

theorem byte_fifo_refines_four :
    let rb := (run ringStep (ringBufferInit [0, 0, 0, 0] 4) fourCalls).1
    (run ringStep (ringBufferInit [0, 0, 0, 0] 4) fourCalls).2 =
        (run Fifo.step (Fifo.empty UInt8 (4 - 1))
          (fifoCalls (ringBufferInit [0, 0, 0, 0] 4) fourCalls)).2 ∧
      ringBufferUsedSpace rb + ringBufferFreeSpace rb = 4 - 1 ∧
      (∀ data, (ringBufferWrite rb data).2 = min data.length (ringBufferFreeSpace rb)) ∧
      (∀ ns, drains rb ns = ringBufferRead rb (drains rb ns).2.length) ∧
      drains rb [4, 4] = ringBufferRead rb 4 :=
  byte_fifo_refines (by decide) (by decide) [0, 0, 0, 0] rfl fourCalls

end Runs

end BigBox.ByteFifo
