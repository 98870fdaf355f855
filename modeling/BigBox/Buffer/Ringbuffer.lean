import BigBox.Lib.Fifo

namespace BigBox
set_option autoImplicit true

/-- `struct ringbuffer`, with the pool of bytes `buffer_ptr` points at. The mirrors are
one-bit fields and the indices are fifteen-bit fields. -/
structure Ringbuffer where
  bufferPtr : List UInt8
  readMirror : Bool
  readIndex : Nat
  writeMirror : Bool
  writeIndex : Nat
  bufferSize : Nat
  deriving DecidableEq, Repr

inductive RingbufferState where
  | empty
  | full
  | halffull
  deriving DecidableEq, Repr

/-- The value a fifteen-bit field keeps of an assignment. -/
def index15 (n : Nat) : Nat := n % 2 ^ 15

/-- The value a `uint16_t` variable keeps of an assignment. -/
def uint16 (n : Nat) : Nat := n % 2 ^ 16

/-- A block of bytes whose length a `uint16_t` argument can carry. -/
structure Block where
  bytes : List UInt8
  fits : bytes.length < 2 ^ 16

def Block.single (ch : UInt8) : Block := ⟨[ch], by simp⟩

def alignDown (size align : Nat) : Nat := size / align * align

def ringbufferInit (pool : List UInt8) (size : Nat) : Ringbuffer where
  bufferPtr := pool
  readMirror := false
  readIndex := 0
  writeMirror := false
  writeIndex := 0
  bufferSize := alignDown size 8

def ringbufferStatus (rb : Ringbuffer) : RingbufferState :=
  if rb.readIndex = rb.writeIndex then
    if rb.readMirror = rb.writeMirror then .empty else .full
  else .halffull

def ringbufferDataLen (rb : Ringbuffer) : Nat :=
  match ringbufferStatus rb with
  | .empty => 0
  | .full => rb.bufferSize
  | .halffull =>
    if rb.writeIndex > rb.readIndex then rb.writeIndex - rb.readIndex
    else rb.bufferSize - (rb.readIndex - rb.writeIndex)

def ringbufferSpaceLen (rb : Ringbuffer) : Nat := rb.bufferSize - ringbufferDataLen rb

/-- The copy both block writers make: one `memcpy`, or two around the end of the pool, where
the write index enters the other side of the mirror. -/
def Ringbuffer.copyIn (rb : Ringbuffer) (data : List UInt8) : Ringbuffer :=
  let room := rb.bufferSize - rb.writeIndex
  if room > data.length then
    { rb with
      bufferPtr := copyAt rb.bufferPtr rb.writeIndex data
      writeIndex := index15 (rb.writeIndex + data.length) }
  else
    { rb with
      bufferPtr := copyAt (copyAt rb.bufferPtr rb.writeIndex (data.take room)) 0 (data.drop room)
      writeMirror := !rb.writeMirror
      writeIndex := index15 (data.length - room) }

def ringbufferPut (rb : Ringbuffer) (ptr : Block) : Ringbuffer × Nat :=
  let size := uint16 (ringbufferSpaceLen rb)
  if size = 0 then (rb, 0)
  else
    let length := if size < ptr.bytes.length then size else ptr.bytes.length
    (rb.copyIn (ptr.bytes.take length), length)

def ringbufferPutForce (rb : Ringbuffer) (ptr : Block) : Ringbuffer × Nat :=
  let space := uint16 (ringbufferSpaceLen rb)
  let data := if ptr.bytes.length > rb.bufferSize then
    ptr.bytes.drop (ptr.bytes.length - rb.bufferSize) else ptr.bytes
  let rb' := rb.copyIn data
  if rb.bufferSize - rb.writeIndex > data.length then
    if data.length > space then ({ rb' with readIndex := rb'.writeIndex }, data.length)
    else (rb', data.length)
  else
    if data.length > space then
      ({ rb' with readMirror := !rb.readMirror, readIndex := rb'.writeIndex }, data.length)
    else (rb', data.length)

/-- The bytes land in the caller's buffer and are returned with the new state. -/
def ringbufferGet (rb : Ringbuffer) (length : UInt16) : Ringbuffer × List UInt8 :=
  let size := ringbufferDataLen rb
  if size = 0 then (rb, [])
  else
    let length := if size < length.toNat then size else length.toNat
    let room := rb.bufferSize - rb.readIndex
    if room > length then
      ({ rb with readIndex := index15 (rb.readIndex + length) },
        (rb.bufferPtr.drop rb.readIndex).take length)
    else
      ({ rb with readMirror := !rb.readMirror, readIndex := index15 (length - room) },
        (rb.bufferPtr.drop rb.readIndex).take room ++ rb.bufferPtr.take (length - room))

def ringbufferPutchar (rb : Ringbuffer) (ch : UInt8) : Ringbuffer × Nat :=
  if ringbufferSpaceLen rb = 0 then (rb, 0)
  else
    let pool := copyAt rb.bufferPtr rb.writeIndex [ch]
    if rb.writeIndex = rb.bufferSize - 1 then
      ({ rb with bufferPtr := pool, writeMirror := !rb.writeMirror, writeIndex := 0 }, 1)
    else ({ rb with bufferPtr := pool, writeIndex := index15 (rb.writeIndex + 1) }, 1)

def ringbufferPutcharForce (rb : Ringbuffer) (ch : UInt8) : Ringbuffer × Nat :=
  let oldState := ringbufferStatus rb
  let pool := copyAt rb.bufferPtr rb.writeIndex [ch]
  if rb.writeIndex = rb.bufferSize - 1 then
    let rb' := { rb with bufferPtr := pool, writeMirror := !rb.writeMirror, writeIndex := 0 }
    if oldState = .full then
      ({ rb' with readMirror := !rb.readMirror, readIndex := rb'.writeIndex }, 1)
    else (rb', 1)
  else
    let rb' := { rb with bufferPtr := pool, writeIndex := index15 (rb.writeIndex + 1) }
    if oldState = .full then ({ rb' with readIndex := rb'.writeIndex }, 1) else (rb', 1)

def ringbufferGetchar (rb : Ringbuffer) : Ringbuffer × List UInt8 :=
  if ringbufferDataLen rb = 0 then (rb, [])
  else
    let ch := (rb.bufferPtr.drop rb.readIndex).take 1
    if rb.readIndex = rb.bufferSize - 1 then
      ({ rb with readMirror := !rb.readMirror, readIndex := 0 }, ch)
    else ({ rb with readIndex := index15 (rb.readIndex + 1) }, ch)

def ringbufferReset (rb : Ringbuffer) : Ringbuffer :=
  { rb with readMirror := false, readIndex := 0, writeMirror := false, writeIndex := 0 }

/-- The read and the write index lie on the same side of the mirror. -/
def Ringbuffer.SameSide (rb : Ringbuffer) : Prop :=
  rb.readMirror = rb.writeMirror ∧ rb.readIndex ≤ rb.writeIndex

/-- The write index has passed the end of the pool once more than the read index. -/
def Ringbuffer.OtherSide (rb : Ringbuffer) : Prop :=
  rb.readMirror = !rb.writeMirror ∧ rb.writeIndex ≤ rb.readIndex

/-- What every operation on a ring buffer of positive size keeps. -/
structure Ringbuffer.Valid (rb : Ringbuffer) : Prop where
  size_pos : 0 < rb.bufferSize
  size_lt : rb.bufferSize < 2 ^ 15
  pool_length : rb.bufferPtr.length = rb.bufferSize
  read_lt : rb.readIndex < rb.bufferSize
  write_lt : rb.writeIndex < rb.bufferSize
  sides : rb.SameSide ∨ rb.OtherSide

namespace Ringbuffer
variable {rb : Ringbuffer}

theorem SameSide.dataLen (h : rb.SameSide) :
    ringbufferDataLen rb = rb.writeIndex - rb.readIndex := by
  obtain ⟨hm, hi⟩ := h
  by_cases he : rb.readIndex = rb.writeIndex
  · simp only [ringbufferDataLen, ringbufferStatus, he, hm, ↓reduceIte, Nat.sub_self]
  · simp only [ringbufferDataLen, ringbufferStatus, he, ↓reduceIte]
    rw [if_pos (by omega)]

theorem OtherSide.dataLen (h : rb.OtherSide) :
    ringbufferDataLen rb = rb.bufferSize - (rb.readIndex - rb.writeIndex) := by
  obtain ⟨hm, hi⟩ := h
  by_cases he : rb.readIndex = rb.writeIndex
  · simp only [ringbufferDataLen, ringbufferStatus, he, hm, ↓reduceIte, Bool.not_eq_self,
      Nat.sub_self, Nat.sub_zero]
  · simp only [ringbufferDataLen, ringbufferStatus, he, ↓reduceIte]
    rw [if_neg (by omega)]

theorem Valid.dataLen_le (h : rb.Valid) : ringbufferDataLen rb ≤ rb.bufferSize := by
  have hw := h.write_lt
  rcases h.sides with hs | hs <;> rw [hs.dataLen] <;> omega

/-- The write index is where the stored bytes end. -/
theorem Valid.wraps (h : rb.Valid) :
    WrapsTo rb.bufferSize (rb.readIndex + ringbufferDataLen rb) rb.writeIndex := by
  have hr := h.read_lt
  rcases h.sides with hs | hs
  · have hi := hs.2
    rw [hs.dataLen]
    exact .inl (by omega)
  · have hi := hs.2
    rw [hs.dataLen]
    exact .inr (by omega)

theorem Valid.spaceLen_uint16 (h : rb.Valid) :
    uint16 (ringbufferSpaceLen rb) = ringbufferSpaceLen rb := by
  have hs := h.size_lt
  apply Nat.mod_eq_of_lt
  rw [ringbufferSpaceLen]
  omega

end Ringbuffer

/-- The byte sequence a ring buffer holds, oldest byte first. -/
def Ringbuffer.contents (rb : Ringbuffer) : List UInt8 :=
  window rb.bufferPtr rb.readIndex (ringbufferDataLen rb)

theorem Ringbuffer.Valid.length_contents {rb : Ringbuffer} (h : rb.Valid) :
    rb.contents.length = ringbufferDataLen rb := by
  apply length_window
  rw [h.pool_length]
  exact h.dataLen_le

theorem index15_of_lt (h : n < 2 ^ 15) : index15 n = n := Nat.mod_eq_of_lt h

theorem ringbufferInit_valid (pool : List UInt8) (h : 0 < alignDown size 8)
    (hs : alignDown size 8 < 2 ^ 15) (hp : pool.length = alignDown size 8) :
    (ringbufferInit pool size).Valid :=
  ⟨h, hs, hp, h, h, .inl ⟨rfl, Nat.le_refl _⟩⟩

end BigBox
