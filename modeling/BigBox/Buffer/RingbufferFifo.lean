import BigBox.Buffer.Ringbuffer

namespace BigBox
set_option autoImplicit true

/-- What the copy of a block into the pool does to a ring buffer. -/
structure CopiedIn (rb : Ringbuffer) (data : List UInt8) (rb' : Ringbuffer) : Prop where
  overlaid : Overlaid rb.bufferPtr rb.writeIndex data rb'.bufferPtr
  size_eq : rb'.bufferSize = rb.bufferSize
  readMirror_eq : rb'.readMirror = rb.readMirror
  readIndex_eq : rb'.readIndex = rb.readIndex
  stays : data.length < rb.bufferSize - rb.writeIndex →
    rb'.writeMirror = rb.writeMirror ∧ rb'.writeIndex = rb.writeIndex + data.length
  turns : rb.bufferSize - rb.writeIndex ≤ data.length →
    rb'.writeMirror = !rb.writeMirror ∧
      rb'.writeIndex = data.length - (rb.bufferSize - rb.writeIndex)

theorem Ringbuffer.Valid.copyIn {rb : Ringbuffer} (h : rb.Valid)
    (hd : data.length ≤ rb.bufferSize) : CopiedIn rb data (rb.copyIn data) := by
  have hN := h.size_lt
  have hw := h.write_lt
  have hp := h.pool_length
  by_cases hroom : rb.bufferSize - rb.writeIndex > data.length
  · rw [Ringbuffer.copyIn, if_pos hroom]
    refine ⟨overlaid_copyAt _ (by omega), rfl, rfl, rfl, fun _ => ⟨rfl, ?_⟩, fun _ => by omega⟩
    exact index15_of_lt (by omega)
  · rw [Ringbuffer.copyIn, if_neg hroom]
    refine ⟨?_, rfl, rfl, rfl, fun _ => by omega, fun _ => ⟨rfl, ?_⟩⟩
    · rw [← hp]
      exact overlaid_wrap _ (by omega) (by omega) (by omega)
    · exact index15_of_lt (by omega)

namespace CopiedIn
variable {rb rb' : Ringbuffer}

theorem wraps (hc : CopiedIn rb data rb') (h : rb.Valid) :
    WrapsTo rb.bufferSize (rb.writeIndex + data.length) rb'.writeIndex := by
  have hw := h.write_lt
  by_cases hroom : data.length < rb.bufferSize - rb.writeIndex
  · exact .inl (hc.stays hroom).2.symm
  · have he := (hc.turns (by omega)).2
    exact .inr (by omega)

theorem write_lt (hc : CopiedIn rb data rb') (h : rb.Valid)
    (hd : data.length ≤ rb.bufferSize) : rb'.writeIndex < rb.bufferSize := by
  have hw := h.write_lt
  by_cases hroom : data.length < rb.bufferSize - rb.writeIndex
  · rw [(hc.stays hroom).2]; omega
  · rw [(hc.turns (by omega)).2]; omega

theorem pool_length (hc : CopiedIn rb data rb') (h : rb.Valid) :
    rb'.bufferPtr.length = rb'.bufferSize := by
  rw [hc.overlaid.length_eq, h.pool_length, hc.size_eq]

/-- A copy into free space moves the write index on its side of the mirror, or over to the
other side; it never meets the read index from behind. -/
theorem sides (hc : CopiedIn rb data rb') (h : rb.Valid)
    (hd : data.length ≤ ringbufferSpaceLen rb) :
    (rb'.SameSide ∨ rb'.OtherSide) ∧
      ringbufferDataLen rb' = ringbufferDataLen rb + data.length := by
  have hr := h.read_lt
  have hw := h.write_lt
  have hdl := h.dataLen_le
  rw [ringbufferSpaceLen] at hd
  by_cases hroom : data.length < rb.bufferSize - rb.writeIndex
  · obtain ⟨hm, hi⟩ := hc.stays hroom
    rcases h.sides with hs | hs
    · have hle := hs.2
      have hs' : rb'.SameSide :=
        ⟨by rw [hc.readMirror_eq, hm, hs.1], by rw [hc.readIndex_eq, hi]; omega⟩
      refine ⟨.inl hs', ?_⟩
      rw [hs'.dataLen, hs.dataLen, hc.readIndex_eq, hi]
      omega
    · have hle := hs.2
      rw [hs.dataLen] at hd ⊢
      have hs' : rb'.OtherSide :=
        ⟨by rw [hc.readMirror_eq, hm, hs.1], by rw [hc.readIndex_eq, hi]; omega⟩
      refine ⟨.inr hs', ?_⟩
      rw [hs'.dataLen, hc.readIndex_eq, hc.size_eq, hi]
      omega
  · obtain ⟨hm, hi⟩ := hc.turns (by omega)
    rcases h.sides with hs | hs
    · have hle := hs.2
      rw [hs.dataLen] at hd ⊢
      have hs' : rb'.OtherSide :=
        ⟨by rw [hc.readMirror_eq, hm, hs.1, Bool.not_not], by rw [hc.readIndex_eq, hi]; omega⟩
      refine ⟨.inr hs', ?_⟩
      rw [hs'.dataLen, hc.readIndex_eq, hc.size_eq, hi]
      omega
    · have hle := hs.2
      rw [hs.dataLen] at hd
      omega

/-- A copy into free space appends the block to what the ring buffer holds. -/
theorem appends (hc : CopiedIn rb data rb') (h : rb.Valid)
    (hd : data.length ≤ ringbufferSpaceLen rb) :
    rb'.Valid ∧ rb'.contents = rb.contents ++ data := by
  have hdl := h.dataLen_le
  obtain ⟨hs, hlen⟩ := hc.sides h hd
  rw [ringbufferSpaceLen] at hd
  refine ⟨⟨hc.size_eq ▸ h.size_pos, hc.size_eq ▸ h.size_lt, hc.pool_length h, ?_, ?_, hs⟩, ?_⟩
  · rw [hc.readIndex_eq, hc.size_eq]
    exact h.read_lt
  · rw [hc.size_eq]
    exact hc.write_lt h (by omega)
  · have hw := h.wraps
    rw [← h.pool_length] at hw
    rw [Ringbuffer.contents, Ringbuffer.contents, hlen, hc.readIndex_eq]
    exact hc.overlaid.window_append hw (by rw [h.pool_length]; omega)

end CopiedIn

/-- The queue a valid ring buffer stands for. -/
def Ringbuffer.Valid.fifo {rb : Ringbuffer} (h : rb.Valid) : Fifo UInt8 rb.bufferSize :=
  ⟨rb.contents, h.length_contents ▸ h.dataLen_le⟩

section Operations
variable {rb : Ringbuffer}

theorem ringbufferPut_spec (h : rb.Valid) (ptr : Block) :
    (ringbufferPut rb ptr).1.Valid ∧ (ringbufferPut rb ptr).1.bufferSize = rb.bufferSize ∧
      (ringbufferPut rb ptr).1.contents =
        rb.contents ++ ptr.bytes.take (ringbufferSpaceLen rb) ∧
      (ringbufferPut rb ptr).2 = min ptr.bytes.length (ringbufferSpaceLen rb) := by
  rw [ringbufferPut, h.spaceLen_uint16]
  by_cases hz : ringbufferSpaceLen rb = 0
  · simp only [hz, ↓reduceIte, List.take_zero, List.append_nil, Nat.min_zero]
    exact ⟨h, trivial, trivial, trivial⟩
  · have hlen : (if ringbufferSpaceLen rb < ptr.bytes.length then ringbufferSpaceLen rb
        else ptr.bytes.length) = min ptr.bytes.length (ringbufferSpaceLen rb) := by
      split <;> omega
    have ht : ptr.bytes.take (min ptr.bytes.length (ringbufferSpaceLen rb)) =
        ptr.bytes.take (ringbufferSpaceLen rb) := by
      rw [Nat.min_comm, ← List.take_eq_take_min]
    simp only [hz, ↓reduceIte, hlen, ht, and_true]
    have hd : (ptr.bytes.take (ringbufferSpaceLen rb)).length ≤ ringbufferSpaceLen rb :=
      List.length_take_le _ _
    have hc := h.copyIn (hd.trans (Nat.sub_le _ _))
    obtain ⟨hv, he⟩ := hc.appends h hd
    exact ⟨hv, hc.size_eq, he⟩

theorem copyIn_single (h : rb.Valid) (ch : UInt8) :
    rb.copyIn [ch] =
      if rb.writeIndex = rb.bufferSize - 1 then
        { rb with
          bufferPtr := copyAt rb.bufferPtr rb.writeIndex [ch]
          writeMirror := !rb.writeMirror
          writeIndex := 0 }
      else
        { rb with
          bufferPtr := copyAt rb.bufferPtr rb.writeIndex [ch]
          writeIndex := index15 (rb.writeIndex + 1) } := by
  have hw := h.write_lt
  by_cases he : rb.writeIndex = rb.bufferSize - 1
  · have hroom : rb.bufferSize - rb.writeIndex = 1 := by omega
    have hone : ¬ (1 > [ch].length) := Nat.lt_irrefl 1
    simp only [Ringbuffer.copyIn, hroom, if_neg hone, if_pos he, List.take_succ_cons,
      List.take_zero, List.drop_succ_cons, List.drop_nil, copyAt_nil]
    rfl
  · rw [Ringbuffer.copyIn, if_pos (by simp only [List.length_singleton]; omega), if_neg he]
    rfl

/-- Writing one byte is writing a block of one byte. -/
theorem ringbufferPutchar_eq (h : rb.Valid) (ch : UInt8) :
    ringbufferPutchar rb ch = ringbufferPut rb (.single ch) := by
  rw [ringbufferPutchar, ringbufferPut, h.spaceLen_uint16]
  by_cases hz : ringbufferSpaceLen rb = 0
  · simp only [hz, ↓reduceIte]
  · have hlen : ¬ ringbufferSpaceLen rb < (Block.single ch).bytes.length := by
      change ¬ ringbufferSpaceLen rb < 1
      omega
    have ht : (Block.single ch).bytes.take (Block.single ch).bytes.length = [ch] := rfl
    simp only [hz, hlen, ↓reduceIte, ht, copyIn_single h]
    split <;> rfl

/-- Reading one byte is reading a block of one byte. -/
theorem ringbufferGetchar_eq (h : rb.Valid) : ringbufferGetchar rb = ringbufferGet rb 1 := by
  have hr := h.read_lt
  have hone : (1 : UInt16).toNat = 1 := rfl
  rw [ringbufferGetchar, ringbufferGet, hone]
  by_cases hz : ringbufferDataLen rb = 0
  · simp only [hz, ↓reduceIte]
  · rw [if_neg hz, if_neg hz, if_neg (show ¬ ringbufferDataLen rb < 1 by omega)]
    by_cases he : rb.readIndex = rb.bufferSize - 1
    · have hroom : rb.bufferSize - rb.readIndex = 1 := by omega
      rw [hroom, if_pos he, if_neg (Nat.lt_irrefl 1)]
      simp only [Nat.sub_self, List.take_zero, List.append_nil]
      rfl
    · rw [if_neg he, if_pos (show rb.bufferSize - rb.readIndex > 1 by omega)]

/-- Reading moves the read index past the delivered bytes and leaves the rest. -/
theorem read_past (rb' : Ringbuffer) (h : rb.Valid) (hk : k ≤ ringbufferDataLen rb)
    (hpool : rb'.bufferPtr = rb.bufferPtr) (hsize : rb'.bufferSize = rb.bufferSize)
    (hwrite : rb'.writeIndex = rb.writeIndex) (hmirror : rb'.writeMirror = rb.writeMirror)
    (hstay : k < rb.bufferSize - rb.readIndex →
      rb'.readMirror = rb.readMirror ∧ rb'.readIndex = rb.readIndex + k)
    (hturn : rb.bufferSize - rb.readIndex ≤ k →
      rb'.readMirror = !rb.readMirror ∧ rb'.readIndex = k - (rb.bufferSize - rb.readIndex)) :
    rb'.Valid ∧ rb'.contents = rb.contents.drop k := by
  have hr := h.read_lt
  have hw := h.write_lt
  have hle := h.dataLen_le
  have hkey : rb'.readIndex < rb.bufferSize ∧ (rb'.SameSide ∨ rb'.OtherSide) ∧
      ringbufferDataLen rb' = ringbufferDataLen rb - k ∧
      WrapsTo rb.bufferSize (rb.readIndex + k) rb'.readIndex := by
    rcases h.sides with hs | hs
    · have hle := hs.2
      rw [hs.dataLen] at hk ⊢
      obtain ⟨hm, hi⟩ := hstay (by omega)
      have hs' : rb'.SameSide := ⟨by rw [hm, hmirror, hs.1], by rw [hi, hwrite]; omega⟩
      refine ⟨by omega, .inl hs', ?_, .inl hi.symm⟩
      rw [hs'.dataLen, hwrite, hi]
      omega
    · have hle := hs.2
      rw [hs.dataLen] at hk ⊢
      by_cases hroom : k < rb.bufferSize - rb.readIndex
      · obtain ⟨hm, hi⟩ := hstay hroom
        have hs' : rb'.OtherSide := ⟨by rw [hm, hmirror, hs.1], by rw [hi, hwrite]; omega⟩
        refine ⟨by omega, .inr hs', ?_, .inl hi.symm⟩
        rw [hs'.dataLen, hwrite, hsize, hi]
        omega
      · obtain ⟨hm, hi⟩ := hturn (by omega)
        have hs' : rb'.SameSide :=
          ⟨by rw [hm, hmirror, hs.1, Bool.not_not], by rw [hi, hwrite]; omega⟩
        refine ⟨by omega, .inl hs', ?_, .inr (by omega)⟩
        rw [hs'.dataLen, hwrite, hi]
        omega
  obtain ⟨hlt, hs, hlen, hwr⟩ := hkey
  refine ⟨⟨hsize ▸ h.size_pos, hsize ▸ h.size_lt, by rw [hpool, hsize, h.pool_length],
    hsize ▸ hlt, by rw [hwrite, hsize]; exact hw, hs⟩, ?_⟩
  rw [← h.pool_length] at hwr hle
  rw [Ringbuffer.contents, Ringbuffer.contents, window_drop _ hk hle hwr, hpool, hlen]

theorem ringbufferGet_spec (h : rb.Valid) (length : UInt16) :
    (ringbufferGet rb length).1.Valid ∧
      (ringbufferGet rb length).1.bufferSize = rb.bufferSize ∧
      (ringbufferGet rb length).1.contents = rb.contents.drop length.toNat ∧
      (ringbufferGet rb length).2 = rb.contents.take length.toNat := by
  have hN := h.size_lt
  have hr := h.read_lt
  have hp := h.pool_length
  have hle := h.dataLen_le
  have hlen := h.length_contents
  rw [ringbufferGet]
  by_cases hz : ringbufferDataLen rb = 0
  · have hnil : rb.contents = [] := List.length_eq_zero_iff.1 (hlen.trans hz)
    simp only [hz, hnil, ↓reduceIte, List.drop_nil, List.take_nil, and_true]
    exact h
  · have hmin : (if ringbufferDataLen rb < length.toNat then ringbufferDataLen rb
        else length.toNat) = min length.toNat rb.contents.length := by
      rw [hlen]
      split <;> omega
    have hk : min length.toNat rb.contents.length ≤ ringbufferDataLen rb := by omega
    have hdrop : rb.contents.drop length.toNat =
        rb.contents.drop (min length.toNat rb.contents.length) := by
      rcases Nat.le_total length.toNat rb.contents.length with hc | hc
      · rw [Nat.min_eq_left hc]
      · rw [Nat.min_eq_right hc, List.drop_length, List.drop_of_length_le hc]
    have htake : rb.contents.take length.toNat =
        window rb.bufferPtr rb.readIndex (min length.toNat rb.contents.length) := by
      rw [List.take_eq_take_min]
      exact window_take _ _ hk
    rw [if_neg hz, hmin, hdrop, htake]
    by_cases hroom :
        min length.toNat rb.contents.length < rb.bufferSize - rb.readIndex
    · rw [if_pos hroom, window_eq_slice _ (by omega)]
      have hpast := read_past
        { rb with readIndex := index15 (rb.readIndex + min length.toNat rb.contents.length) }
        h hk rfl rfl rfl rfl
        (fun _ => ⟨rfl, index15_of_lt (by omega)⟩) (fun _ => by omega)
      exact ⟨hpast.1, rfl, hpast.2, rfl⟩
    · rw [if_neg hroom, window_eq_wrap _ (by omega) (by omega) (by omega), hp]
      have hpast := read_past
        { rb with
          readMirror := !rb.readMirror
          readIndex := index15 (min length.toNat rb.contents.length -
            (rb.bufferSize - rb.readIndex)) }
        h hk rfl rfl rfl rfl
        (fun _ => by omega) (fun _ => ⟨rfl, index15_of_lt (by omega)⟩)
      refine ⟨hpast.1, rfl, hpast.2, ?_⟩
      rw [List.take_of_length_le (by rw [List.length_drop, hp])]

end Operations

/-- The four calls a client makes on a ring buffer that discards nothing. -/
inductive RingCall where
  | put (ptr : Block)
  | get (length : UInt16)
  | putchar (ch : UInt8)
  | getchar

/-- The call on a queue of bytes that a call on the ring buffer stands for. -/
def RingCall.toFifo : RingCall → Fifo.Call UInt8
  | .put ptr => .put ptr.bytes
  | .get length => .get length.toNat
  | .putchar ch => .put [ch]
  | .getchar => .get 1

/-- A call with the count it returns, the bytes it delivers and `ringbuffer_data_len` after
it. -/
def ringStep (rb : Ringbuffer) : RingCall → Ringbuffer × Fifo.Reply UInt8
  | .put ptr =>
    let (rb', n) := ringbufferPut rb ptr
    (rb', ⟨n, [], ringbufferDataLen rb'⟩)
  | .get length =>
    let (rb', out) := ringbufferGet rb length
    (rb', ⟨out.length, out, ringbufferDataLen rb'⟩)
  | .putchar ch =>
    let (rb', n) := ringbufferPutchar rb ch
    (rb', ⟨n, [], ringbufferDataLen rb'⟩)
  | .getchar =>
    let (rb', out) := ringbufferGetchar rb
    (rb', ⟨out.length, out, ringbufferDataLen rb'⟩)

/-- A ring buffer of capacity `N` that holds the items of a queue. -/
structure Represents (N : Nat) (rb : Ringbuffer) (q : Fifo UInt8 N) : Prop where
  valid : rb.Valid
  size_eq : rb.bufferSize = N
  contents_eq : rb.contents = q.items

theorem Represents.dataLen (h : Represents N rb q) :
    ringbufferDataLen rb = q.items.length := by
  rw [← h.valid.length_contents, h.contents_eq]

theorem Represents.spaceLen (h : Represents N rb q) : ringbufferSpaceLen rb = q.free := by
  rw [ringbufferSpaceLen, h.size_eq, h.dataLen, Fifo.free]

theorem Represents.put (h : Represents N rb q) (ptr : Block) :
    Represents N (ringbufferPut rb ptr).1 (q.put ptr.bytes) ∧
      (ringbufferPut rb ptr).2 = min ptr.bytes.length q.free := by
  obtain ⟨hv, hs, hc, hn⟩ := ringbufferPut_spec h.valid ptr
  rw [h.spaceLen] at hc hn
  exact ⟨⟨hv, hs.trans h.size_eq, by rw [hc, h.contents_eq, Fifo.put]⟩, hn⟩

theorem Represents.get (h : Represents N rb q) (length : UInt16) :
    Represents N (ringbufferGet rb length).1 (q.get length.toNat) ∧
      (ringbufferGet rb length).2 = q.items.take length.toNat := by
  obtain ⟨hv, hs, hc, ho⟩ := ringbufferGet_spec h.valid length
  rw [h.contents_eq] at hc ho
  exact ⟨⟨hv, hs.trans h.size_eq, hc⟩, ho⟩

/-- One call on the ring buffer is one call on the queue. -/
theorem Represents.step (h : Represents N rb q) (c : RingCall) :
    Represents N (ringStep rb c).1 (q.step c.toFifo).1 ∧
      (ringStep rb c).2 = (q.step c.toFifo).2 := by
  cases c with
  | put ptr =>
    obtain ⟨hr, hn⟩ := h.put ptr
    refine ⟨hr, ?_⟩
    simp only [ringStep, RingCall.toFifo, Fifo.step, hn, hr.dataLen]
  | get length =>
    obtain ⟨hr, ho⟩ := h.get length
    refine ⟨hr, ?_⟩
    simp only [ringStep, RingCall.toFifo, Fifo.step, ho, hr.dataLen, List.length_take]
  | putchar ch =>
    obtain ⟨hr, hn⟩ := h.put (.single ch)
    simp only [ringStep, ringbufferPutchar_eq h.valid, RingCall.toFifo, Fifo.step]
    refine ⟨hr, ?_⟩
    simp only [hn, hr.dataLen]
    rfl
  | getchar =>
    obtain ⟨hr, ho⟩ := h.get 1
    simp only [ringStep, ringbufferGetchar_eq h.valid, RingCall.toFifo, Fifo.step]
    refine ⟨hr, ?_⟩
    simp only [ho, hr.dataLen, List.length_take]
    rfl

/-- A run of calls on a ring buffer cannot be told from the run on the queue. -/
theorem Represents.run (h : Represents N rb q) (cs : List RingCall) :
    Represents N (run ringStep rb cs).1 (run Fifo.step q (cs.map RingCall.toFifo)).1 ∧
      (run ringStep rb cs).2 = (run Fifo.step q (cs.map RingCall.toFifo)).2 := by
  rw [run_map]
  exact run_simulation (fun _ _ c hr => hr.step c) h cs

theorem ringbufferInit_represents (pool : List UInt8) (h : 0 < alignDown size 8)
    (hs : alignDown size 8 < 2 ^ 15) (hp : pool.length = alignDown size 8) :
    Represents (alignDown size 8) (ringbufferInit pool size) (.empty _ _) :=
  ⟨ringbufferInit_valid pool h hs hp, rfl, rfl⟩

/-- The bytes the calls of a run have accepted, by the counts they returned. -/
def acceptedBytes (cs : List RingCall) (rs : List (Fifo.Reply UInt8)) : List UInt8 :=
  (List.zipWith Fifo.accepted (cs.map RingCall.toFifo) rs).flatten

/-- The bytes the calls of a run have delivered. -/
def deliveredBytes (rs : List (Fifo.Reply UInt8)) : List UInt8 :=
  (rs.map Fifo.Reply.items).flatten

/-- Only the mirrors tell an empty from a full ring buffer. -/
theorem Ringbuffer.Valid.mirrors {rb : Ringbuffer} (h : rb.Valid) :
    (ringbufferDataLen rb = 0 ↔
      rb.readIndex = rb.writeIndex ∧ rb.readMirror = rb.writeMirror) ∧
    (ringbufferDataLen rb = rb.bufferSize ↔
      rb.readIndex = rb.writeIndex ∧ rb.readMirror ≠ rb.writeMirror) := by
  have hr := h.read_lt
  have hw := h.write_lt
  rcases h.sides with hs | hs
  · have hi := hs.2
    simp only [hs.dataLen, hs.1, and_true, ne_eq, not_true_eq_false, and_false, iff_false]
    exact ⟨by omega, by omega⟩
  · have hi := hs.2
    simp only [hs.dataLen, hs.1, Bool.not_eq_self, and_false, iff_false, ne_eq,
      not_false_eq_true, and_true]
    exact ⟨by omega, by omega⟩

/-- Every run of calls on an initialised ring buffer is a run of the queue of its capacity:
the counts, the delivered bytes and the reported lengths are those of the queue, the length is
what was accepted and not delivered, and only the mirrors tell empty from full. -/
theorem ringbuffer_refines_fifo (pool : List UInt8) (size : Nat) (h : 0 < alignDown size 8)
    (hs : alignDown size 8 < 2 ^ 15) (hp : pool.length = alignDown size 8)
    (cs : List RingCall) :
    let rb := (run ringStep (ringbufferInit pool size) cs).1
    let replies := (run ringStep (ringbufferInit pool size) cs).2
    replies = (run Fifo.step (.empty UInt8 (alignDown size 8)) (cs.map RingCall.toFifo)).2 ∧
      acceptedBytes cs replies = deliveredBytes replies ++ rb.contents ∧
      ringbufferDataLen rb = (acceptedBytes cs replies).length - (deliveredBytes replies).length ∧
      (ringbufferDataLen rb = 0 ↔
        rb.readIndex = rb.writeIndex ∧ rb.readMirror = rb.writeMirror) ∧
      (ringbufferDataLen rb = alignDown size 8 ↔
        rb.readIndex = rb.writeIndex ∧ rb.readMirror ≠ rb.writeMirror) := by
  obtain ⟨hrep, hout⟩ := (ringbufferInit_represents pool h hs hp).run cs
  have hhist := Fifo.run_history (.empty UInt8 (alignDown size 8)) (cs.map RingCall.toFifo)
  rw [← hout, ← hrep.contents_eq] at hhist
  have hm := hrep.valid.mirrors
  rw [hrep.size_eq] at hm
  refine ⟨hout, hhist, ?_, hm⟩
  have hacc : acceptedBytes cs (run ringStep (ringbufferInit pool size) cs).2 = _ := hhist
  rw [hacc, List.length_append, hrep.valid.length_contents]
  exact (Nat.add_sub_cancel_left ..).symm

theorem ringbuffer_refines_fifo_eight :
    (run ringStep (ringbufferInit (List.replicate 8 0) 9)
      [.put ⟨[1, 2, 3, 4, 5], by decide⟩, .get 4, .put ⟨[6, 7, 8, 9], by decide⟩, .getchar]).2 =
    (run Fifo.step (.empty UInt8 (alignDown 9 8))
      [.put [1, 2, 3, 4, 5], .get 4, .put [6, 7, 8, 9], .get 1]).2 :=
  (ringbuffer_refines_fifo (List.replicate 8 0) 9 (by decide) (by decide) (by decide)
    [.put ⟨[1, 2, 3, 4, 5], by decide⟩, .get 4, .put ⟨[6, 7, 8, 9], by decide⟩, .getchar]).1

end BigBox
