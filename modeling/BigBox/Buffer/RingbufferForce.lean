import BigBox.Buffer.RingbufferFifo

namespace BigBox
set_option autoImplicit true

/-- The two calls that overwrite the oldest bytes when there is no room. -/
inductive ForceCall where
  | put (ptr : Block)
  | putchar (ch : UInt8)

def ForceCall.bytes : ForceCall → List UInt8
  | .put ptr => ptr.bytes
  | .putchar ch => [ch]

def forceStep (rb : Ringbuffer) : ForceCall → Ringbuffer
  | .put ptr => (ringbufferPutForce rb ptr).1
  | .putchar ch => (ringbufferPutcharForce rb ch).1

/-- The states the calls of the interface lead to from an initialised ring buffer whose
aligned size is positive. -/
inductive Ringbuffer.Reachable : Ringbuffer → Prop where
  | init (pool : List UInt8) (size : Nat) : 0 < alignDown size 8 → alignDown size 8 < 2 ^ 15 →
      pool.length = alignDown size 8 → Reachable (ringbufferInit pool size)
  | call (c : RingCall) : Reachable rb → Reachable (ringStep rb c).1
  | force (c : ForceCall) : Reachable rb → Reachable (forceStep rb c)
  | reset : Reachable rb → Reachable (ringbufferReset rb)

section Force
variable {rb : Ringbuffer}

theorem status_full_iff (h : rb.Valid) :
    ringbufferStatus rb = .full ↔ ringbufferSpaceLen rb = 0 := by
  have hle := h.dataLen_le
  have hfull : ringbufferSpaceLen rb = 0 ↔ ringbufferDataLen rb = rb.bufferSize := by
    rw [ringbufferSpaceLen]
    omega
  rw [hfull, h.mirrors.2, ringbufferStatus]
  by_cases hi : rb.readIndex = rb.writeIndex <;>
    by_cases hm : rb.readMirror = rb.writeMirror <;> simp [hi, hm]

/-- Forcing one byte in is forcing a block of one byte in. -/
theorem ringbufferPutcharForce_eq (h : rb.Valid) (ch : UInt8) :
    ringbufferPutcharForce rb ch = ringbufferPutForce rb (.single ch) := by
  have hN := h.size_pos
  have hw := h.write_lt
  have hshort : ¬ (Block.single ch).bytes.length > rb.bufferSize := by
    change ¬ 1 > rb.bufferSize
    omega
  have hlen : ([ch] : List UInt8).length = 1 := rfl
  have hover : (1 > ringbufferSpaceLen rb) = (ringbufferStatus rb = .full) := by
    rw [status_full_iff h, gt_iff_lt, Nat.lt_one_iff]
  rw [ringbufferPutForce, if_neg hshort, h.spaceLen_uint16]
  simp only [Block.single, hlen, hover, copyIn_single h]
  rw [ringbufferPutcharForce]
  by_cases he : rb.writeIndex = rb.bufferSize - 1
  · simp only [if_pos he, if_neg (show ¬ rb.bufferSize - rb.writeIndex > 1 by omega)]
  · simp only [if_neg he, if_pos (show rb.bufferSize - rb.writeIndex > 1 by omega)]

theorem forceStep_eq (h : rb.Valid) (c : ForceCall) :
    ∃ ptr : Block, ptr.bytes = c.bytes ∧ forceStep rb c = (ringbufferPutForce rb ptr).1 := by
  cases c with
  | put ptr => exact ⟨ptr, rfl, rfl⟩
  | putchar ch => exact ⟨.single ch, rfl, by rw [forceStep, ringbufferPutcharForce_eq h]⟩

theorem ringbufferPutForce_eq (h : rb.Valid) (ptr : Block) :
    (ringbufferPutForce rb ptr).1 =
      let data := keepLast rb.bufferSize ptr.bytes
      let rb' := rb.copyIn data
      if data.length ≤ ringbufferSpaceLen rb then rb'
      else if data.length < rb.bufferSize - rb.writeIndex then
        { rb' with readIndex := rb'.writeIndex }
      else { rb' with readMirror := !rb.readMirror, readIndex := rb'.writeIndex } := by
  have hdata : (if ptr.bytes.length > rb.bufferSize then
      ptr.bytes.drop (ptr.bytes.length - rb.bufferSize) else ptr.bytes) =
        keepLast rb.bufferSize ptr.bytes := by
    split
    · rfl
    · rw [keepLast_of_le (by omega)]
  rw [ringbufferPutForce, hdata, h.spaceLen_uint16]
  by_cases hfits : (keepLast rb.bufferSize ptr.bytes).length ≤ ringbufferSpaceLen rb
  · simp only [if_pos hfits, gt_iff_lt, if_neg (Nat.not_lt.2 hfits)]
    split <;> rfl
  · simp only [if_neg hfits, gt_iff_lt, if_pos (Nat.lt_of_not_le hfits)]
    split <;> rfl

/-- The state after an insertion that needs more room than there is. -/
structure Overrun (rb : Ringbuffer) (data : List UInt8) (rb' : Ringbuffer) : Prop where
  overlaid : Overlaid rb.bufferPtr rb.writeIndex data rb'.bufferPtr
  size_eq : rb'.bufferSize = rb.bufferSize
  wraps : WrapsTo rb.bufferSize (rb.writeIndex + data.length) rb'.writeIndex
  write_lt : rb'.writeIndex < rb.bufferSize
  read_eq : rb'.readIndex = rb'.writeIndex
  mirror_eq : rb'.readMirror = rb'.writeMirror ↔ rb.readMirror = rb.writeMirror

theorem ringbufferPutForce_overrun (h : rb.Valid) (ptr : Block)
    (hover : ringbufferSpaceLen rb < (keepLast rb.bufferSize ptr.bytes).length) :
    Overrun rb (keepLast rb.bufferSize ptr.bytes) (ringbufferPutForce rb ptr).1 := by
  have hd : (keepLast rb.bufferSize ptr.bytes).length ≤ rb.bufferSize := by
    rw [length_keepLast]
    omega
  have hc := h.copyIn hd
  rw [ringbufferPutForce_eq h]
  simp only [if_neg (Nat.not_le.2 hover)]
  by_cases hroom : (keepLast rb.bufferSize ptr.bytes).length < rb.bufferSize - rb.writeIndex
  · rw [if_pos hroom]
    exact ⟨hc.overlaid, hc.size_eq, hc.wraps h, hc.write_lt h hd, rfl,
      by rw [hc.readMirror_eq, (hc.stays hroom).1]⟩
  · rw [if_neg hroom]
    exact ⟨hc.overlaid, hc.size_eq, hc.wraps h, hc.write_lt h hd, rfl,
      by rw [(hc.turns (Nat.le_of_not_lt hroom)).1]; exact Bool.not_inj_iff⟩

namespace Overrun
variable {rb rb' : Ringbuffer} {data : List UInt8}

/-- After an overrun the indices agree, so that the mirrors alone decide between empty and
full; they are as they were. -/
theorem sides (ho : Overrun rb data rb') (h : rb.Valid) :
    rb.SameSide ∧ rb'.SameSide ∨ rb.OtherSide ∧ rb'.OtherSide := by
  have hle := Nat.le_of_eq ho.read_eq
  have hge := Nat.le_of_eq ho.read_eq.symm
  rcases h.sides with hs | hs
  · exact .inl ⟨hs, ho.mirror_eq.2 hs.1, hle⟩
  · have hm : rb'.readMirror ≠ rb'.writeMirror := by
      intro he
      have hm' := ho.mirror_eq.1 he
      rw [hs.1] at hm'
      exact (Bool.not_eq_self _).1 hm'
    exact .inr ⟨hs, Bool.eq_not_of_ne hm, hge⟩

theorem valid (ho : Overrun rb data rb') (h : rb.Valid) : rb'.Valid := by
  refine ⟨ho.size_eq ▸ h.size_pos, ho.size_eq ▸ h.size_lt, ?_, ?_, ?_, ?_⟩
  · rw [ho.overlaid.length_eq, h.pool_length, ho.size_eq]
  · rw [ho.read_eq, ho.size_eq]
    exact ho.write_lt
  · rw [ho.size_eq]
    exact ho.write_lt
  · rcases ho.sides h with ⟨_, hs⟩ | ⟨_, hs⟩
    · exact .inl hs
    · exact .inr hs

/-- On one side of the mirror an overrun empties the ring buffer. -/
theorem empties (ho : Overrun rb data rb')
    (hm : rb.readMirror = rb.writeMirror) : ringbufferDataLen rb' = 0 := by
  have hs : rb'.SameSide := ⟨ho.mirror_eq.2 hm, Nat.le_of_eq ho.read_eq⟩
  rw [hs.dataLen, ho.read_eq, Nat.sub_self]

/-- Across the mirror an overrun leaves a full ring buffer with the youngest bytes. -/
theorem fills (ho : Overrun rb data rb') (h : rb.Valid)
    (hm : rb.readMirror ≠ rb.writeMirror) (hd : data.length ≤ rb.bufferSize)
    (hover : ringbufferSpaceLen rb < data.length) :
    rb'.contents =
      (rb.contents ++ data).drop (rb.contents.length + data.length - rb.bufferSize) := by
  have hle := h.dataLen_le
  have hs : rb'.OtherSide := by
    rcases ho.sides h with ⟨hs, _⟩ | ⟨_, hs⟩
    · exact (hm hs.1).elim
    · exact hs
  have hw := h.wraps
  have hw' := ho.wraps
  rw [ringbufferSpaceLen] at hover
  rw [← h.pool_length] at hw hw' hle hd
  have hlen := h.length_contents
  rw [Ringbuffer.contents, hs.dataLen, ho.read_eq, Nat.sub_self, Nat.sub_zero, ho.size_eq,
    ← h.pool_length,
    ho.overlaid.window_overrun hw hle hd (by rw [h.pool_length]; omega) hw',
    List.drop_append_of_le_length (by omega), hlen]
  rfl

end Overrun

/-- What a forced insertion of `bytes` is for: the ring buffer holds the youngest bytes of
what it held and what came in, says how many they are, and later calls deliver them in
order. -/
structure KeepsLast (rb : Ringbuffer) (bytes : List UInt8) (rb' : Ringbuffer) : Prop where
  contents_eq : rb'.contents = keepLast rb.bufferSize (rb.contents ++ bytes)
  dataLen_eq : ringbufferDataLen rb' = min rb.bufferSize (rb.contents.length + bytes.length)
  delivers : ∀ lengths : List UInt16,
    deliveredBytes (run ringStep rb' (lengths.map .get)).2 =
      (keepLast rb.bufferSize (rb.contents ++ bytes)).take (lengths.map UInt16.toNat).sum

theorem run_ring_gets (h : rb.Valid) (lengths : List UInt16) :
    deliveredBytes (run ringStep rb (lengths.map .get)).2 =
      rb.contents.take (lengths.map UInt16.toNat).sum := by
  have hrep : Represents rb.bufferSize rb h.fifo := ⟨h, rfl, rfl⟩
  have hmap : (lengths.map RingCall.get).map RingCall.toFifo =
      (lengths.map UInt16.toNat).map Fifo.Call.get := by
    rw [List.map_map, List.map_map]
    rfl
  rw [(hrep.run _).2, hmap]
  exact Fifo.run_gets h.fifo _

theorem keepsLast_of_contents (hv : rb'.Valid)
    (hc : rb'.contents = keepLast rb.bufferSize (rb.contents ++ bytes)) :
    KeepsLast rb bytes rb' := by
  refine ⟨hc, ?_, fun lengths => ?_⟩
  · rw [← hv.length_contents, hc, length_keepLast, List.length_append]
  · rw [run_ring_gets hv, hc]

/-- Does the call need more room than there is while the stored bytes lie on one side of the
mirror? Then the read mirror is turned along with the write mirror. -/
def TurnsBothMirrors (rb : Ringbuffer) (bytes : List UInt8) : Prop :=
  rb.readMirror = rb.writeMirror ∧ ringbufferSpaceLen rb < min rb.bufferSize bytes.length

theorem ringbufferPutForce_valid (h : rb.Valid) (ptr : Block) :
    (ringbufferPutForce rb ptr).1.Valid := by
  by_cases hfits : (keepLast rb.bufferSize ptr.bytes).length ≤ ringbufferSpaceLen rb
  · rw [ringbufferPutForce_eq h]
    simp only [if_pos hfits]
    exact ((h.copyIn (hfits.trans (Nat.sub_le _ _))).appends h hfits).1
  · exact (ringbufferPutForce_overrun h ptr (Nat.lt_of_not_le hfits)).valid h

theorem ringbufferPutForce_contents (h : rb.Valid) (ptr : Block)
    (hok : ¬ TurnsBothMirrors rb ptr.bytes) :
    (ringbufferPutForce rb ptr).1.contents =
      keepLast rb.bufferSize (rb.contents ++ ptr.bytes) := by
  have hlen := h.length_contents
  have hle := h.dataLen_le
  have hd : (keepLast rb.bufferSize ptr.bytes).length ≤ rb.bufferSize := by
    rw [length_keepLast]
    omega
  rw [← keepLast_append]
  by_cases hfits : (keepLast rb.bufferSize ptr.bytes).length ≤ ringbufferSpaceLen rb
  · have hall : (rb.contents ++ keepLast rb.bufferSize ptr.bytes).length ≤ rb.bufferSize := by
      rw [ringbufferSpaceLen] at hfits
      rw [List.length_append]
      omega
    rw [ringbufferPutForce_eq h, keepLast_of_le hall]
    simp only [if_pos hfits]
    exact ((h.copyIn hd).appends h hfits).2
  · have hover := Nat.lt_of_not_le hfits
    have hm : rb.readMirror ≠ rb.writeMirror := by
      intro hm
      rw [length_keepLast] at hover
      exact hok ⟨hm, hover⟩
    rw [(ringbufferPutForce_overrun h ptr hover).fills h hm hd hover, ← List.length_append]
    rfl

/-- When both mirrors turn, the ring buffer reports no data at all. -/
theorem ringbufferPutForce_lost (h : rb.Valid) (ptr : Block)
    (hbad : TurnsBothMirrors rb ptr.bytes) :
    ringbufferDataLen (ringbufferPutForce rb ptr).1 = 0 := by
  have hover : ringbufferSpaceLen rb < (keepLast rb.bufferSize ptr.bytes).length := by
    rw [length_keepLast]
    exact hbad.2
  exact (ringbufferPutForce_overrun h ptr hover).empties hbad.1

theorem Ringbuffer.Reachable.valid (h : rb.Reachable) : rb.Valid := by
  induction h with
  | init pool size hpos hlt hp => exact ringbufferInit_valid pool hpos hlt hp
  | call c _ ih => exact ((⟨ih, rfl, rfl⟩ : Represents _ _ ih.fifo).step c).1.valid
  | force c _ ih =>
    obtain ⟨ptr, _, he⟩ := forceStep_eq ih c
    rw [he]
    exact ringbufferPutForce_valid ih ptr
  | reset _ ih =>
    exact ⟨ih.size_pos, ih.size_lt, ih.pool_length, ih.size_pos, ih.size_pos,
      .inl ⟨rfl, Nat.le_refl _⟩⟩

/-- From every reachable state a forced insertion keeps the youngest bytes exactly when it
does not overrun bytes that lie on one side of the mirror. -/
theorem forceStep_keepsLast_iff (h : rb.Reachable) (c : ForceCall) :
    KeepsLast rb c.bytes (forceStep rb c) ↔ ¬ TurnsBothMirrors rb c.bytes := by
  have hv := h.valid
  obtain ⟨ptr, hb, he⟩ := forceStep_eq hv c
  rw [he, ← hb]
  constructor
  · intro hk hbad
    have hN := hv.size_pos
    have hlost := ringbufferPutForce_lost hv ptr hbad
    have hspace := hbad.2
    rw [hk.dataLen_eq] at hlost
    omega
  · intro hok
    exact keepsLast_of_contents (ringbufferPutForce_valid hv ptr)
      (ringbufferPutForce_contents hv ptr hok)

end Force

/-- Eight bytes of room, four bytes stored from the start of the pool on. -/
def halfFullRing : Ringbuffer :=
  (ringStep (ringbufferInit (List.replicate 8 0) 8) (.put ⟨[1, 2, 3, 4], by decide⟩)).1

theorem halfFullRing_reachable : halfFullRing.Reachable :=
  .call _ (.init _ 8 (by decide) (by decide) (by decide))

/-- Six more bytes overrun the four stored ones and leave a ring buffer that reports none. -/
theorem forceStep_empties_halfFullRing :
    halfFullRing.Reachable ∧ halfFullRing.contents = [1, 2, 3, 4] ∧
      ringbufferDataLen (forceStep halfFullRing (.put ⟨[5, 6, 7, 8, 9, 10], by decide⟩)) = 0 ∧
      ¬ KeepsLast halfFullRing [5, 6, 7, 8, 9, 10]
        (forceStep halfFullRing (.put ⟨[5, 6, 7, 8, 9, 10], by decide⟩)) := by
  refine ⟨halfFullRing_reachable, by decide, by decide, fun hk => ?_⟩
  exact absurd hk.dataLen_eq (by decide)

theorem forceStep_keepsLast_halfFullRing :
    KeepsLast halfFullRing [5, 6, 7] (forceStep halfFullRing (.put ⟨[5, 6, 7], by decide⟩)) :=
  (forceStep_keepsLast_iff halfFullRing_reachable (.put ⟨[5, 6, 7], by decide⟩)).2 (by
    rintro ⟨_, hs⟩
    revert hs
    decide)

end BigBox
