import BigBox.Buffer.Ringbuffer1Fifo

namespace BigBox.Ringbuffer1
set_option autoImplicit true

section Runs

/-- The reply of a queue of items, as the ring buffer gives it. -/
def itemStep (q : Fifo (List UInt8) cap) (c : Call) :
    Fifo (List UInt8) cap × Int × List UInt8 :=
  ((q.step c.toFifo).1, (q.step c.toFifo).2.count, (q.step c.toFifo).2.items.flatten)

/-- A ring buffer of a capacity and an item size that holds the items of a queue. -/
def Represents (itemSz : Nat) (rb : RingBuff) (q : Fifo (List UInt8) cap) : Prop :=
  rb.Holds q.items ∧ rb.count = cap ∧ rb.itemSz = itemSz

theorem ringStep_good {q : Fifo (List UInt8) cap} (rb : RingBuff) (c : Call)
    (h : Represents itemSz rb q) (hvalid : c.Valid itemSz) (hfits : c.Fits rb) :
    c.ItemWise rb ∧ ∃ rb', ringStep rb c = some (rb', (itemStep q c).2) ∧
      Represents itemSz rb' (itemStep q c).1 := by
  obtain ⟨hholds, rfl, rfl⟩ := h
  cases c with
  | insert item =>
    refine ⟨trivial, ?_⟩
    have hput : (itemStep q (.insert item)).2 = (((min 1 q.free : Nat) : Int), []) := rfl
    have hitems : (itemStep q (.insert item)).1.items = q.items ++ [item].take q.free := rfl
    rw [hput]
    rcases Nat.eq_or_lt_of_le hholds.length_le with hfull | hfree
    · have hzero : q.free = 0 := by rw [Fifo.free, hfull, Nat.sub_self]
      rw [hzero, List.take_zero, List.append_nil] at hitems
      rw [ringStep, ringBufferInsert_full hholds hfull, hzero]
      exact ⟨rb, rfl, hitems ▸ hholds, rfl, rfl⟩
    · have hpos : q.free ≠ 0 := by
        rw [Fifo.free]
        omega
      have hone : min 1 q.free = 1 := by omega
      rw [List.take_of_length_le (by rw [List.length_singleton]; omega)] at hitems
      have hreach : InReach rb (indH rb) (0 + 1) := by
        rw [Call.Fits, hholds.getFree_toNat] at hfits
        exact hfits.mono (by omega)
      rw [ringStep, ringBufferInsert_free hholds hfree hvalid, hone]
      exact ⟨write rb item 1, rfl,
        hitems ▸ hholds.written hfree hvalid (hreach.head hholds.toSized), rfl, rfl⟩
  | insertMult items =>
    have hitemwise := hholds.insertMult hvalid.1 hfits
    refine ⟨hitemwise, ?_⟩
    obtain ⟨hheld, hsize, hcount, hsum⟩ := hholds.inserts_holds hvalid.1 hfits.1
    rw [Call.ItemWise, hsum] at hitemwise
    rw [ringStep, hitemwise]
    exact ⟨_, rfl, hheld, hcount, hsize⟩
  | pop =>
    refine ⟨trivial, ?_⟩
    have hget : (itemStep q .pop).2 =
        (((min 1 q.items.length : Nat) : Int), (q.items.take 1).flatten) := rfl
    have hitems : (itemStep q .pop).1.items = q.items.drop 1 := rfl
    simp only [hget, Represents, hitems]
    rw [Call.Fits, hholds.getCount_eq, Int.toNat_natCast] at hfits
    generalize q.items = items at hholds hfits
    cases items with
    | nil =>
      rw [ringStep, ringBufferPop, if_pos hholds.eq_of_nil]
      exact ⟨rb, rfl, hholds, rfl, rfl⟩
    | cons item items =>
      have hone : min 1 (item :: items).length = 1 := by
        rw [List.length_cons]
        omega
      rw [hone] at hfits
      have hadvance := hholds.advance (n := 1) (by rw [List.length_cons]; omega)
      rw [ringStep, ringBufferPop_cons hholds (hfits.tail_head hholds.toSized), hone,
        List.take_succ_cons, List.take_zero, List.flatten_singleton]
      exact ⟨_, rfl, hadvance, rfl, rfl⟩
  | popMult num =>
    have hitemwise := hholds.popMult hfits
    refine ⟨hitemwise, ?_⟩
    have hget : (itemStep q (.popMult num)).2 =
        (((min num q.items.length : Nat) : Int), (q.items.take num).flatten) := rfl
    have hitems : (itemStep q (.popMult num)).1.items = q.items.drop num := rfl
    have hn : min num q.items.length ≤ q.items.length := Nat.min_le_right _ _
    have hadvance := hholds.advance hn
    have hreach := hfits.1
    rw [hholds.getCount_eq, Int.toNat_natCast] at hreach
    rw [Call.ItemWise, hholds.getCount_eq, Int.toNat_natCast, hholds.popped hn hreach] at hitemwise
    dsimp only at hitemwise
    rw [sum_replies, flatten_replies, List.length_take, Nat.min_eq_left hn,
      ← List.take_eq_take_min] at hitemwise
    simp only [hget, Represents, hitems]
    rw [ringStep, hitemwise]
    have hdrop : q.items.drop num = q.items.drop (min num q.items.length) := by
      rcases Nat.le_total num q.items.length with hle | hle
      · rw [Nat.min_eq_left hle]
      · rw [Nat.min_eq_right hle, List.drop_length, List.drop_of_length_le hle]
    rw [hdrop]
    exact ⟨_, rfl, hadvance, rfl, rfl⟩

theorem ringBufferInit_represents (hk : k ≤ 30) (hbuffer : buffer.length = 2 ^ k * itemSz) :
    Represents itemSz (ringBufferInit buffer itemSz (2 ^ k)) (Fifo.empty (List UInt8) (2 ^ k)) := by
  have hsized : (ringBufferInit buffer itemSz (2 ^ k)).Sized :=
    ⟨⟨k, hk, rfl⟩, hbuffer, Nat.succ_pos _, Nat.succ_pos _⟩
  refine ⟨⟨hsized, Nat.zero_le _, rfl, nofun, ?_⟩, rfl, rfl⟩
  simp only [Fifo.empty, List.length_nil, Nat.zero_mul, window, List.take_zero, List.flatten_nil]

/-- A run of calls whose products do not overflow is a run of the queue of items, and every block
call of it does what its items do one at a time. -/
theorem ringbuffer1_refines_fifo (hk : k ≤ 30) (buffer : List UInt8) (itemSz : Nat)
    (hbuffer : buffer.length = 2 ^ k * itemSz) (cs : List Call)
    (hvalid : ∀ c ∈ cs, c.Valid itemSz)
    (hfits : Admits ringStep (fun rb c => c.Fits rb) (ringBufferInit buffer itemSz (2 ^ k)) cs) :
    (∃ rb, tryRun ringStep (ringBufferInit buffer itemSz (2 ^ k)) cs =
        some (rb, (run itemStep (Fifo.empty (List UInt8) (2 ^ k)) cs).2) ∧
      rb.Holds (run itemStep (Fifo.empty (List UInt8) (2 ^ k)) cs).1.items) ∧
    Admits ringStep (fun rb c => c.ItemWise rb) (ringBufferInit buffer itemSz (2 ^ k)) cs := by
  have hinit := ringBufferInit_represents hk hbuffer
  obtain ⟨⟨rb, hrun, hholds, _⟩, hitemwise⟩ := tryRun_of_admits (R := Represents itemSz)
    (fun rb q c h hc => ringStep_good rb c h hc.1 hc.2) hinit (Admits.of_forall hvalid hfits)
  exact ⟨⟨rb, hrun, hholds⟩, hitemwise⟩

theorem ringbuffer1_refines_fifo_one :
    (∃ rb, tryRun ringStep (ringBufferInit [0, 0, 0, 0] 2 (2 ^ 1)) [.insertMult [[1, 2]]] =
        some (rb, (run itemStep (Fifo.empty (List UInt8) (2 ^ 1)) [.insertMult [[1, 2]]]).2) ∧
      rb.Holds (run itemStep (Fifo.empty (List UInt8) (2 ^ 1)) [.insertMult [[1, 2]]]).1.items) ∧
    Admits ringStep (fun rb c => c.ItemWise rb) (ringBufferInit [0, 0, 0, 0] 2 (2 ^ 1))
      [.insertMult [[1, 2]]] := by
  apply ringbuffer1_refines_fifo (by decide) [0, 0, 0, 0] 2 rfl
  · intro c hc
    cases List.mem_singleton.1 hc
    exact ⟨by decide, by decide⟩
  · refine ⟨?_, fun _ _ _ => trivial⟩
    unfold Call.Fits InReach Countable
    decide +kernel

/-- A block call has no result when an `int` cannot count the bytes up to the end of the buffer. -/
theorem insertMult_overflows {rb : RingBuff} (h : rb.Holds items) (hfree : items.length < rb.count)
    (new : List (List UInt8)) (hover : 2147483648 ≤
      min (min new.length (rb.count - items.length)) (rb.count - indH rb) * rb.itemSz) :
    ringStep rb (.insertMult new) = none := by
  have hsegments := segments_eq h.toSized h.indH_lt (Nat.sub_le rb.count items.length) new.length
  have hfree' : getFree rb = (rb.count - items.length : Nat) := by
    rw [getFree, h.getCount_eq, Nat.cast_sub h.length_le]
  rw [← hfree'] at hsegments
  have hnone : byteCount rb
      (min (min new.length (rb.count - items.length)) (rb.count - indH rb) : Nat) = none := by
    rw [byteCount, ← Nat.cast_mul, if_neg]
    omega
  have hmult : ringBufferInsertMult rb new.flatten new.length = none := by
    rw [ringBufferInsertMult, if_neg (by rw [h.getCount_eq]; omega), hsegments]
    dsimp only
    rw [hnone]
    rfl
  rw [ringStep, hmult]
  rfl

/-- Two items of a gibibyte go into an empty ring buffer of two: the call has no result. -/
theorem not_ringbuffer1_refines_fifo :
    ∃ buffer items, buffer.length = 2 ^ 1 * 1073741824 ∧
      (Call.insertMult items).Valid 1073741824 ∧
      ¬ ∃ rb, tryRun ringStep (ringBufferInit buffer 1073741824 (2 ^ 1)) [.insertMult items] =
        some (rb, (run itemStep (Fifo.empty (List UInt8) (2 ^ 1)) [.insertMult items]).2) := by
  have hsize : (List.replicate 1073741824 (0 : UInt8)).length = 1073741824 :=
    List.length_replicate
  have hbuffer : (List.replicate (2 ^ 1 * 1073741824) (0 : UInt8)).length = 2 ^ 1 * 1073741824 :=
    List.length_replicate
  generalize List.replicate (2 ^ 1 * 1073741824) (0 : UInt8) = buffer at hbuffer
  generalize List.replicate 1073741824 (0 : UInt8) = item at hsize
  refine ⟨buffer, [item, item], hbuffer, ⟨fun item' hin => ?_, ?_⟩, ?_⟩
  · simp only [List.mem_cons, List.not_mem_nil, or_false, or_self] at hin
    rw [hin, hsize]
  · rw [List.length_cons, List.length_singleton]
    omega
  · rintro ⟨rb, hrun⟩
    have hholds := (ringBufferInit_represents (k := 1) (by decide) hbuffer).1
    have hover : 2147483648 ≤ min (min 2 (2 - 0)) (2 - 0) * 1073741824 := by decide
    have hnone := insertMult_overflows hholds (Nat.succ_pos 1) [item, item] (by
      rw [indH, ringBufferInit, Nat.zero_and]
      exact hover)
    rw [tryRun_cons_none hnone] at hrun
    cases hrun

end Runs

end BigBox.Ringbuffer1
