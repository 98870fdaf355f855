import BigBox.Buffer.MessageQueueHolds

namespace BigBox.Buffer
set_option autoImplicit true

section Move
variable {mq mq' : MessageQueue}

theorem start_lt (mem : Nat → UInt8) (item : Nat) : (readItem mem item).start < 2 ^ 64 :=
  readWord_lt mem item 8

/-- The starts of the first items are moved, and nothing else. -/
theorem bumpStarts_items (mq : MessageQueue) (removing : Nat) (hc : sizeofItem * c ≤ mq.memEnd) :
    (∀ a, a + sizeofItem * c < mq.memEnd → bumpStarts mq removing c a = mq.mem a) ∧
      ∀ i, i < c → readItem (bumpStarts mq removing c) (mqGet mq i) =
        { readItem mq.mem (mqGet mq i) with
          start := (readItem mq.mem (mqGet mq i)).start - removing } := by
  induction c with
  | zero => exact ⟨fun _ _ => rfl, fun i hi => (Nat.not_lt_zero i hi).elim⟩
  | succ c ih =>
    have hc' : sizeofItem * c ≤ mq.memEnd :=
      Nat.le_trans (Nat.mul_le_mul_left _ (Nat.le_succ c)) hc
    obtain ⟨hbefore, hitem⟩ := ih hc'
    have hget : mqGet mq c + sizeofItem * (c + 1) = mq.memEnd := by
      unfold mqGet sizeofItem at *
      omega
    have hsame : readItem (bumpStarts mq removing c) (mqGet mq c) =
        readItem mq.mem (mqGet mq c) := by
      apply readItem_congr
      intro j hj
      apply hbefore
      unfold sizeofItem at *
      omega
    refine ⟨fun a ha => ?_, fun i hi => ?_⟩
    · have hout : a < mqGet mq c := by omega
      rw [bumpStarts, setStart_apart _ _ (.inl hout)]
      apply hbefore
      unfold sizeofItem at *
      omega
    · rw [bumpStarts]
      rcases Nat.lt_succ_iff_lt_or_eq.1 hi with hlt | rfl
      · rw [← hitem i hlt]
        apply readItem_congr
        intro j _
        apply setStart_apart
        unfold mqGet sizeofItem at *
        omega
      · rw [readItem_setStart _ _ (Nat.lt_of_le_of_lt (Nat.sub_le _ _) (start_lt _ _)), hsame]

/-- The queue with its last `r` items moved to the end of the memory. -/
structure QueueMoved (mq mq' : MessageQueue) (r removing : Nat) : Prop where
  memStart : mq'.memStart = mq.memStart
  memEnd : mq'.memEnd = mq.memEnd
  curr : mq'.curr = mq.curr
  currSz : mq'.currSz = mqCurrsz mq'
  tail : mq'.queueTail + sizeofItem * r = mq.memEnd
  before : ∀ a, a < mq'.queueTail → mq'.mem a = mq.mem a
  item : ∀ i, i < r → readItem mq'.mem (mqGet mq i) =
    { readItem mq.mem (mq.queueTail + sizeofItem * (r - 1 - i)) with
      start := (readItem mq.mem (mq.queueTail + sizeofItem * (r - 1 - i))).start - removing }

theorem moveQueue_moved (mq : MessageQueue) (hr : 0 < r) (hlt : r < 2147483648)
    (hroom : sizeofItem * r ≤ mq.memEnd)
    (removing : Nat) :
    ∃ mq', moveQueue mq (toInt (r - 1)) removing = some mq' ∧ QueueMoved mq mq' r removing := by
  have hidx : toInt (r - 1) = ((r - 1 : Nat) : Int) := toInt_of_lt (by omega)
  have hno : ¬ (((r - 1 : Nat) : Int) < 0 ∨ ((r - 1 : Nat) : Int) = 2147483647) := by omega
  have hsucc : r - 1 + 1 = r := Nat.sub_add_cancel hr
  have hget : mqGet mq (r - 1) + sizeofItem * r = mq.memEnd := by
    unfold mqGet sizeofItem at *
    omega
  let mem := memmove mq.mem (mqGet mq (r - 1)) mq.queueTail (sizeofItem * r)
  let mq₁ : MessageQueue := { mq with mem, queueTail := mqGet mq (r - 1) }
  obtain ⟨hbefore, hitem⟩ := bumpStarts_items mq₁ removing hroom
  refine ⟨{ mq₁ with
    mem := bumpStarts mq₁ removing r
    currSz := mqCurrsz { mq₁ with mem := bumpStarts mq₁ removing r } }, ?_,
    rfl, rfl, rfl, rfl, hget, fun a ha => ?_, fun i hi => ?_⟩
  · rw [moveQueue, hidx, if_neg hno, Int.toNat_natCast]
    simp only [hsucc]
    rfl
  · have ha' : a < mqGet mq (r - 1) := ha
    refine (hbefore a ?_).trans (memmove_apart _ _ (.inl ha'))
    have hend : mq₁.memEnd = mq.memEnd := rfl
    omega
  · have hsame : mqGet mq i = mqGet mq₁ i := rfl
    have hmoved : readItem mq₁.mem (mqGet mq₁ i) =
        readItem mq.mem (mq.queueTail + sizeofItem * (r - 1 - i)) := by
      apply readItem_congr
      intro j hj
      have hoffset : mqGet mq₁ i = mqGet mq (r - 1) + sizeofItem * (r - 1 - i) := by
        rw [← hsame]
        unfold mqGet sizeofItem at *
        omega
      rw [hoffset, Nat.add_assoc, Nat.add_assoc]
      apply memmove_inside
      unfold sizeofItem at *
      omega
    rw [hsame, ← hmoved]
    exact hitem i hi

/-- The index of the last item is below the greatest `int`. -/
theorem moveQueue_tail (h : moveQueue mq (toInt n) removing = some mq') :
    mq'.memEnd = mq.memEnd ∧ mq.memEnd < mq'.queueTail + sizeofItem * 2147483648 := by
  have hmax := toInt_lt n
  rw [moveQueue] at h
  split at h
  case isTrue => cases h
  case isFalse hno =>
    cases h
    refine ⟨rfl, ?_⟩
    change _ < mqGet mq (toInt n).toNat + _
    unfold mqGet sizeofItem
    omega

end Move

section Clean
variable {mq : MessageQueue} {ms : List Message}

/-- The loop passes the completed messages. -/
theorem MessageQueue.Holds.findHead (h : mq.Holds buf bufsz ms) (hbuf : 0 < buf)
    (hl : ms.drop j = l) (hj : j ≤ ms.length) (hn : l.length < n) :
    newHead mq.mem mq.queueTail n (mqGet mq j) =
      some (mqGet mq (j + (l.takeWhile Message.isComplete).length)) := by
  induction l generalizing j n with
  | nil =>
    have hlen : ms.length ≤ j := List.drop_eq_nil_iff.1 hl
    have hlow : ¬ mqGet mq j ≥ mq.queueTail := by
      have htail := h.tail
      have hcurr := h.curr
      have hapart := h.apart
      unfold mqGet sizeofItem at *
      omega
    cases n with
    | zero => exact (Nat.not_lt_zero _ hn).elim
    | succ n => rw [newHead, if_neg hlow, List.takeWhile_nil, List.length_nil, Nat.add_zero]
  | cons m l ih =>
    have hget : ms[j]? = some m := by
      rw [← List.head?_drop, hl, List.head?_cons]
    have hlt : j < ms.length := (List.getElem?_eq_some_iff.1 hget).1
    have hhigh : mqGet mq j ≥ mq.queueTail := by
      have htail := h.tail
      have hend := h.get_eq hlt
      unfold sizeofItem at *
      omega
    have hstate : (readItem mq.mem (mqGet mq j)).state = m.state.code := by rw [h.item j m hget]
    cases n with
    | zero => exact (Nat.not_lt_zero _ hn).elim
    | succ n =>
      rw [newHead, if_pos hhigh, hstate]
      by_cases hm : m.state = .complete
      · have htrue : m.isComplete = true := decide_eq_true hm
        have hnext : mqGet mq j - sizeofItem = mqGet mq (j + 1) := by
          unfold mqGet sizeofItem
          omega
        have hdrop : ms.drop (j + 1) = l := by
          rw [← List.drop_drop, hl, List.drop_one, List.tail_cons]
        rw [if_neg (not_not_intro ((code_eq_complete _).2 hm)), hnext,
          ih hdrop hlt (Nat.lt_of_succ_lt_succ hn),
          List.takeWhile_cons_of_pos htrue, List.length_cons, Nat.add_assoc, Nat.add_comm 1]
      · have hfalse : ¬ m.isComplete = true := fun htrue => hm (of_decide_eq_true htrue)
        rw [if_pos (mt (code_eq_complete _).1 hm), List.takeWhile_cons_of_neg hfalse,
          List.length_nil, Nat.add_zero]

/-- The last messages, moved to the start of the memory, with their items moved to its end. -/
theorem MessageQueue.Holds.moved (h : mq.Holds buf bufsz (xs ++ ys))
    (hmove : QueueMoved { mq with
      mem := memmove mq.mem buf (buf + (packed xs).length) (packed ys).length
      curr := buf + (packed ys).length } mq' ys.length (packed xs).length) :
    mq'.Holds buf bufsz ys := by
  have hlen : (packed (xs ++ ys)).length = (packed xs).length + (packed ys).length := by
    rw [packed_append, List.length_append]
  have hcurr := h.curr
  have htail := h.tail
  have hapart := h.apart
  have hmemEnd := h.memEnd
  have htail' : mq'.queueTail + sizeofItem * ys.length = mq.memEnd := hmove.tail
  have hdata := h.data
  rw [hlen] at hcurr hdata
  rw [List.length_append] at htail
  have hlow : mq.queueTail ≤ mq'.queueTail := by
    unfold sizeofItem at *
    omega
  have hend' : mq'.memEnd = mq.memEnd := hmove.memEnd
  have hcurr' : mq'.curr = buf + (packed ys).length := hmove.curr
  refine ⟨hmove.memStart.trans h.memStart, hend'.trans hmemEnd, hcurr', ?_, ?_, hmove.currSz,
    ?_, fun i m hi => ?_⟩
  · rw [htail', hend']
  · omega
  · rw [readBytes_append, packed_append] at hdata
    have hfront : (readBytes mq.mem buf (packed xs).length).length = (packed xs).length :=
      length_readBytes _ _ _
    refine (readBytes_congr fun j hj => ?_).trans (List.append_inj hdata hfront).2
    have hbelow : buf + j < mq'.queueTail := by omega
    exact (hmove.before (buf + j) hbelow).trans (memmove_inside mq.mem buf _ hj)
  · have hlt : i < ys.length := (List.getElem?_eq_some_iff.1 hi).1
    have hlt' : xs.length + i < (xs ++ ys).length := by
      rw [List.length_append]
      omega
    have hget := h.get_eq hlt'
    have hsource : mq.queueTail + sizeofItem * (ys.length - 1 - i) = mqGet mq (xs.length + i) := by
      unfold sizeofItem at *
      omega
    have hsame : readItem (memmove mq.mem buf (buf + (packed xs).length) (packed ys).length)
        (mqGet mq (xs.length + i)) = readItem mq.mem (mqGet mq (xs.length + i)) := by
      apply readItem_congr
      intro j _
      apply memmove_apart
      omega
    have hold := h.item (xs.length + i) m (by
      rw [List.getElem?_append_right (Nat.le_add_right _ _), Nat.add_sub_cancel_left, hi])
    rw [List.take_length_add_append, packed_append, List.length_append] at hold
    have hmoved := hmove.item i hlt
    dsimp only at hmoved
    rw [hsource, hsame, hold] at hmoved
    have hindex : mqGet mq' i = mqGet mq i := by rw [mqGet, mqGet, hend']
    rw [hindex]
    refine hmoved.trans ?_
    have hstart : buf + ((packed xs).length + (packed (ys.take i)).length) - (packed xs).length =
        buf + (packed (ys.take i)).length := by omega
    rw [hstart]

/-- The item at the head of the messages that stay. -/
theorem MessageQueue.Holds.head (h : mq.Holds buf bufsz ms) (hbuf : 0 < buf) :
    newHead mq.mem mq.queueTail (mqLength mq + 1) (mqGet mq 0) =
      some (mqGet mq (ms.takeWhile Message.isComplete).length) := by
  have hhead := h.findHead hbuf (List.drop_zero (l := ms)) (Nat.zero_le _)
    (Nat.lt_succ_self ms.length)
  rwa [h.length_eq.symm, Nat.zero_add] at hhead

theorem MessageQueue.Holds.clean_all (h : mq.Holds buf bufsz ms) (hbuf : 0 < buf)
    (hys : ms.dropWhile Message.isComplete = []) :
    ∃ mq', mqClean mq = some mq' ∧ mq'.Holds buf bufsz [] := by
  have hsplit := List.takeWhile_append_dropWhile (p := Message.isComplete) (l := ms)
  rw [hys, List.append_nil] at hsplit
  have hlow : mqGet mq ms.length < mq.queueTail := by
    have htail := h.tail
    have hcurr := h.curr
    have hapart := h.apart
    unfold mqGet sizeofItem at *
    omega
  have hhead := h.head hbuf
  rw [hsplit] at hhead
  let mq' : MessageQueue := { mq with curr := mq.memStart, queueTail := mq.memEnd }
  refine ⟨{ mq' with currSz := mqCurrsz mq' }, ?_, h.memStart, h.memEnd, h.memStart, rfl, ?_, rfl,
    rfl, nofun⟩
  · rw [mqClean, hhead, Option.bind_eq_bind, Option.bind_some, if_pos hlow]
    rfl
  · have hend := h.memEnd
    have hstart := h.memStart
    change mq.memStart ≤ mq.memEnd
    omega

theorem MessageQueue.Holds.head_high (h : mq.Holds buf bufsz ms)
    (hys : ms.dropWhile Message.isComplete ≠ []) :
    (ms.takeWhile Message.isComplete).length < ms.length ∧
      ¬ mqGet mq (ms.takeWhile Message.isComplete).length < mq.queueTail := by
  have hsplit := congrArg List.length
    (List.takeWhile_append_dropWhile (p := Message.isComplete) (l := ms))
  rw [List.length_append] at hsplit
  have hpos := List.length_pos_iff.2 hys
  have hlt : (ms.takeWhile Message.isComplete).length < ms.length := by omega
  refine ⟨hlt, ?_⟩
  have hget := h.get_eq hlt
  have htail := h.tail
  unfold sizeofItem at *
  omega

theorem MessageQueue.Holds.clean_none (h : mq.Holds buf bufsz ms) (hbuf : 0 < buf)
    (hxs : ms.takeWhile Message.isComplete = []) (hys : ms.dropWhile Message.isComplete ≠ []) :
    mqClean mq = some mq := by
  have hhigh := (h.head_high hys).2
  have hhead := h.head hbuf
  rw [hxs, List.length_nil] at hhead hhigh
  rw [mqClean, hhead, Option.bind_eq_bind, Option.bind_some, if_neg hhigh, if_pos rfl]
  rfl

theorem MessageQueue.Holds.clean_some (h : mq.Holds buf bufsz ms) (hbuf : 0 < buf)
    (hxs : ms.takeWhile Message.isComplete ≠ []) (hys : ms.dropWhile Message.isComplete ≠ []) :
    mqClean mq = moveQueue { mq with
      mem := memmove mq.mem buf (buf + (packed (ms.takeWhile Message.isComplete)).length)
        (packed (ms.dropWhile Message.isComplete)).length
      curr := buf + (packed (ms.dropWhile Message.isComplete)).length }
      (toInt ((ms.dropWhile Message.isComplete).length - 1))
      (packed (ms.takeWhile Message.isComplete)).length := by
  have hhead := h.head hbuf
  obtain ⟨hlt, hhigh⟩ := h.head_high hys
  have hsplit := List.takeWhile_append_dropWhile (p := Message.isComplete) (l := ms)
  generalize ms.takeWhile Message.isComplete = xs at *
  generalize ms.dropWhile Message.isComplete = ys at *
  subst hsplit
  have hcurr := h.curr
  have hget := h.get_eq hlt
  have htail := h.tail
  rw [packed_append, List.length_append] at hcurr
  rw [List.length_append] at htail
  obtain ⟨m, rest, hm⟩ := List.exists_cons_of_ne_nil hys
  have hitem := h.item xs.length m (by
    rw [List.getElem?_append_right (Nat.le_refl _), Nat.sub_self, hm]
    rfl)
  rw [List.take_left] at hitem
  have hne : mqGet mq xs.length ≠ mqGet mq 0 := by
    have hpos := List.length_pos_iff.2 hxs
    unfold mqGet sizeofItem at *
    omega
  have hidx : (mqGet mq xs.length - mq.queueTail) / sizeofItem = ys.length - 1 := by
    unfold sizeofItem at *
    omega
  have hn : mq.curr - (buf + (packed xs).length) = (packed ys).length := by omega
  have hremoving : buf + (packed xs).length - buf = (packed xs).length := by omega
  rw [mqClean, hhead, Option.bind_eq_bind, Option.bind_some, if_neg hhigh, if_neg hne]
  simp only [hitem, hidx, hn, h.memStart, hremoving]

theorem MessageQueue.Holds.clean (h : mq.Holds buf bufsz ms) (hbuf : 0 < buf)
    (hok : ms.dropWhile Message.isComplete = [] ∨ ms.takeWhile Message.isComplete = [] ∨
      (ms.dropWhile Message.isComplete).length < 2147483648) :
    ∃ mq', mqClean mq = some mq' ∧ mq'.Holds buf bufsz (ms.dropWhile Message.isComplete) := by
  have hsplit := List.takeWhile_append_dropWhile (p := Message.isComplete) (l := ms)
  by_cases hys : ms.dropWhile Message.isComplete = []
  · rw [hys]
    exact h.clean_all hbuf hys
  by_cases hxs : ms.takeWhile Message.isComplete = []
  · rw [hxs, List.nil_append] at hsplit
    rw [hsplit]
    exact ⟨mq, h.clean_none hbuf hxs hys, h⟩
  have hlt := (hok.resolve_left hys).resolve_left hxs
  have hroom : sizeofItem * (ms.dropWhile Message.isComplete).length ≤ mq.memEnd := by
    have hlen := congrArg List.length hsplit
    have htail := h.tail
    rw [List.length_append] at hlen
    unfold sizeofItem at *
    omega
  obtain ⟨mq', hrun, hmoved⟩ := moveQueue_moved { mq with
    mem := memmove mq.mem buf (buf + (packed (ms.takeWhile Message.isComplete)).length)
      (packed (ms.dropWhile Message.isComplete)).length
    curr := buf + (packed (ms.dropWhile Message.isComplete)).length }
    (List.length_pos_iff.2 hys) hlt hroom (packed (ms.takeWhile Message.isComplete)).length
  rw [← h.clean_some hbuf hxs hys] at hrun
  rw [← hsplit] at h
  exact ⟨mq', hrun, h.moved hmoved⟩

end Clean

end BigBox.Buffer
