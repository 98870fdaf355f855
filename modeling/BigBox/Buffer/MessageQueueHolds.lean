import BigBox.Buffer.MessageQueue

namespace BigBox.Buffer
set_option autoImplicit true

structure Message where
  bytes : List UInt8
  state : MessageItemState

def Message.isComplete (m : Message) : Bool := m.state = .complete

/-- The bytes of messages one behind the other. -/
def packed (ms : List Message) : List UInt8 := ms.flatMap Message.bytes

/-- What the calls do to a list of messages. -/
def mqSpec (memEnd : Nat) (ms : List Message) : MqCall → List Message × Option Nat
  | .register bytes =>
    (ms ++ [⟨bytes, .unsent⟩], some (memEnd - sizeofItem * (ms.length + 1)))
  | .state index state => (ms.modify index fun m => { m with state }, none)
  | .clean => (ms.dropWhile Message.isComplete, none)

/-- A queue whose data area holds the bytes of the messages in order and whose items, from the end
of the memory downwards, tell where each message starts, its size and its state. -/
structure MessageQueue.Holds (mq : MessageQueue) (buf bufsz : Nat) (ms : List Message) :
    Prop where
  memStart : mq.memStart = buf
  memEnd : mq.memEnd = buf + bufsz
  curr : mq.curr = buf + (packed ms).length
  tail : mq.queueTail + sizeofItem * ms.length = mq.memEnd
  apart : mq.curr ≤ mq.queueTail
  currSz : mq.currSz = mqCurrsz mq
  data : readBytes mq.mem buf (packed ms).length = packed ms
  item : ∀ i m, ms[i]? = some m → readItem mq.mem (mqGet mq i) =
    ⟨buf + (packed (ms.take i)).length, m.bytes.length, m.state.code⟩

theorem packed_append (xs ys : List Message) : packed (xs ++ ys) = packed xs ++ packed ys :=
  List.flatMap_append

theorem packed_singleton (m : Message) : packed [m] = m.bytes := List.flatMap_singleton _ _

section Items
variable {mem mem' : Nat → UInt8}

theorem readItem_congr (h : ∀ j, j < sizeofItem → mem' (p' + j) = mem (p + j)) :
    readItem mem' p' = readItem mem p := by
  unfold sizeofItem at h
  have hstart : readWord mem' p' 8 = readWord mem p 8 :=
    readWord_congr fun i hi => h i (by omega)
  have hsize : readWord mem' (p' + 8) 8 = readWord mem (p + 8) 8 :=
    readWord_congr fun i hi => by rw [Nat.add_assoc, Nat.add_assoc, h (8 + i) (by omega)]
  have hstate : readWord mem' (p' + 16) 4 = readWord mem (p + 16) 4 :=
    readWord_congr fun i hi => by rw [Nat.add_assoc, Nat.add_assoc, h (16 + i) (by omega)]
  rw [readItem, readItem, hstart, hsize, hstate]

theorem readItem_setStart (p : Nat) (mem : Nat → UInt8) (h : v < 2 ^ 64) :
    readItem (setStart p v mem) p = { readItem mem p with start := v } := by
  have hstart : readWord (setStart p v mem) p 8 = v := readWord_writeWord mem p h
  have hsize : readWord (setStart p v mem) (p + 8) 8 = readWord mem (p + 8) 8 :=
    readWord_apart mem v (.inr (Nat.le_refl _))
  have hstate : readWord (setStart p v mem) (p + 16) 4 = readWord mem (p + 16) 4 :=
    readWord_apart mem v (.inr (by omega))
  rw [readItem, hstart, hsize, hstate]
  rfl

theorem readItem_setSize (p : Nat) (mem : Nat → UInt8) (h : v < 2 ^ 64) :
    readItem (setSize p v mem) p = { readItem mem p with size := v } := by
  have hstart : readWord (setSize p v mem) p 8 = readWord mem p 8 :=
    readWord_apart mem v (.inl (Nat.le_refl _))
  have hsize : readWord (setSize p v mem) (p + 8) 8 = v := readWord_writeWord mem (p + 8) h
  have hstate : readWord (setSize p v mem) (p + 16) 4 = readWord mem (p + 16) 4 :=
    readWord_apart mem v (.inr (Nat.le_refl _))
  rw [readItem, hstart, hsize, hstate]
  rfl

theorem code_lt (state : MessageItemState) : state.code < 256 ^ 4 := by
  cases state <;> decide

theorem code_eq_complete (state : MessageItemState) :
    state.code = MessageItemState.complete.code ↔ state = .complete := by
  cases state <;> decide

theorem readItem_setState (p : Nat) (state : MessageItemState) (mem : Nat → UInt8) :
    readItem (setState p state mem) p = { readItem mem p with state := state.code } := by
  have hstart : readWord (setState p state mem) p 8 = readWord mem p 8 :=
    readWord_apart mem _ (.inl (by omega))
  have hsize : readWord (setState p state mem) (p + 8) 8 = readWord mem (p + 8) 8 :=
    readWord_apart mem _ (.inl (Nat.le_refl _))
  have hstate : readWord (setState p state mem) (p + 16) 4 = state.code :=
    readWord_writeWord mem (p + 16) (code_lt state)
  rw [readItem, hstart, hsize, hstate]
  rfl

/-- An item is written in its own bytes only. -/
theorem setStart_apart (v : Nat) (mem : Nat → UInt8) (h : i < p ∨ p + sizeofItem ≤ i) :
    setStart p v mem i = mem i := by
  unfold sizeofItem at h
  exact writeWord_apart mem v (by omega)

theorem setSize_apart (v : Nat) (mem : Nat → UInt8) (h : i < p ∨ p + sizeofItem ≤ i) :
    setSize p v mem i = mem i := by
  unfold sizeofItem at h
  exact writeWord_apart mem v (by omega)

theorem setState_apart (state : MessageItemState) (mem : Nat → UInt8)
    (h : i < p ∨ p + sizeofItem ≤ i) : setState p state mem i = mem i := by
  unfold sizeofItem at h
  exact writeWord_apart mem state.code (by omega)

end Items

section Holds
variable {mq : MessageQueue} {ms : List Message}

theorem MessageQueue.Holds.get_eq (h : mq.Holds buf bufsz ms) (hi : i < ms.length) :
    mqGet mq i + sizeofItem * (i + 1) = mq.memEnd := by
  have htail := h.tail
  unfold sizeofItem at htail
  unfold mqGet sizeofItem
  omega

theorem MessageQueue.Holds.length_eq (h : mq.Holds buf bufsz ms) : mqLength mq = ms.length := by
  have htail := h.tail
  unfold sizeofItem at htail
  unfold mqLength sizeofItem
  omega

theorem mqInit_holds (mem : Nat → UInt8) (buf bufsz : Nat) :
    (mqInit mem buf bufsz).Holds buf bufsz [] :=
  ⟨rfl, rfl, rfl, rfl, Nat.le_add_right _ _, rfl, rfl, nofun⟩

/-- `mq_register` writes the item it returns. -/
theorem mqRegister_item (mq : MessageQueue) (hcurr : mq.curr < 2 ^ 64) (hn : n < 2 ^ 64) :
    readItem (mqRegister mq n).1.mem (mqRegister mq n).2 =
      ⟨mq.curr, n, MessageItemState.unsent.code⟩ := by
  simp only [mqRegister, readItem_setState, readItem_setSize _ _ hn, readItem_setStart _ _ hcurr]

theorem mqRegister_apart (mq : MessageQueue) (n : Nat)
    (h : i < (mqRegister mq n).2 ∨ (mqRegister mq n).2 + sizeofItem ≤ i) :
    (mqRegister mq n).1.mem i = mq.mem i := by
  simp only [mqRegister] at h ⊢
  rw [setState_apart _ _ h, setSize_apart _ _ h, setStart_apart _ _ h]

/-- The room for a message and its item. -/
theorem MessageQueue.Holds.room (h : mq.Holds buf bufsz ms) (hn : 1 ≤ n) (hle : n ≤ mq.currSz) :
    mq.curr + n + sizeofItem ≤ mq.queueTail := by
  have hsz := h.currSz
  unfold mqCurrsz sizeofItem at hsz
  unfold sizeofItem
  split at hsz <;> omega

theorem MessageQueue.Holds.register (h : mq.Holds buf bufsz ms) (hmax : buf + bufsz < 2 ^ 64)
    (bytes : List UInt8) (hn : 1 ≤ bytes.length) (hle : bytes.length ≤ mq.currSz) :
    ∃ mq', mq.step (.register bytes) =
        some (mq', (mqSpec (buf + bufsz) ms (.register bytes)).2) ∧
      mq'.Holds buf bufsz (mqSpec (buf + bufsz) ms (.register bytes)).1 := by
  have hroom := h.room hn hle
  have htail := h.tail
  have hcurr := h.curr
  have hmemEnd := h.memEnd
  let mq' := (mqRegister (mq.pack bytes) bytes.length).1
  have htail' : mq'.queueTail + sizeofItem = mq.queueTail :=
    Nat.sub_add_cancel (Nat.le_trans (Nat.le_add_left _ _) hroom)
  have hold : ∀ a, a < mq.curr ∨ mq.queueTail ≤ a → mq'.mem a = mq.mem a := by
    intro a ha
    have hitem : a < mq'.queueTail ∨ mq'.queueTail + sizeofItem ≤ a := by omega
    have hdata : a < mq.curr ∨ mq.curr + bytes.length ≤ a := by omega
    exact (mqRegister_apart (mq.pack bytes) bytes.length hitem).trans
      (writeBytes_apart mq.mem bytes hdata)
  have hspec : (mqSpec (buf + bufsz) ms (.register bytes)).1 = ms ++ [⟨bytes, .unsent⟩] := rfl
  have hpacked : packed (ms ++ [⟨bytes, .unsent⟩]) = packed ms ++ bytes := by
    rw [packed_append, packed_singleton]
  have hlen : (packed (ms ++ [⟨bytes, .unsent⟩])).length =
      (packed ms).length + bytes.length := by rw [hpacked, List.length_append]
  refine ⟨mq', ?_, ?_⟩
  · have hout : mq'.queueTail = buf + bufsz - sizeofItem * (ms.length + 1) := by
      unfold sizeofItem at *
      omega
    exact congrArg (fun a => some (mq', some a)) hout
  · rw [hspec]
    refine ⟨h.memStart, h.memEnd, ?_, ?_, ?_, rfl, ?_, fun i m hi => ?_⟩
    · rw [hlen, ← Nat.add_assoc, ← hcurr]
      rfl
    · have hend : mq'.memEnd = mq.memEnd := rfl
      rw [List.length_append, List.length_singleton, hend]
      unfold sizeofItem at *
      omega
    · have hc : mq'.curr = mq.curr + bytes.length := rfl
      omega
    · rw [hlen, readBytes_append, hpacked]
      have hfront : readBytes mq'.mem buf (packed ms).length = packed ms :=
        (readBytes_congr fun j hj => hold (buf + j) (by omega)).trans h.data
      have hnew : readBytes mq'.mem mq.curr bytes.length = bytes := by
        have hwritten := readBytes_self mq.mem mq.curr bytes
        refine (readBytes_congr fun j hj => ?_).trans hwritten
        have hbefore : mq.curr + j < mq'.queueTail := by omega
        exact mqRegister_apart (mq.pack bytes) bytes.length (.inl hbefore)
      rw [hfront, ← hcurr, hnew]
    · rcases Nat.lt_or_ge i ms.length with hlt | hge
      · rw [List.getElem?_append_left hlt] at hi
        rw [List.take_append_of_le_length (Nat.le_of_lt hlt), ← h.item i m hi]
        apply readItem_congr
        intro j _
        have hget := h.get_eq hlt
        have hsame : mqGet mq' i = mqGet mq i := rfl
        rw [hsame]
        apply hold
        unfold sizeofItem at *
        omega
      · have hi' : i = ms.length := by
          have hlt := (List.getElem?_eq_some_iff.1 hi).1
          rw [List.length_append, List.length_singleton] at hlt
          omega
        subst hi'
        rw [List.getElem?_append_right (Nat.le_refl _), Nat.sub_self] at hi
        cases hi
        have hget : mqGet mq' ms.length = mq'.queueTail := by
          have hend : mq'.memEnd = mq.memEnd := rfl
          unfold mqGet sizeofItem at *
          omega
        rw [hget, List.take_left, ← hcurr]
        exact mqRegister_item (mq.pack bytes) (by change mq.curr < _; omega) (by omega)

end Holds

end BigBox.Buffer
