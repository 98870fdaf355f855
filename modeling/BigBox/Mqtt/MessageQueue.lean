import BigBox.Lib.TryRun
import BigBox.Mqtt.Packets

namespace BigBox.Mqtt
set_option autoImplicit true

inductive MessageState where
  | unsent | awaitingAck | complete
  deriving DecidableEq

structure QueuedMessage where
  start : Nat
  size : Nat
  state : MessageState
  time_sent : Int
  control_type : ControlType
  packet_id : BitVec 16

/-- The size of `struct mqtt_queued_message`. -/
def queuedMessageSize : Nat := 40

/-- The block of memory has bytes from its start to `curr`, which are `mem`, and messages from its
end down to `queue_tail`, which are `queue`. -/
structure MessageQueue where
  mem_size : Nat
  mem : List UInt8
  queue : List QueuedMessage
  curr_sz : Nat

def mqttMqCurrsz (mem_size len curr : Nat) : Nat :=
  mem_size - queuedMessageSize * (len + 1) - curr

def MessageQueue.withCurrsz (mq : MessageQueue) : MessageQueue :=
  { mq with curr_sz := mqttMqCurrsz mq.mem_size mq.queue.length mq.mem.length }

def mqttMqInit (bufsz : Nat) : MessageQueue := MessageQueue.withCurrsz ⟨bufsz, [], [], 0⟩

/-- Registers the bytes that are packed at `curr`. The fields that are not set here are what `slot`
has: the ones the caller sets, and what the memory holds. -/
def mqttMqRegister (mq : MessageQueue) (packed : List UInt8) (slot : QueuedMessage) :
    MessageQueue :=
  MessageQueue.withCurrsz
    { mq with
      mem := mq.mem ++ packed
      queue := mq.queue ++
        [{ slot with start := mq.mem.length, size := packed.length, state := .unsent }] }

/-- A connection request that waits for its answer counts as complete. -/
def cleaned (state : MessageState) (control_type : ControlType) : Bool :=
  state = .complete || (state = .awaitingAck && control_type = .connect)

def mqttMqClean (mq : MessageQueue) : MessageQueue :=
  match mq.queue.dropWhile fun m => cleaned m.state m.control_type with
  | [] => MessageQueue.withCurrsz { mq with mem := [], queue := [] }
  | new_head :: rest =>
    if (new_head :: rest).length = mq.queue.length then
      mq
    else
      MessageQueue.withCurrsz
        { mq with
          mem := mq.mem.drop new_head.start
          queue := (new_head :: rest).map fun m => { m with start := m.start - new_head.start } }

/-- Whether a message is the one that is looked for. -/
def sought (control_type : ControlType) (packet_id : Option (BitVec 16)) (state : MessageState)
    (type : ControlType) (id : BitVec 16) : Bool :=
  type = control_type && match packet_id with
    | none => state ≠ .complete
    | some packet_id => packet_id = id

def mqttMqFind (mq : MessageQueue) (control_type : ControlType) (packet_id : Option (BitVec 16)) :
    Option Nat :=
  mq.queue.findIdx? fun m => sought control_type packet_id m.state m.control_type m.packet_id

def MessageQueue.setState (mq : MessageQueue) (i : Nat) (state : MessageState) : MessageQueue :=
  { mq with queue := mq.queue.modify i fun m => { m with state } }

def MessageQueue.setTimeSent (mq : MessageQueue) (i : Nat) (time_sent : Int) : MessageQueue :=
  { mq with queue := mq.queue.modify i fun m => { m with time_sent } }

/-- Sets bits of a byte of a message. -/
def MessageQueue.orByte (mq : MessageQueue) (i at' : Nat) (bits : UInt8) : MessageQueue :=
  match mq.queue[i]? with
  | none => mq
  | some m => { mq with mem := mq.mem.modify (m.start + at') (· ||| bits) }

def MessageQueue.bytes (mq : MessageQueue) (m : QueuedMessage) : List UInt8 :=
  (mq.mem.drop m.start).take m.size

/-- A message with its bytes. -/
structure Message where
  bytes : List UInt8
  state : MessageState
  time_sent : Int
  control_type : ControlType
  packet_id : BitVec 16

def Message.at (m : Message) (start : Nat) : QueuedMessage :=
  ⟨start, m.bytes.length, m.state, m.time_sent, m.control_type, m.packet_id⟩

/-- Messages whose bytes follow one another. -/
def layout : Nat → List Message → List QueuedMessage
  | _, [] => []
  | start, m :: ms => m.at start :: layout (start + m.bytes.length) ms

def allBytes (ms : List Message) : List UInt8 := ms.flatMap Message.bytes

/-- The queue that has a list of messages. -/
def MessageQueue.of (mem_size : Nat) (ms : List Message) : MessageQueue :=
  MessageQueue.withCurrsz ⟨mem_size, allBytes ms, layout 0 ms, 0⟩

section Layout
variable {m : Message} {ms : List Message}

@[simp] theorem length_layout (start : Nat) (ms : List Message) :
    (layout start ms).length = ms.length := by
  induction ms generalizing start with
  | nil => rfl
  | cons m ms ih => exact congrArg (· + 1) (ih _)

theorem allBytes_cons (m : Message) (ms : List Message) :
    allBytes (m :: ms) = m.bytes ++ allBytes ms := List.flatMap_cons

theorem allBytes_append (ms ms' : List Message) :
    allBytes (ms ++ ms') = allBytes ms ++ allBytes ms' := List.flatMap_append

theorem layout_append (start : Nat) (ms ms' : List Message) :
    layout start (ms ++ ms') =
      layout start ms ++ layout (start + (allBytes ms).length) ms' := by
  induction ms generalizing start with
  | nil => rfl
  | cons m ms ih =>
    rw [List.cons_append, layout, ih, layout, List.cons_append, allBytes_cons, List.length_append,
      Nat.add_assoc]

/-- What is looked up in the messages is looked up in the queue. -/
theorem findIdx?_layout (p : MessageState → ControlType → BitVec 16 → Bool) (start : Nat)
    (ms : List Message) :
    (layout start ms).findIdx? (fun m => p m.state m.control_type m.packet_id) =
      ms.findIdx? fun m => p m.state m.control_type m.packet_id := by
  induction ms generalizing start with
  | nil => rfl
  | cons m ms ih =>
    rw [layout, List.findIdx?_cons, List.findIdx?_cons, ih]
    rfl

/-- The messages at the front that may go make up a part of the bytes. -/
theorem dropWhile_layout (p : MessageState → ControlType → Bool) (start : Nat)
    (ms : List Message) :
    ∃ gone, ms = gone ++ ms.dropWhile (fun m => p m.state m.control_type) ∧
      (layout start ms).dropWhile (fun m => p m.state m.control_type) = layout
        (start + (allBytes gone).length) (ms.dropWhile fun m => p m.state m.control_type) := by
  induction ms generalizing start with
  | nil => exact ⟨[], rfl, rfl⟩
  | cons m ms ih =>
    rw [layout, List.dropWhile_cons, List.dropWhile_cons]
    by_cases hp : p m.state m.control_type = true
    · obtain ⟨gone, hms, hrest⟩ := ih (start + m.bytes.length)
      refine ⟨m :: gone, ?_, ?_⟩
      · rw [if_pos hp, List.cons_append, ← hms]
      · rw [if_pos hp, allBytes_cons, List.length_append, ← Nat.add_assoc, ← hrest]
        exact if_pos hp
    · refine ⟨[], ?_, ?_⟩
      · rw [if_neg hp]
        rfl
      · rw [if_neg hp]
        exact if_neg hp

theorem layout_sub (start removing : Nat) (ms : List Message) :
    (layout (start + removing) ms).map (fun m => { m with start := m.start - removing }) =
      layout start ms := by
  induction ms generalizing start with
  | nil => rfl
  | cons m ms ih =>
    rw [layout, List.map_cons, Nat.add_right_comm, ih]
    change QueuedMessage.mk (start + removing - removing) _ _ _ _ _ :: _ = _
    rw [Nat.add_sub_cancel]
    rfl

/-- A change of a message that leaves its size. -/
theorem layout_modify {f : Message → Message} {g : QueuedMessage → QueuedMessage}
    (hfg : ∀ m start, g (Message.at m start) = (f m).at start)
    (hlen : ∀ m, (f m).bytes.length = m.bytes.length) (start i : Nat) (ms : List Message) :
    (layout start ms).modify i g = layout start (ms.modify i f) := by
  induction ms generalizing start i with
  | nil => cases i <;> rfl
  | cons m ms ih =>
    cases i with
    | zero =>
      change g (m.at start) :: layout _ ms =
        (f m).at start :: layout (start + (f m).bytes.length) ms
      rw [hfg, hlen]
    | succ i => exact congrArg (m.at start :: ·) (ih _ _)

theorem allBytes_modify {f : Message → Message} (hbytes : ∀ m, (f m).bytes = m.bytes) (i : Nat)
    (ms : List Message) : allBytes (ms.modify i f) = allBytes ms := by
  induction ms generalizing i with
  | nil => cases i <;> rfl
  | cons m ms ih =>
    cases i with
    | zero =>
      change allBytes (f m :: ms) = _
      rw [allBytes_cons, allBytes_cons, hbytes]
    | succ i =>
      change allBytes (m :: ms.modify i f) = _
      rw [allBytes_cons, allBytes_cons, ih]

theorem getElem?_layout (start i : Nat) (ms : List Message) :
    (layout start ms)[i]? =
      ms[i]?.map fun m => m.at (start + (allBytes (ms.take i)).length) := by
  induction ms generalizing start i with
  | nil => rfl
  | cons m ms ih =>
    cases i with
    | zero => rfl
    | succ i =>
      change (layout (start + m.bytes.length) ms)[i]? = _
      rw [ih, List.take_succ_cons, allBytes_cons, List.length_append, Nat.add_assoc]
      rfl

/-- The bytes of a message are where it says. -/
theorem MessageQueue.bytes_of (h : ms[i]? = some m) :
    (MessageQueue.of n ms).bytes (m.at (allBytes (ms.take i)).length) = m.bytes := by
  have hsplit : allBytes ms = allBytes (ms.take i) ++ (m.bytes ++ allBytes (ms.drop (i + 1))) := by
    obtain ⟨hi, rfl⟩ := List.getElem?_eq_some_iff.1 h
    rw [← allBytes_cons, List.getElem_cons_drop, ← allBytes_append, List.take_append_drop]
  change ((allBytes ms).drop (allBytes (ms.take i)).length).take m.bytes.length = m.bytes
  rw [hsplit, List.drop_left, List.take_left]

theorem modify_append_of_lt {l l' : List α} (hk : k < l.length) (f : α → α) :
    (l ++ l').modify k f = l.modify k f ++ l' := by
  induction l generalizing k with
  | nil => cases hk
  | cons a l ih =>
    cases k with
    | zero => rfl
    | succ k => exact congrArg (a :: ·) (ih (Nat.lt_of_succ_lt_succ hk))

/-- A byte within a message that changes. -/
theorem allBytes_modify_byte (h : ms[i]? = some m) (hk : k < m.bytes.length) (f : UInt8 → UInt8) :
    (allBytes ms).modify ((allBytes (ms.take i)).length + k) f =
      allBytes (ms.modify i fun m => { m with bytes := m.bytes.modify k f }) := by
  induction ms generalizing i with
  | nil => cases h
  | cons m' ms ih =>
    cases i with
    | zero =>
      cases h
      rw [List.take_zero, List.modify_zero_cons, allBytes_cons, allBytes_cons]
      change (m.bytes ++ allBytes ms).modify (0 + k) f = _
      rw [Nat.zero_add, modify_append_of_lt hk]
    | succ i =>
      rw [List.take_succ_cons, List.modify_succ_cons, allBytes_cons, allBytes_cons, allBytes_cons,
        List.length_append, Nat.add_assoc, ← ih h]
      exact List.modifyTailIdx_add _ _ _ _

end Layout

section Operations
variable {n : Nat} {ms : List Message}

theorem mqttMqRegister_of (n : Nat) (ms : List Message) (packed : List UInt8)
    (slot : QueuedMessage) : mqttMqRegister (.of n ms) packed slot =
      .of n (ms ++ [⟨packed, .unsent, slot.time_sent, slot.control_type, slot.packet_id⟩]) := by
  have hmem (m : Message) : allBytes (ms ++ [m]) = allBytes ms ++ m.bytes := by
    rw [allBytes_append, allBytes_cons]
    exact congrArg (allBytes ms ++ ·) (List.append_nil _)
  rw [MessageQueue.of, MessageQueue.of, hmem, layout_append, Nat.zero_add]
  rfl

theorem mqttMqClean_of (n : Nat) (ms : List Message) : mqttMqClean (.of n ms) =
    .of n (ms.dropWhile fun m => cleaned m.state m.control_type) := by
  obtain ⟨gone, hms, hrest⟩ := dropWhile_layout cleaned 0 ms
  rw [Nat.zero_add] at hrest
  rw [mqttMqClean]
  change (match (layout 0 ms).dropWhile fun m => cleaned m.state m.control_type with
    | [] => _
    | new_head :: rest => _) = _
  rw [hrest]
  cases hleft : ms.dropWhile fun m => cleaned m.state m.control_type with
  | nil => rfl
  | cons m rest =>
    rw [hleft] at hms
    change (if (layout _ (m :: rest)).length = (layout 0 ms).length then _ else _) = _
    rw [length_layout, length_layout]
    split
    case isTrue hsame =>
      rw [hms, List.length_append] at hsame
      have hgone : gone = [] := List.eq_nil_of_length_eq_zero (by omega)
      rw [hms, hgone]
      rfl
    case isFalse =>
      have hmem : (allBytes ms).drop (allBytes gone).length = allBytes (m :: rest) := by
        rw [hms, allBytes_append, List.drop_left]
      change MessageQueue.withCurrsz ⟨n, (allBytes ms).drop (allBytes gone).length,
        (layout (allBytes gone).length (m :: rest)).map fun m' =>
          { m' with start := m'.start - (allBytes gone).length }, _⟩ = _
      have hsub := layout_sub 0 (allBytes gone).length (m :: rest)
      rw [Nat.zero_add] at hsub
      rw [hmem, hsub]
      rfl

theorem mqttMqFind_of (n : Nat) (ms : List Message) (control_type : ControlType)
    (packet_id : Option (BitVec 16)) : mqttMqFind (.of n ms) control_type packet_id =
      ms.findIdx? fun m => sought control_type packet_id m.state m.control_type m.packet_id :=
  findIdx?_layout (sought control_type packet_id) 0 ms

/-- A change of a message that leaves its bytes. -/
theorem MessageQueue.modify_of {f : Message → Message} {g : QueuedMessage → QueuedMessage}
    (hfg : ∀ m start, g (Message.at m start) = (f m).at start)
    (hbytes : ∀ m, (f m).bytes = m.bytes) (i : Nat) :
    { MessageQueue.of n ms with queue := (MessageQueue.of n ms).queue.modify i g } =
      MessageQueue.of n (ms.modify i f) := by
  have hlayout := layout_modify hfg (fun m => congrArg List.length (hbytes m)) 0 i ms
  have hlen : (layout 0 ms).length = (layout 0 (ms.modify i f)).length := by
    rw [length_layout, length_layout, List.length_modify]
  change MessageQueue.mk n (allBytes ms) ((layout 0 ms).modify i g)
    (mqttMqCurrsz n (layout 0 ms).length (allBytes ms).length) = _
  rw [hlayout, ← allBytes_modify hbytes i ms, hlen]
  rfl

theorem MessageQueue.setState_of (n : Nat) (ms : List Message) (i : Nat) (state : MessageState) :
    (MessageQueue.of n ms).setState i state = .of n (ms.modify i fun m => { m with state }) :=
  modify_of (f := fun m => { m with state }) (g := fun m => { m with state }) (fun _ _ => rfl)
    (fun _ => rfl) i

theorem MessageQueue.setTimeSent_of (n : Nat) (ms : List Message) (i : Nat) (time_sent : Int) :
    (MessageQueue.of n ms).setTimeSent i time_sent =
      .of n (ms.modify i fun m => { m with time_sent }) :=
  modify_of (f := fun m => { m with time_sent }) (g := fun m => { m with time_sent })
    (fun _ _ => rfl) (fun _ => rfl) i

theorem MessageQueue.orByte_of (bits : UInt8) (h : ms[i]? = some m) (hk : k < m.bytes.length) :
    (MessageQueue.of n ms).orByte i k bits =
      .of n (ms.modify i fun m => { m with bytes := m.bytes.modify k (· ||| bits) }) := by
  have hget : (MessageQueue.of n ms).queue[i]? = some (m.at (allBytes (ms.take i)).length) := by
    change (layout 0 ms)[i]? = _
    rw [getElem?_layout, h, Nat.zero_add]
    rfl
  have hqueue : layout 0 (ms.modify i fun m => { m with bytes := m.bytes.modify k (· ||| bits) }) =
      layout 0 ms := by
    rw [← layout_modify (g := fun m => m) (fun m start => ?_) fun m => List.length_modify _ _ _]
    · exact List.modify_id i _
    · exact congrArg (QueuedMessage.mk start · _ _ _ _) (List.length_modify _ _ _).symm
  have hmem := allBytes_modify_byte h hk (· ||| bits)
  have hlen := List.length_modify (· ||| bits) (allBytes ms) ((allBytes (ms.take i)).length + k)
  rw [MessageQueue.orByte, hget]
  change MessageQueue.mk n ((allBytes ms).modify ((allBytes (ms.take i)).length + k) _)
    (layout 0 ms) (mqttMqCurrsz n (layout 0 ms).length (allBytes ms).length) = _
  rw [← hlen, hmem, ← hqueue]
  rfl

theorem MessageQueue.queue_of (n : Nat) (ms : List Message) (i : Nat) :
    (MessageQueue.of n ms).queue[i]? =
      ms[i]?.map fun m => m.at (allBytes (ms.take i)).length := by
  change (layout 0 ms)[i]? = _
  rw [getElem?_layout, Nat.zero_add]

theorem MessageQueue.curr_sz_of (n : Nat) (ms : List Message) : (MessageQueue.of n ms).curr_sz =
    n - queuedMessageSize * (ms.length + 1) - (allBytes ms).length := by
  rw [← length_layout 0 ms]
  rfl

end Operations

/-- What the client does with its queue. -/
inductive MqOp where
  | pack (bytes : List UInt8) (slot : QueuedMessage)
  | clean
  | find (control_type : ControlType) (packet_id : Option (BitVec 16))
  | setState (i : Nat) (state : MessageState)
  | setTimeSent (i : Nat) (time_sent : Int)
  | orByte (i k : Nat) (bits : UInt8)
  | read (i : Nat)

inductive MqOut where
  | none
  | packed (fits : Bool)
  | found (i : Option Nat)
  | bytes (bytes : List UInt8)
  deriving DecidableEq

/-- An operation on the queue in its memory. There is no result for a message that is not there. -/
def MqOp.step (mq : MessageQueue) : MqOp → Option (MessageQueue × MqOut)
  | pack bytes slot =>
    if bytes.length ≤ mq.curr_sz ∧ bytes ≠ [] then
      some (mqttMqRegister mq bytes slot, .packed true)
    else
      some (mq, .packed false)
  | clean => some (mqttMqClean mq, .none)
  | find control_type packet_id => some (mq, .found (mqttMqFind mq control_type packet_id))
  | setState i state => some (mq.setState i state, .none)
  | setTimeSent i time_sent => some (mq.setTimeSent i time_sent, .none)
  | orByte i k bits => (mq.queue[i]?).bind fun m =>
    if k < m.size then some (mq.orByte i k bits, .none) else Option.none
  | read i => (mq.queue[i]?).map fun m => (mq, .bytes (mq.bytes m))

/-- The operation on the list of the messages, of which there are no more than the memory has room
for with their headers. -/
def MqOp.spec (n : Nat) (ms : List Message) : MqOp → Option (List Message × MqOut)
  | pack bytes slot =>
    if (allBytes ms).length + bytes.length + queuedMessageSize * (ms.length + 1) ≤ n ∧
        bytes ≠ [] then
      some (ms ++ [⟨bytes, .unsent, slot.time_sent, slot.control_type, slot.packet_id⟩],
        .packed true)
    else
      some (ms, .packed false)
  | clean => some (ms.dropWhile fun m => cleaned m.state m.control_type, .none)
  | find control_type packet_id => some (ms, .found (ms.findIdx? fun m =>
    sought control_type packet_id m.state m.control_type m.packet_id))
  | setState i state => some (ms.modify i fun m => { m with state }, .none)
  | setTimeSent i time_sent => some (ms.modify i fun m => { m with time_sent }, .none)
  | orByte i k bits => (ms[i]?).bind fun m =>
    if k < m.bytes.length then
      some (ms.modify i fun m => { m with bytes := m.bytes.modify k (· ||| bits) }, .none)
    else
      Option.none
  | read i => (ms[i]?).map fun m => (ms, .bytes m.bytes)

/-- The messages and their headers are apart in the memory. -/
def Fits (n : Nat) (ms : List Message) : Prop :=
  (allBytes ms).length + queuedMessageSize * ms.length ≤ n

section Refines
variable {n : Nat} {ms : List Message}

theorem MqOp.step_of (n : Nat) (ms : List Message) (op : MqOp) :
    op.step (.of n ms) = (op.spec n ms).map fun r => (.of n r.1, r.2) := by
  cases op with
  | pack bytes slot =>
    have hcond : bytes.length ≤ (MessageQueue.of n ms).curr_sz ∧ bytes ≠ [] ↔
        (allBytes ms).length + bytes.length + queuedMessageSize * (ms.length + 1) ≤ n ∧
          bytes ≠ [] := by
      rw [MessageQueue.curr_sz_of]
      apply and_congr_left
      intro hne
      have hpos := List.length_pos_iff.2 hne
      omega
    rw [MqOp.step, MqOp.spec, if_congr hcond rfl rfl, mqttMqRegister_of]
    split <;> rfl
  | clean => exact congrArg (fun mq => some (mq, MqOut.none)) (mqttMqClean_of n ms)
  | find control_type packet_id =>
    exact congrArg (fun i => some (MessageQueue.of n ms, MqOut.found i))
      (mqttMqFind_of n ms control_type packet_id)
  | setState i state =>
    exact congrArg (fun mq => some (mq, MqOut.none)) (MessageQueue.setState_of n ms i state)
  | setTimeSent i time_sent =>
    exact congrArg (fun mq => some (mq, MqOut.none)) (MessageQueue.setTimeSent_of n ms i time_sent)
  | orByte i k bits =>
    rw [MqOp.step, MqOp.spec, MessageQueue.queue_of]
    cases hm : ms[i]? with
    | none => rfl
    | some m =>
      change (if k < m.bytes.length then some (_, MqOut.none) else none) =
        Option.map _ (if k < m.bytes.length then _ else none)
      split
      case isTrue hk => rw [MessageQueue.orByte_of bits hm hk, Option.map_some]
      case isFalse => rfl
  | read i =>
    rw [MqOp.step, MqOp.spec, MessageQueue.queue_of]
    cases hm : ms[i]? with
    | none => rfl
    | some m =>
      change some (_, MqOut.bytes ((MessageQueue.of n ms).bytes _)) = some (_, MqOut.bytes _)
      rw [MessageQueue.bytes_of hm]

theorem Fits.modify {f : Message → Message} (h : Fits n ms)
    (hlen : ∀ m, (f m).bytes.length = m.bytes.length) (i : Nat) : Fits n (ms.modify i f) := by
  have hsame : (allBytes (ms.modify i f)).length = (allBytes ms).length := by
    induction ms generalizing i n with
    | nil => rw [List.modify_nil]
    | cons m ms ih =>
      cases i with
      | zero => rw [List.modify_zero_cons, allBytes_cons, allBytes_cons, List.length_append,
          List.length_append, hlen]
      | succ i => rw [List.modify_succ_cons, allBytes_cons, allBytes_cons, List.length_append,
          List.length_append, ih (n := (allBytes ms).length + queuedMessageSize * ms.length)
            (Nat.le_refl _)]
  rw [Fits, List.length_modify, hsame]
  exact h

theorem Fits.dropWhile (h : Fits n ms) (p : Message → Bool) : Fits n (ms.dropWhile p) := by
  have hsub := List.dropWhile_sublist p (l := ms)
  have hbytes : (allBytes (ms.dropWhile p)).length ≤ (allBytes ms).length := by
    have hsplit := congrArg (fun ms => (allBytes ms).length) (List.takeWhile_append_dropWhile
      (p := p) (l := ms))
    rw [← hsplit, allBytes_append, List.length_append]
    exact Nat.le_add_left _ _
  exact Nat.le_trans (Nat.add_le_add hbytes (Nat.mul_le_mul_left _ hsub.length_le)) h

theorem MqOp.spec_fits (n : Nat) (ms : List Message) (op : MqOp) (ms' : List Message) (out : MqOut)
    (h : Fits n ms) (hstep : op.spec n ms = some (ms', out)) : Fits n ms' := by
  cases op with
  | pack bytes slot =>
    rw [MqOp.spec] at hstep
    split at hstep
    case isTrue hfit =>
      cases hstep
      rw [Fits, allBytes_append, allBytes_cons, List.length_append, List.length_append,
        List.length_append]
      exact hfit.1
    case isFalse =>
      cases hstep
      exact h
  | clean =>
    cases hstep
    exact h.dropWhile _
  | find control_type packet_id =>
    cases hstep
    exact h
  | setState i state =>
    cases hstep
    exact h.modify (f := fun m => { m with state }) (fun _ => rfl) i
  | setTimeSent i time_sent =>
    cases hstep
    exact h.modify (f := fun m => { m with time_sent }) (fun _ => rfl) i
  | orByte i k bits =>
    obtain ⟨m, _, hstep⟩ := Option.bind_eq_some_iff.1 hstep
    split at hstep
    case isTrue =>
      cases hstep
      exact h.modify (fun m => List.length_modify _ _ _) i
    case isFalse => cases hstep
  | read i =>
    obtain ⟨m, _, hstep⟩ := Option.map_eq_some_iff.1 hstep
    cases hstep
    exact h

/-- In its one block of memory the queue is a list of messages: bytes and headers never meet,
whatever is removed and moved, every message keeps its bytes, and one that fits is never refused. -/
theorem mqttMq_refines (n : Nat) (ops : List MqOp) :
    tryRun MqOp.step (mqttMqInit n) ops =
      (tryRun (MqOp.spec n) [] ops).map (fun r => (MessageQueue.of n r.1, r.2)) ∧
    ∀ ms outs, tryRun (MqOp.spec n) [] ops = some (ms, outs) → Fits n ms := by
  constructor
  · have hrun (ms : List Message) : tryRun MqOp.step (MessageQueue.of n ms) ops =
        (tryRun (MqOp.spec n) ms ops).map fun r => (MessageQueue.of n r.1, r.2) := by
      induction ops generalizing ms with
      | nil => rfl
      | cons op ops ih =>
        rw [tryRun, tryRun, MqOp.step_of]
        cases op.spec n ms with
        | none => rfl
        | some r =>
          change (tryRun MqOp.step (MessageQueue.of n r.1) ops).map _ =
            ((tryRun (MqOp.spec n) r.1 ops).map _).map _
          rw [ih, Option.map_map, Option.map_map]
          rfl
    exact hrun []
  · intro ms outs hrun
    have hnil : Fits n [] := Nat.zero_le n
    exact tryRun_invariant (MqOp.spec_fits n) hnil hrun

end Refines

end BigBox.Mqtt
