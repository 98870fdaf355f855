import BigBox.Mqtt.Client
import BigBox.Mqtt.RoundTrip

namespace BigBox.Mqtt
set_option autoImplicit true

/-- The bytes are what is packed for a message of a type with an identifier. -/
inductive Packs : ControlType → BitVec 16 → List UInt8 → Prop where
  | connect (h : mqttPackConnectionRequest bufsz args = .ok bytes) : Packs .connect packet_id bytes
  | publish (h : mqttPackPublishRequest bufsz args packet_id = .ok bytes) :
    Packs .publish packet_id bytes
  | pubxxx (h : mqttPackPubxxxRequest bufsz control_type packet_id = .ok bytes)
    (htype : control_type ≠ .publish) : Packs control_type packet_id bytes
  | subscribe (h : mqttPackSubscribeRequest bufsz packet_id topics = .ok bytes) :
    Packs .subscribe packet_id bytes
  | unsubscribe (h : mqttPackUnsubscribeRequest bufsz packet_id topics = .ok bytes) :
    Packs .unsubscribe packet_id bytes
  | pingreq (h : mqttPackPingRequest bufsz = .ok bytes) : Packs .pingreq packet_id bytes
  | disconnect (h : mqttPackDisconnect bufsz = .ok bytes) : Packs .disconnect packet_id bytes

/-- The level of service of a message that is published. -/
def Message.qos (m : Message) : UInt8 :=
  if m.control_type = .publish then (m.bytes[0]?).elim 0 firstByteQos else 0

/-- A message of the highest level that is not complete. -/
def Message.Open (m : Message) : Prop :=
  m.control_type = .publish ∧ m.state ≠ .complete ∧ m.qos = 2

def Message.completed (m : Message) : Message := { m with state := .complete }

/-- A message that was sent. -/
def Message.sentAs (m : Message) (state : MessageState) (time_sent : Int) : Message :=
  { m with
    state, time_sent
    bytes := if m.control_type = .publish ∧ m.qos = 1 then
      m.bytes.modify 1 (· ||| mqttPublishDup) else m.bytes }

/-- The types of the requests whose identifiers the client chooses. -/
def ownType (control_type : ControlType) : Prop :=
  control_type = .publish ∨ control_type = .subscribe ∨ control_type = .unsubscribe

instance : DecidablePred ownType := fun _ => inferInstanceAs (Decidable (_ ∨ _ ∨ _))

/-- A message as it is registered. -/
structure Message.New (m : Message) : Prop where
  state : m.state = .unsent
  packs : Packs m.control_type m.packet_id m.bytes
  bytes : m.bytes ≠ []

def cleanedMessages (ms : List Message) : List Message :=
  ms.dropWhile fun m => cleaned m.state m.control_type

/-- What may become of the messages in one step, with the events of the step. -/
inductive Change : List Message → List Event → List Message → Prop where
  | clean : Change ms [] (cleanedMessages ms)
  | register (hnew : m.New) (htype : m.control_type ≠ .pubrec)
    (hown : ownType m.control_type →
      m.packet_id ≠ 0#16 ∧ ∀ m' ∈ ms, m'.packet_id ≠ m.packet_id) :
    Change ms [] (ms ++ [m])
  | deliver (hqos : r.qos_level ≠ 2) : Change ms [.delivered r] ms
  | receive (hnew : m.New) (htype : m.control_type = .pubrec) (hqos : r.qos_level = 2)
    (hid : r.packet_id = some m.packet_id)
    (hfirst : ∀ m' ∈ ms, m'.control_type = .pubrec → m'.packet_id ≠ m.packet_id) :
    Change ms [.delivered r] (ms ++ [m])
  | release (hm : ms[i]? = some m) (htype : m.control_type ≠ .pubrec) :
    Change ms [] (ms.modify i Message.completed)
  | letGo (hm : ms[i]? = some m) (htype : m.control_type = .pubrec) :
    Change ms [.released m.packet_id] (ms.modify i Message.completed)
  | sent (hm : ms[i]? = some m) (hopen : m.state ≠ .complete)
    (hstate : stateWhenSent m.control_type m.qos = some state)
    (hfirst : m.Open → ∀ j < i, ∀ m', ms[j]? = some m' → ¬ m'.Open) :
    Change ms [] (ms.modify i fun m => m.sentAs state time_sent)
  | touched : Change ms [] (ms.modify i fun m => { m with time_sent })

/-- Steps one after another, with all their events. -/
inductive Effects : List Message → List Event → List Message → Prop where
  | refl : Effects ms [] ms
  | step (h : Change ms es ms') (h' : Effects ms' es' ms'') : Effects ms (es ++ es') ms''

theorem Effects.trans (h : Effects ms es ms') (h' : Effects ms' es' ms'') :
    Effects ms (es ++ es') ms'' := by
  induction h with
  | refl => exact h'
  | step hstep _ ih =>
    rw [List.append_assoc]
    exact .step hstep (ih h')

theorem Effects.single (h : Change ms es ms') : Effects ms es ms' := by
  have hone := Effects.step h .refl
  rwa [List.append_nil] at hone

/-- What every step keeps holds behind all of them. -/
theorem Effects.invariant {P : List Message → Prop} (h : Effects ms es ms')
    (hstep : ∀ ms es ms', Change ms es ms' → P ms → P ms') (hms : P ms) : P ms' := by
  induction h with
  | refl => exact hms
  | step hchange _ ih => exact ih (hstep _ _ _ hchange hms)

theorem of_mem_modify {ms : List Message} {f : Message → Message} (h : m' ∈ ms.modify i f) :
    m' ∈ ms ∨ ∃ m, ms[i]? = some m ∧ m' = f m := by
  obtain ⟨j, hj⟩ := List.mem_iff_getElem?.1 h
  by_cases hij : i = j
  · cases hij
    rw [List.getElem?_modify_eq] at hj
    obtain ⟨m, hm, rfl⟩ := Option.map_eq_some_iff.1 hj
    exact .inr ⟨m, hm, rfl⟩
  · rw [List.getElem?_modify_ne _ _ hij] at hj
    exact .inl (List.mem_of_getElem? hj)

theorem cleanedMessages_subset (ms : List Message) : ∀ m ∈ cleanedMessages ms, m ∈ ms := by
  intro m hm
  exact (List.dropWhile_sublist _).mem hm

/-- What every new message has and every change of a message keeps, all messages have. -/
theorem Change.all {P : Message → Prop} (h : Change ms es ms') (hms : ∀ m ∈ ms, P m)
    (hnew : ∀ m : Message, m.New → P m) (hcompleted : ∀ m : Message, P m → P m.completed)
    (hsent : ∀ (m : Message) state time_sent, P m → P (m.sentAs state time_sent))
    (htouched : ∀ (m : Message) time_sent, P m → P { m with time_sent }) : ∀ m ∈ ms', P m := by
  have hmodify (i : Nat) (f : Message → Message) (hf : ∀ m, P m → P (f m)) :
      ∀ m ∈ ms.modify i f, P m := by
    intro m hm
    rcases of_mem_modify hm with hm | ⟨m₀, hm₀, rfl⟩
    · exact hms m hm
    · exact hf m₀ (hms m₀ (List.mem_of_getElem? hm₀))
  have happend (m₀ : Message) (hm₀ : m₀.New) : ∀ m ∈ ms ++ [m₀], P m := by
    intro m hm
    rcases List.mem_append.1 hm with hm | hm
    · exact hms m hm
    · rw [List.mem_singleton.1 hm]
      exact hnew m₀ hm₀
  cases h with
  | clean => exact fun m hm => hms m (cleanedMessages_subset ms m hm)
  | register hm => exact happend _ hm
  | deliver => exact hms
  | receive hm => exact happend _ hm
  | release => exact hmodify _ _ hcompleted
  | letGo => exact hmodify _ _ hcompleted
  | sent => exact hmodify _ _ fun m => hsent m _ _
  | touched => exact hmodify _ _ fun m => htouched m _

/-- The messages that a client has come to. -/
def Leads (client' : Client) (n : Nat) (ms : List Message) (es : List Event) : Prop :=
  ∃ ms', client'.mq = .of n ms' ∧ Effects ms es ms'

theorem Leads.after (h : Leads client' n ms' es) (heffects : Effects ms [] ms') :
    Leads client' n ms es := by
  obtain ⟨ms'', hmq, hrest⟩ := h
  exact ⟨ms'', hmq, heffects.trans hrest⟩

theorem Leads.rfl {client : Client} (h : client.mq = .of n ms) : Leads client n ms [] :=
  ⟨ms, h, .refl⟩

section Packing
variable {client client' : Client} {ms : List Message} {slot : QueuedMessage}

theorem FixedHeader.two_le (h : FixedHeader) : 2 ≤ h.bytes.length := by
  have hpos := List.length_pos_iff.2 (varint_ne_nil h.remaining_length)
  rw [h.length_bytes]
  omega

theorem packBehind_two_le {bytes : List UInt8} (h : packBehind bufsz header body = .ok bytes)
    (hne : bytes ≠ []) : 2 ≤ bytes.length := by
  obtain ⟨_, _, rfl⟩ := (packBehind_iff bufsz body hne).1 h
  rw [List.length_append]
  exact Nat.le_trans header.two_le (Nat.le_add_right _ _)

/-- Every packet has a type and a length. -/
theorem Packs.two_le {bytes : List UInt8} (h : Packs control_type packet_id bytes)
    (hne : bytes ≠ []) : 2 ≤ bytes.length := by
  cases h with
  | connect h =>
    obtain ⟨_, _, _, rfl⟩ := mqttPackConnectionRequest_ok h hne
    rw [List.length_append]
    exact Nat.le_trans (FixedHeader.two_le _) (Nat.le_add_right _ _)
  | publish h =>
    obtain ⟨_, _, rfl⟩ := mqttPackPublishRequest_ok h hne
    rw [List.length_append]
    exact Nat.le_trans (FixedHeader.two_le _) (Nat.le_add_right _ _)
  | pubxxx h htype => exact packBehind_two_le h hne
  | subscribe h =>
    rw [mqttPackSubscribeRequest] at h
    split at h
    case isTrue => cases h
    case isFalse => exact packBehind_two_le h hne
  | unsubscribe h =>
    rw [mqttPackUnsubscribeRequest] at h
    split at h
    case isTrue => cases h
    case isFalse => exact packBehind_two_le h hne
  | pingreq h =>
    obtain ⟨_, _, rfl⟩ := (mqttPackFixedHeader_iff _ hne).1 h
    exact FixedHeader.two_le _
  | disconnect h =>
    obtain ⟨_, _, rfl⟩ := (mqttPackFixedHeader_iff _ hne).1 h
    exact FixedHeader.two_le _

/-- What becomes of the messages when something is packed: the ones before, maybe cleaned, and the
new one behind them unless there is an error. -/
structure Tried (client client' : Client) (n : Nat) (ms base : List Message)
    (slot : QueuedMessage) (e : Option Error) : Prop where
  recv_buffer : client'.recv_buffer = client.recv_buffer
  effects : Effects ms [] base
  subset : ∀ m ∈ base, m ∈ ms
  result : (client'.mq = .of n base ∧ e.isSome) ∨
    (e = none ∧ ∃ m : Message, m.New ∧ m.control_type = slot.control_type ∧
      m.packet_id = slot.packet_id ∧ client'.mq = .of n (base ++ [m]))

theorem register_tried {client₀ : Client} {bytes : List UInt8}
    (h : client.register bytes slot = some (client', e)) (hmq : client.mq = .of n base)
    (hbuffer : client.recv_buffer = client₀.recv_buffer) (heffects : Effects ms [] base)
    (hsubset : ∀ m ∈ base, m ∈ ms) (hpacks : Packs slot.control_type slot.packet_id bytes)
    (hne : bytes ≠ []) :
    Tried client₀ client' n ms base slot e := by
  rw [Client.register] at h
  split at h
  case isTrue =>
    cases h
    refine ⟨hbuffer, heffects, hsubset, .inr ⟨rfl, ?_⟩⟩
    refine ⟨⟨bytes, .unsent, slot.time_sent, slot.control_type, slot.packet_id⟩,
      ⟨rfl, hpacks, hne⟩, rfl, rfl, ?_⟩
    change mqttMqRegister client.mq bytes slot = _
    rw [hmq, mqttMqRegister_of]
  case isFalse => cases h

/-- What packing does to the queue. -/
theorem mqttClientTryPack_tried {pack : Nat → Except Error (List UInt8)}
    (h : mqttClientTryPack client pack slot = some (client', e)) (hmq : client.mq = .of n ms)
    (hpack : ∀ bufsz bytes, pack bufsz = .ok bytes →
      Packs slot.control_type slot.packet_id bytes) :
    ∃ base, Tried client client' n ms base slot e := by
  rw [mqttClientTryPack] at h
  cases herror : client.error with
  | some e' =>
    rw [herror] at h
    cases h
    exact ⟨ms, rfl, .refl, fun _ hm => hm, .inl ⟨hmq, rfl⟩⟩
  | none =>
    rw [herror] at h
    cases hfirst : pack client.mq.curr_sz with
    | error e' =>
      simp only [hfirst] at h
      cases h
      exact ⟨ms, rfl, .refl, fun _ hm => hm, .inl ⟨hmq, rfl⟩⟩
    | ok bytes =>
      cases bytes with
      | cons b packed =>
        simp only [hfirst] at h
        exact ⟨ms, register_tried h hmq rfl .refl (fun _ hm => hm) (hpack _ _ hfirst)
          (List.cons_ne_nil _ _)⟩
      | nil =>
        have hclean : mqttMqClean client.mq = .of n (cleanedMessages ms) := by
          rw [hmq, mqttMqClean_of]
          rfl
        simp only [hfirst] at h
        cases hsecond : pack (mqttMqClean client.mq).curr_sz with
        | error e' =>
          simp only [hsecond] at h
          cases h
          exact ⟨_, rfl, .single .clean, cleanedMessages_subset ms, .inl ⟨hclean, rfl⟩⟩
        | ok bytes =>
          cases bytes with
          | nil =>
            simp only [hsecond] at h
            cases h
            exact ⟨_, rfl, .single .clean, cleanedMessages_subset ms, .inl ⟨hclean, rfl⟩⟩
          | cons b packed =>
            simp only [hsecond] at h
            exact ⟨_, register_tried h hclean rfl (.single .clean) (cleanedMessages_subset ms)
              (hpack _ _ hsecond) (List.cons_ne_nil _ _)⟩

/-- Packing anything but the answer to a received message. -/
theorem Tried.effects_register (h : Tried client client' n ms base slot e)
    (htype : slot.control_type ≠ .pubrec)
    (hown : ownType slot.control_type →
      slot.packet_id ≠ 0#16 ∧ ∀ m ∈ ms, m.packet_id ≠ slot.packet_id) :
    Leads client' n ms [] := by
  rcases h.result with ⟨hmq, _⟩ | ⟨_, m, hnew, hmtype, hmid, hmq⟩
  · exact ⟨base, hmq, h.effects⟩
  · refine ⟨base ++ [m], hmq, h.effects.trans (.single (.register hnew ?_ ?_))⟩
    · rwa [hmtype]
    · rw [hmtype, hmid]
      intro hownType
      obtain ⟨hne, hunused⟩ := hown hownType
      exact ⟨hne, fun m' hm' => hunused m' (h.subset m' hm')⟩

/-- Packing a request that has no identifier of the client's. -/
theorem Tried.effects_plain (h : Tried client client' n ms base slot e)
    (control_type : ControlType) (htype : slot.control_type = control_type)
    (hno : control_type ≠ .pubrec) (hown : ¬ ownType control_type) :
    Leads client' n ms [] := by
  rw [← htype] at hno hown
  exact h.effects_register hno fun h => absurd h hown

theorem packNext_effects {pack : BitVec 16 → Nat → Except Error (List UInt8)}
    (h : client.packNext pack control_type slot = some (client', e)) (hmq : client.mq = .of n ms)
    (hpack : ∀ packet_id bufsz bytes, pack packet_id bufsz = .ok bytes →
      Packs control_type packet_id bytes) (htype : control_type ≠ .pubrec) :
    Leads client' n ms [] := by
  obtain ⟨packet_id, hpid, h⟩ := Option.bind_eq_some_iff.1 h
  obtain ⟨hne, hunused⟩ := (mqttNextPid_spec client.mq client.pid_lfsr).2.1 packet_id hpid
  obtain ⟨base, htried⟩ := mqttClientTryPack_tried h hmq (hpack packet_id)
  apply htried.effects_register htype
  intro _
  refine ⟨hne, fun m hm heq => ?_⟩
  obtain ⟨i, hi⟩ := List.mem_iff_getElem?.1 hm
  have hqueue := MessageQueue.queue_of n ms i
  rw [hi, ← hmq] at hqueue
  exact hunused _ (List.mem_of_getElem? hqueue) heq

end Packing

/-- Every message has a type and a length. -/
def Sized (ms : List Message) : Prop := ∀ m ∈ ms, 2 ≤ m.bytes.length

theorem length_sentAs (m : Message) (state : MessageState) (time_sent : Int) :
    (m.sentAs state time_sent).bytes.length = m.bytes.length := by
  rw [Message.sentAs]
  split
  · exact List.length_modify _ _ _
  · rfl

theorem Message.New.two_le {m : Message} (h : m.New) : 2 ≤ m.bytes.length :=
  h.packs.two_le h.bytes

theorem Change.sized (h : Change ms es ms') (hs : Sized ms) : Sized ms' := by
  apply h.all hs
  · exact fun _ hnew => hnew.two_le
  · exact fun _ hle => hle
  · intro m state time_sent hle
    rwa [length_sentAs]
  · exact fun _ _ hle => hle

theorem Effects.sized (h : Effects ms es ms') (hs : Sized ms) : Sized ms' :=
  h.invariant (fun _ _ _ => Change.sized) hs

section Sending
variable {n i : Nat} {ms : List Message} {m : Message} {client : Client} {events : SendEvents}
  {s s' : Sending}

theorem modify_congr {f g : Message → Message} (hm : ms[i]? = some m) (hfg : f m = g m) :
    ms.modify i f = ms.modify i g := by
  apply List.ext_getElem?
  intro j
  rw [List.getElem?_modify, List.getElem?_modify]
  by_cases hij : i = j
  · cases hij
    rw [hm]
    simp only [Option.map_eq_map, Option.map_some, if_true, hfg]
  · simp only [if_neg hij]

theorem qos_of (hm : ms[i]? = some m) (hlen : 2 ≤ m.bytes.length) :
    (MessageQueue.of n ms).qos (m.at (allBytes (ms.take i)).length) = some m.qos := by
  rw [MessageQueue.qos, Message.qos]
  change (if m.control_type = .publish then ((allBytes ms)[(allBytes (ms.take i)).length]?).map _
    else _) = _
  split
  case isTrue =>
    have hbytes := MessageQueue.bytes_of (n := n) hm
    change ((allBytes ms).drop (allBytes (ms.take i)).length).take m.bytes.length =
      m.bytes at hbytes
    have hfirst := congrArg (·[0]?) hbytes
    change ((List.take m.bytes.length _)[0]?) = m.bytes[0]? at hfirst
    rw [List.getElem?_take_of_lt (by omega), List.getElem?_drop, Nat.add_zero] at hfirst
    rw [hfirst, List.getElem?_eq_getElem (by omega)]
    rfl
  case isFalse => rfl

theorem messageSent_buffer (client : Client) (events : SendEvents) (i : Nat) (msg : QueuedMessage)
    (qos : UInt8) :
    (client.messageSent events i msg qos).1.recv_buffer = client.recv_buffer := by
  rw [Client.messageSent]
  cases stateWhenSent msg.control_type qos with
  | none => rfl
  | some state =>
    change (if _ then _ else _ : Client × Option Error).1.recv_buffer = _
    split <;> rfl

/-- A message of a type that is never queued. -/
theorem messageSent_none (events : SendEvents) (i : Nat) (hmq : client.mq = .of n ms)
    (hstate : stateWhenSent msg.control_type qos = none) :
    (client.messageSent events i msg qos).1.mq =
        .of n (ms.modify i fun m => { m with time_sent := events.time_sent i }) ∧
      (client.messageSent events i msg qos).2.isSome := by
  rw [Client.messageSent, hstate]
  refine ⟨?_, rfl⟩
  change client.mq.setTimeSent i _ = _
  rw [hmq, MessageQueue.setTimeSent_of]

/-- A message that is sent. -/
theorem messageSent_some (events : SendEvents) (hmq : client.mq = .of n ms) (hm : ms[i]? = some m)
    (hlen : 2 ≤ m.bytes.length) (hstate : stateWhenSent m.control_type m.qos = some state) :
    (client.messageSent events i (m.at start) m.qos).1.mq =
        .of n (ms.modify i fun m => m.sentAs state (events.time_sent i)) ∧
      (client.messageSent events i (m.at start) m.qos).2 = none := by
  have hboth : (client.mq.setTimeSent i (events.time_sent i)).setState i state =
      .of n (ms.modify i fun m => { m with state, time_sent := events.time_sent i }) := by
    rw [hmq, MessageQueue.setTimeSent_of, MessageQueue.setState_of, List.modify_modify_eq]
    rfl
  have htype : (m.at start).control_type = m.control_type := rfl
  rw [Client.messageSent, htype, hstate]
  by_cases hdup : m.control_type = .publish ∧ m.qos = 1
  · have hcond : (decide (m.control_type = .publish) && decide (m.qos = 1)) = true := by
      rw [decide_eq_true hdup.1, decide_eq_true hdup.2]
      rfl
    simp only [hcond, if_true]
    refine ⟨?_, trivial⟩
    have hget : (ms.modify i fun m => { m with state, time_sent := events.time_sent i })[i]? =
        some { m with state, time_sent := events.time_sent i } := by
      rw [List.getElem?_modify_eq, hm]
      rfl
    change ((client.mq.setTimeSent i (events.time_sent i)).setState i state).orByte i 1 _ = _
    rw [hboth, MessageQueue.orByte_of _ hget (by change 1 < m.bytes.length; omega),
      List.modify_modify_eq]
    congr 1
    apply modify_congr hm
    rw [Message.sentAs, if_pos hdup]
    rfl
  · have hcond : (decide (m.control_type = .publish) && decide (m.qos = 1)) = false := by
      rw [Bool.and_eq_false_iff]
      rcases not_and_or.1 hdup with h | h
      · exact .inl (decide_eq_false h)
      · exact .inr (decide_eq_false h)
    simp only [hcond, Bool.false_eq_true, if_false]
    refine ⟨?_, trivial⟩
    rw [hboth]
    congr 1
    apply modify_congr hm
    rw [Message.sentAs, if_neg hdup]

/-- Only what is not complete is sent, and no second message of the highest level. -/
theorem resend_spec (client : Client) (events : SendEvents) (i : Nat) (inflight_qos2 : Bool)
    (msg : QueuedMessage) (qos : UInt8) :
    ((resend client events i inflight_qos2 msg qos).1 = true → msg.state ≠ .complete ∧
      (msg.control_type = .publish → qos = 2 → inflight_qos2 = false)) ∧
    (inflight_qos2 = true → (resend client events i inflight_qos2 msg qos).2 = true) ∧
    (msg.control_type = .publish → msg.state ≠ .complete → qos = 2 →
      (resend client events i inflight_qos2 msg qos).2 = true) := by
  have hstate (b : Bool) (h : (decide (msg.state = .unsent) ||
      (decide (msg.state = .awaitingAck) && b)) = true) : msg.state ≠ .complete := by
    intro hcomplete
    rw [hcomplete] at h
    exact absurd h Bool.false_ne_true
  rw [resend]
  split
  case isTrue hqos =>
    rw [Bool.and_eq_true, Bool.and_eq_true] at hqos
    refine ⟨?_, fun _ => rfl, fun _ _ _ => rfl⟩
    intro hresend
    obtain ⟨hresend, hno⟩ := Bool.and_eq_true_iff.1 hresend
    exact ⟨hstate _ hresend, fun _ _ => by rwa [Bool.not_eq_true'] at hno⟩
  case isFalse hqos =>
    refine ⟨?_, fun h => h, ?_⟩
    · intro hresend
      refine ⟨hstate _ hresend, fun htype hlevel => ?_⟩
      exact absurd (by rw [htype, hlevel, decide_eq_true (hstate _ hresend)]; rfl) hqos
    · intro htype hopen hlevel
      exact absurd (by rw [htype, hlevel, decide_eq_true hopen]; rfl) hqos

theorem head?_modify_one (l : List UInt8) (f : UInt8 → UInt8) : (l.modify 1 f)[0]? = l[0]? := by
  rw [List.getElem?_modify_ne]
  decide

theorem qos_sentAs (m : Message) (state : MessageState) (time_sent : Int) :
    (m.sentAs state time_sent).qos = m.qos := by
  have hfirst : (m.sentAs state time_sent).bytes[0]? = m.bytes[0]? := by
    rw [Message.sentAs]
    split
    · exact head?_modify_one _ _
    · rfl
  rw [Message.qos, hfirst]
  rfl

/-- Every message in front that is open is known to the loop. -/
def InFlight (ms : List Message) (i : Nat) (inflight_qos2 : Bool) : Prop :=
  ∀ j < i, ∀ m, ms[j]? = some m → m.Open → inflight_qos2 = true

/-- What the loop has done so far: the changes, and the packets that went out, each of them the
bytes of a message. -/
structure Sending.Follows (s s' : Sending) (n : Nat) (ms ms' : List Message) : Prop where
  mq : s'.client.mq = .of n ms'
  effects : Effects ms [] ms'
  recv_buffer : s'.client.recv_buffer = s.client.recv_buffer
  sent : ∀ p ∈ s'.sent, p ∈ s.sent ∨ ∃ ms₁ m, Effects ms [] ms₁ ∧ m ∈ ms₁ ∧ p = m.bytes

/-- A turn of the loop. -/
theorem sendTurn_follows (h : sendTurn events i s = some s') (hmq : s.client.mq = .of n ms)
    (hsized : Sized ms) (hinflight : InFlight ms i s.inflight_qos2) :
    ∃ ms', s.Follows s' n ms ms' ∧ InFlight ms' (i + 1) s'.inflight_qos2 := by
  obtain ⟨msg, hmsg, h⟩ := Option.bind_eq_some_iff.1 h
  obtain ⟨qos, hqos, h⟩ := Option.map_eq_some_iff.1 h
  rw [hmq, MessageQueue.queue_of] at hmsg
  obtain ⟨m, hm, rfl⟩ := Option.map_eq_some_iff.1 hmsg
  have hlen := hsized m (List.mem_of_getElem? hm)
  rw [hmq, qos_of hm hlen] at hqos
  cases hqos
  have hnext (b : Bool) (hkeep : s.inflight_qos2 = true → b = true) (hopen : m.Open → b = true) :
      InFlight ms (i + 1) b := by
    intro j hj m' hm' hopen'
    rcases Nat.lt_succ_iff_lt_or_eq.1 hj with hj | rfl
    · exact hkeep (hinflight j hj m' hm' hopen')
    · cases hm.symm.trans hm'
      exact hopen hopen'
  obtain ⟨hsend, hkeep, hopen⟩ := resend_spec s.client events i s.inflight_qos2
    (m.at (allBytes (ms.take i)).length) m.qos
  have hopen (ho : m.Open) := hopen ho.1 ho.2.1 ho.2.2
  generalize hr : resend s.client events i s.inflight_qos2 (m.at (allBytes (ms.take i)).length)
    m.qos = r at h hsend hkeep hopen
  change (if (!r.1) = true then _ else _) = s' at h
  split at h
  case isTrue =>
    cases h
    exact ⟨ms, ⟨hmq, .refl, rfl, fun p hp => .inl hp⟩, hnext _ hkeep hopen⟩
  case isFalse hyes =>
    have hyes : r.1 = true := by
      cases h1 : r.1 with
      | false =>
        rw [h1] at hyes
        exact absurd rfl hyes
      | true => rfl
    obtain ⟨hstate, hlevel⟩ := hsend hyes
    split at h
    case isTrue =>
      cases h
      exact ⟨ms, ⟨hmq, .refl, rfl, fun p hp => .inl hp⟩, hnext _ hkeep hopen⟩
    case isFalse =>
      cases h
      have hbytes : s.client.mq.bytes (m.at (allBytes (ms.take i)).length) = m.bytes := by
        rw [hmq, MessageQueue.bytes_of hm]
      have hsent : ∀ p ∈ s.sent ++ [s.client.mq.bytes (m.at (allBytes (ms.take i)).length)],
          p ∈ s.sent ∨ ∃ ms₁ m, Effects ms [] ms₁ ∧ m ∈ ms₁ ∧ p = m.bytes := by
        intro p hp
        rcases List.mem_append.1 hp with hp | hp
        · exact .inl hp
        · rw [List.mem_singleton.1 hp, hbytes]
          exact .inr ⟨ms, m, .refl, List.mem_of_getElem? hm, rfl⟩
      have hmodify (f : Message → Message) (hf : (f m).Open → m.Open) :
          InFlight (ms.modify i f) (i + 1) r.2 := by
        intro j hj m' hm' hopen'
        by_cases hij : i = j
        · cases hij
          rw [List.getElem?_modify_eq, hm] at hm'
          cases hm'
          exact hopen (hf hopen')
        · rw [List.getElem?_modify_ne _ _ hij] at hm'
          exact hnext _ hkeep hopen j hj m' hm' hopen'
      cases hwhen : stateWhenSent m.control_type m.qos with
      | none =>
        have htype (start : Nat) : stateWhenSent (m.at start).control_type m.qos = none := hwhen
        obtain ⟨hmq', _⟩ := messageSent_none events i hmq (htype (allBytes (ms.take i)).length)
        exact ⟨_, ⟨hmq', .single .touched, messageSent_buffer _ _ _ _ _, hsent⟩,
          hmodify (fun m => { m with time_sent := events.time_sent i }) fun h => h⟩
      | some state =>
        obtain ⟨hmq', _⟩ := messageSent_some events hmq hm hlen hwhen
        refine ⟨_, ⟨hmq', .single (.sent hm hstate hwhen ?_), messageSent_buffer _ _ _ _ _, hsent⟩,
          hmodify _ ?_⟩
        · intro ho j hj m' hm' ho'
          have hflag := hinflight j hj m' hm' ho'
          rw [hlevel ho.1 ho.2.2] at hflag
          exact Bool.false_ne_true hflag
        · intro ho
          exact ⟨ho.1, hstate, (qos_sentAs m _ _).symm.trans ho.2.2⟩

theorem Sending.Follows.trans {s'' : Sending} (h : s.Follows s' n ms ms')
    (h' : s'.Follows s'' n ms' ms'') : s.Follows s'' n ms ms'' := by
  refine ⟨h'.mq, h.effects.trans h'.effects, h'.recv_buffer.trans h.recv_buffer, ?_⟩
  intro p hp
  rcases h'.sent p hp with hp | ⟨ms₁, m, heffects, hm, rfl⟩
  · exact h.sent p hp
  · exact .inr ⟨ms₁, m, h.effects.trans heffects, hm, rfl⟩

/-- The loop over the messages. -/
theorem sendLoop_follows (h : sendLoop events left i s = some s') (hmq : s.client.mq = .of n ms)
    (hsized : Sized ms) (hinflight : InFlight ms i s.inflight_qos2) :
    ∃ ms', s.Follows s' n ms ms' := by
  induction left generalizing i s ms with
  | zero =>
    cases h
    exact ⟨ms, hmq, .refl, rfl, fun p hp => .inl hp⟩
  | succ left ih =>
    obtain ⟨s₁, hturn, h⟩ := Option.bind_eq_some_iff.1 h
    obtain ⟨ms₁, hfollows, hinflight₁⟩ := sendTurn_follows hturn hmq hsized hinflight
    split at h
    case isTrue =>
      cases h
      exact ⟨ms₁, hfollows⟩
    case isFalse =>
      obtain ⟨ms', hrest⟩ := ih h hfollows.mq (hfollows.effects.sized hsized) hinflight₁
      exact ⟨ms', hfollows.trans hrest⟩

/-- What a call does to the messages, with its events and the packets that it sends, each of them
the bytes of a message. -/
structure Acts (client client' : Client) (n : Nat) (ms : List Message) (sent : List (List UInt8))
    (es : List Event) (ms' : List Message) : Prop where
  mq : client'.mq = .of n ms'
  effects : Effects ms es ms'
  sent : ∀ p ∈ sent, ∃ ms₁ m, Effects ms [] ms₁ ∧ m ∈ ms₁ ∧ p = m.bytes

theorem mqttPing_effects (h : mqttPing client slot = some (client', e))
    (hmq : client.mq = .of n ms) : Leads client' n ms [] := by
  obtain ⟨base, htried⟩ := mqttClientTryPack_tried h hmq fun _ _ h => .pingreq h
  exact htried.effects_plain .pingreq rfl (by decide) (by decide)

theorem mqttSend_acts (h : mqttSend client events slot = some (sent, client', e))
    (hmq : client.mq = .of n ms) (hsized : Sized ms) :
    ∃ ms', Acts client client' n ms sent [] ms' := by
  rw [mqttSend] at h
  split at h
  case h_1 =>
    cases h
    exact ⟨ms, hmq, .refl, List.forall_mem_nil _⟩
  case h_2 =>
    obtain ⟨s, hloop, h⟩ := Option.bind_eq_some_iff.1 h
    obtain ⟨ms₁, hfollows⟩ := sendLoop_follows hloop hmq hsized
      fun j hj => absurd hj (Nat.not_lt_zero j)
    have hsent : ∀ p ∈ s.sent, ∃ ms₁ m, Effects ms [] ms₁ ∧ m ∈ ms₁ ∧ p = m.bytes := by
      intro p hp
      rcases hfollows.sent p hp with hp | hp
      · exact absurd hp List.not_mem_nil
      · exact hp
    cases herror : s.error with
    | some e' =>
      rw [herror] at h
      cases h
      exact ⟨ms₁, hfollows.mq, hfollows.effects, hsent⟩
    | none =>
      simp only [herror] at h
      split at h
      case isTrue =>
        obtain ⟨⟨client₁, e₁⟩, hping, h⟩ := Option.map_eq_some_iff.1 h
        obtain ⟨ms', hmq', heffects⟩ := mqttPing_effects hping hfollows.mq
        have hboth := hfollows.effects.trans heffects
        cases e₁ with
        | some e₁ =>
          cases h
          exact ⟨ms', hmq', hboth, hsent⟩
        | none =>
          cases h
          exact ⟨ms', hmq', hboth, hsent⟩
      case isFalse =>
        cases h
        exact ⟨ms₁, hfollows.mq, hfollows.effects, hsent⟩

end Sending

section Receiving
variable {n i : Nat} {ms : List Message} {m : Message} {client client' : Client}
  {slot : QueuedMessage} {es events : List Event} {e : Option Error}

theorem sought_some (control_type : ControlType) (packet_id : BitVec 16) (state : MessageState)
    (type : ControlType) (id : BitVec 16) :
    sought control_type (some packet_id) state type id = true ↔
      type = control_type ∧ packet_id = id := by
  change (decide (type = control_type) && decide (packet_id = id)) = true ↔ _
  rw [Bool.and_eq_true, decide_eq_true_iff, decide_eq_true_iff]

/-- The message that is found, among those of a type. -/
structure Finds (ms : List Message) (control_type : ControlType)
    (packet_id : Option (BitVec 16)) (i : Nat) (m : Message) : Prop where
  get : ms[i]? = some m
  control_type : m.control_type = control_type
  packet_id : ∀ p, packet_id = some p → m.packet_id = p

theorem finds_of (h : mqttMqFind (.of n ms) control_type packet_id = some i) :
    ∃ m, Finds ms control_type packet_id i m := by
  rw [mqttMqFind_of, List.findIdx?_eq_some_iff_getElem] at h
  obtain ⟨hi, hsought, _⟩ := h
  refine ⟨ms[i], List.getElem?_eq_getElem hi, ?_, ?_⟩
  · exact of_decide_eq_true (Bool.and_eq_true_iff.1 hsought).1
  · rintro p rfl
    exact ((sought_some _ _ _ _ _).1 hsought).2.symm

/-- Letting go of a message: none is found, or it is complete. -/
theorem releaseThen_leads {next : Client → Handled}
    (h : client.releaseThen control_type packet_id next = some (client', es, e))
    (hmq : client.mq = .of n ms)
    (hnext : ∀ client₁ i m, Finds ms control_type packet_id i m →
      client₁.mq = .of n (ms.modify i Message.completed) → next client₁ = some (client', es, e) →
      Leads client' n ms es) : Leads client' n ms es := by
  rw [Client.releaseThen, Client.release] at h
  cases hfind : mqttMqFind client.mq control_type packet_id with
  | none =>
    rw [hfind] at h
    cases h
    exact .rfl hmq
  | some i =>
    rw [hfind] at h
    rw [hmq] at hfind
    obtain ⟨m, hm⟩ := finds_of hfind
    apply hnext _ i m hm _ h
    change client.mq.setState i _ = _
    rw [hmq, MessageQueue.setState_of]
    rfl

theorem releaseThen_leads_of_ne {next : Client → Handled}
    (h : client.releaseThen control_type packet_id next = some (client', es, e))
    (hmq : client.mq = .of n ms) (htype : control_type ≠ .pubrec)
    (hnext : ∀ client₁ ms₁, client₁.mq = .of n ms₁ → next client₁ = some (client', es, e) →
      Leads client' n ms₁ es) : Leads client' n ms es := by
  apply releaseThen_leads h hmq
  intro client₁ i m hm hmq₁ h₁
  apply (hnext client₁ _ hmq₁ h₁).after
  apply Effects.single (.release hm.get _)
  rw [hm.control_type]
  exact htype

theorem handled_leads (hmq : client.mq = .of n ms) (h : handled client = some (client', es, e)) :
    Leads client' n ms es := by
  cases h
  exact .rfl hmq

/-- An answer that is staged. -/
theorem stage_tried (h : client.stage control_type packet_id slot events = some (client', es, e))
    (hmq : client.mq = .of n ms) (htype : control_type ≠ .publish) :
    ∃ client₁ base, client'.mq = client₁.mq ∧ es = (if e.isSome then [] else events) ∧
      Tried client client₁ n ms base { slot with control_type, packet_id } e := by
  obtain ⟨⟨client₁, e₁⟩, hpack, h⟩ := Option.map_eq_some_iff.1 h
  obtain ⟨base, htried⟩ := mqttClientTryPack_tried hpack hmq fun _ _ h => .pubxxx h htype
  cases e₁ with
  | some e₁ =>
    cases h
    exact ⟨client₁, base, by rfl, by rfl, htried⟩
  | none =>
    cases h
    exact ⟨client₁, base, by rfl, by rfl, htried⟩

theorem stage_leads (h : client.stage control_type packet_id slot events = some (client', es, e))
    (hmq : client.mq = .of n ms) (hown : ¬ ownType control_type) (htype : control_type ≠ .pubrec) :
    Leads client' n ms [] ∧ es = (if e.isSome then [] else events) := by
  obtain ⟨client₁, base, hsame, hes, htried⟩ := stage_tried h hmq fun h => hown (.inl h)
  obtain ⟨ms', hmq', heffects⟩ := htried.effects_plain _ rfl htype hown
  exact ⟨⟨ms', hsame.trans hmq', heffects⟩, hes⟩

/-- The answer to a message of the highest level. -/
theorem stage_pubrec {response : PublishResponse}
    (h : client.stage .pubrec packet_id slot [.delivered response] = some (client', es, e))
    (hmq : client.mq = .of n ms) (hqos : response.qos_level = 2)
    (hid : response.packet_id = some packet_id)
    (hfirst : ∀ m ∈ ms, m.control_type = .pubrec → m.packet_id ≠ packet_id) :
    Leads client' n ms es := by
  obtain ⟨client₁, base, hsame, hes, htried⟩ := stage_tried h hmq fun h => by cases h
  rcases htried.result with ⟨hmq', herror⟩ | ⟨rfl, m, hnew, htype, hmid, hmq'⟩
  · rw [hes, if_pos herror]
    exact ⟨base, hsame.trans hmq', htried.effects⟩
  · change m.packet_id = packet_id at hmid
    refine ⟨base ++ [m], hsame.trans hmq', ?_⟩
    rw [hes]
    apply htried.effects.trans (.single (.receive hnew htype hqos _ _))
    · rw [hmid]
      exact hid
    · intro m' hm' htype'
      rw [hmid]
      exact hfirst m' (htried.subset m' hm') htype'

theorem handlePublish_leads {response : PublishResponse}
    (h : handlePublish client response slot = some (client', es, e)) (hmq : client.mq = .of n ms) :
    Leads client' n ms es := by
  rw [handlePublish] at h
  split at h
  case isTrue hqos =>
    obtain ⟨packet_id, _, h⟩ := Option.bind_eq_some_iff.1 h
    obtain ⟨⟨ms', hmq', heffects⟩, hes⟩ := stage_leads h hmq (by decide) (by decide)
    cases e with
    | some e =>
      cases hes
      exact ⟨ms', hmq', heffects⟩
    | none =>
      cases hes
      refine ⟨ms', hmq', heffects.trans (.single (.deliver ?_))⟩
      rw [hqos]
      decide
  case isFalse =>
    split at h
    case isTrue hqos =>
      obtain ⟨packet_id, hid, h⟩ := Option.bind_eq_some_iff.1 h
      split at h
      case isTrue =>
        cases h
        exact .rfl hmq
      case isFalse hnone =>
        apply stage_pubrec h hmq hqos hid
        intro m hm htype heq
        apply hnone
        rw [hmq, mqttMqFind_of, List.findIdx?_isSome, List.any_eq_true]
        exact ⟨m, hm, (sought_some _ _ _ _ _).2 ⟨htype, heq.symm⟩⟩
    case isFalse hqos =>
      cases h
      exact ⟨ms, hmq, .single (.deliver hqos)⟩

theorem handleResponse_leads {decoded : Decoded}
    (h : handleResponse client slot decoded = some (client', es, e)) (hmq : client.mq = .of n ms) :
    Leads client' n ms es := by
  cases decoded with
  | connack session_present_flag return_code =>
    rw [handleResponse] at h
    apply releaseThen_leads_of_ne h hmq
    · decide
    · intro client₁ ms₁ hmq₁ h₁
      split at h₁
      case isTrue =>
        cases h₁
        exact .rfl hmq₁
      case isFalse => exact handled_leads hmq₁ h₁
  | publish response => exact handlePublish_leads h hmq
  | puback packet_id =>
    rw [handleResponse] at h
    exact releaseThen_leads_of_ne h hmq (by decide) fun _ _ => handled_leads
  | pubrec packet_id =>
    rw [handleResponse] at h
    split at h
    case isTrue => exact handled_leads hmq h
    case isFalse =>
      apply releaseThen_leads_of_ne h hmq
      · decide
      · intro client₁ ms₁ hmq₁ h₁
        obtain ⟨hleads, hes⟩ := stage_leads h₁ hmq₁ (by decide) (by decide)
        rw [hes, ite_self]
        exact hleads
  | pubrel packet_id =>
    rw [handleResponse] at h
    apply releaseThen_leads h hmq
    intro client₁ i m hm hmq₁ h₁
    obtain ⟨⟨client₂, es₂, e₂⟩, hstage, h₂⟩ := Option.map_eq_some_iff.1 h₁
    obtain ⟨⟨ms', hmq', heffects⟩, hes⟩ := stage_leads hstage hmq₁ (by decide) (by decide)
    rw [ite_self] at hes
    cases h₂
    refine ⟨ms', hmq', ?_⟩
    rw [hes, ← hm.packet_id packet_id rfl]
    exact .step (.letGo hm.get hm.control_type) heffects
  | pubcomp packet_id =>
    rw [handleResponse] at h
    exact releaseThen_leads_of_ne h hmq (by decide) fun _ _ => handled_leads
  | suback packet_id return_codes =>
    rw [handleResponse] at h
    apply releaseThen_leads_of_ne h hmq
    · decide
    · intro client₁ ms₁ hmq₁ h₁
      obtain ⟨return_code, _, h₁⟩ := Option.bind_eq_some_iff.1 h₁
      split at h₁
      case isTrue =>
        cases h₁
        exact .rfl hmq₁
      case isFalse => exact handled_leads hmq₁ h₁
  | unsuback packet_id =>
    rw [handleResponse] at h
    exact releaseThen_leads_of_ne h hmq (by decide) fun _ _ => handled_leads
  | pingresp =>
    rw [handleResponse] at h
    exact releaseThen_leads_of_ne h hmq (by decide) fun _ _ => handled_leads
  | connect =>
    cases h
    exact .rfl hmq
  | subscribe =>
    cases h
    exact .rfl hmq

theorem recvTurn_leads {read : Option (List UInt8)}
    (h : recvTurn client read slot = some (client', es, e, again)) (hmq : client.mq = .of n ms) :
    Leads client' n ms es := by
  cases read with
  | none =>
    cases h
    exact .rfl hmq
  | some bytes =>
    obtain ⟨unpacked, _, h⟩ := Option.bind_eq_some_iff.1 h
    rcases unpacked with error | (_ | ⟨fixed_header, consumed, decoded⟩)
    · cases h
      exact .rfl hmq
    · dsimp only at h
      split at h
      case isTrue =>
        cases h
        exact .rfl hmq
      case isFalse =>
        cases h
        exact .rfl hmq
    · obtain ⟨⟨client₁, es₁, e₁⟩, hhandle, h⟩ := Option.bind_eq_some_iff.1 h
      have hleads : Leads client₁ n ms es₁ := handleResponse_leads hhandle hmq
      cases e₁ with
      | some e₁ =>
        cases h
        exact hleads
      | none =>
        dsimp only at h
        split at h
        case isTrue =>
          cases h
          exact hleads
        case isFalse => cases h

/-- The loop that receives. -/
theorem mqttRecv_leads (h : mqttRecv client reads = some (client', es, e))
    (hmq : client.mq = .of n ms) : Leads client' n ms es := by
  induction reads generalizing client ms es with
  | nil => cases h
  | cons read reads ih =>
    obtain ⟨read, slot⟩ := read
    obtain ⟨⟨client₁, es₁, e₁, again⟩, hturn, h⟩ := Option.bind_eq_some_iff.1 h
    obtain ⟨ms₁, hmq₁, heffects₁⟩ := recvTurn_leads hturn hmq
    cases again with
    | false =>
      cases h
      exact ⟨ms₁, hmq₁, heffects₁⟩
    | true =>
      obtain ⟨⟨client₂, es₂, e₂⟩, hrest, h⟩ := Option.map_eq_some_iff.1 h
      cases h
      obtain ⟨ms', hmq', heffects'⟩ := ih hrest hmq₁
      exact ⟨ms', hmq', heffects₁.trans heffects'⟩

end Receiving

section Calls
variable {n : Nat} {ms : List Message} {client client' : Client} {out : Output}

theorem acts_of_effects (h : Leads client' n ms []) :
    ∃ ms', Acts client client' n ms [] [] ms' := by
  obtain ⟨ms', hmq, heffects⟩ := h
  exact ⟨ms', hmq, heffects, List.forall_mem_nil _⟩

theorem mqttConnect_acts {args : ConnectArgs} (h : mqttConnect client args slot = some (client', e))
    (hmq : client.mq = .of n ms) : ∃ ms', Acts client client' n ms [] [] ms' := by
  have hfirst (client₁ : Client) (h₁ : client₁.mq = client.mq) : (if client₁.error =
      some .connectNotCalled then { client₁ with error := none } else client₁).mq = .of n ms := by
    split
    case isTrue => exact h₁.trans hmq
    case isFalse => exact h₁.trans hmq
  rw [mqttConnect] at h
  obtain ⟨base, htried⟩ := mqttClientTryPack_tried h (hfirst _ rfl) fun _ _ h => .connect h
  apply acts_of_effects
  exact htried.effects_plain .connect rfl (by decide) (by decide)

theorem mqttDisconnect_acts (h : mqttDisconnect client slot = some (client', e))
    (hmq : client.mq = .of n ms) : ∃ ms', Acts client client' n ms [] [] ms' := by
  obtain ⟨base, htried⟩ := mqttClientTryPack_tried h hmq fun _ _ h => .disconnect h
  apply acts_of_effects
  exact htried.effects_plain .disconnect rfl (by decide) (by decide)

/-- What any call does. -/
theorem Call.step_acts {call : Call} (h : call.step client = some (client', out))
    (hmq : client.mq = .of n ms) (hsized : Sized ms) :
    ∃ ms', Acts client client' n ms out.sent out.events ms' := by
  cases call with
  | connect args slot =>
    obtain ⟨r, hr, h⟩ := Option.map_eq_some_iff.1 h
    cases h
    exact mqttConnect_acts hr hmq
  | publish args slot =>
    obtain ⟨r, hr, h⟩ := Option.map_eq_some_iff.1 h
    cases h
    apply acts_of_effects
    exact packNext_effects hr hmq (fun _ _ _ h => .publish h) (by decide)
  | subscribe topic_name max_qos_level slot =>
    obtain ⟨r, hr, h⟩ := Option.map_eq_some_iff.1 h
    cases h
    apply acts_of_effects
    exact packNext_effects hr hmq (fun _ _ _ h => .subscribe h) (by decide)
  | unsubscribe topic_name slot =>
    obtain ⟨r, hr, h⟩ := Option.map_eq_some_iff.1 h
    cases h
    apply acts_of_effects
    exact packNext_effects hr hmq (fun _ _ _ h => .unsubscribe h) (by decide)
  | ping slot =>
    obtain ⟨r, hr, h⟩ := Option.map_eq_some_iff.1 h
    cases h
    exact acts_of_effects (mqttPing_effects hr hmq)
  | disconnect slot =>
    obtain ⟨r, hr, h⟩ := Option.map_eq_some_iff.1 h
    cases h
    exact mqttDisconnect_acts hr hmq
  | send events slot =>
    obtain ⟨r, hr, h⟩ := Option.map_eq_some_iff.1 h
    cases h
    exact mqttSend_acts hr hmq hsized
  | recv reads =>
    obtain ⟨r, hr, h⟩ := Option.map_eq_some_iff.1 h
    cases h
    obtain ⟨ms', hmq', heffects⟩ := mqttRecv_leads hr hmq
    exact ⟨ms', hmq', heffects, List.forall_mem_nil _⟩

end Calls

/-- The packets and the events of a run. -/
def sentIn (outs : List Output) : List (List UInt8) := outs.flatMap Output.sent

def eventsIn (outs : List Output) : List Event := outs.flatMap Output.events

/-- What a run of calls does to the messages of the client, with the packets that go out, each of
them the bytes that a message has on the way. -/
structure Ran (client' : Client) (n : Nat) (ms : List Message) (outs : List Output)
    (ms' : List Message) : Prop where
  mq : client'.mq = .of n ms'
  effects : Effects ms (eventsIn outs) ms'
  sent : ∀ p ∈ sentIn outs, ∃ es ms₁ m, Effects ms es ms₁ ∧ m ∈ ms₁ ∧ p = m.bytes

theorem tryRun_ran {calls : List Call} {client : Client}
    (hrun : tryRun Call.step client calls = some (client', outs)) (hmq : client.mq = .of n ms)
    (hsized : Sized ms) : ∃ ms', Ran client' n ms outs ms' := by
  induction calls generalizing client ms outs with
  | nil =>
    cases hrun
    exact ⟨ms, hmq, .refl, List.forall_mem_nil _⟩
  | cons call calls ih =>
    obtain ⟨⟨client₁, out⟩, hstep, hrun⟩ := Option.bind_eq_some_iff.1 hrun
    obtain ⟨⟨client₂, outs₂⟩, hrest, hrun⟩ := Option.map_eq_some_iff.1 hrun
    cases hrun
    obtain ⟨ms₁, hacts⟩ := Call.step_acts hstep hmq hsized
    obtain ⟨ms', hran⟩ := ih hrest hacts.mq (hacts.effects.sized hsized)
    refine ⟨ms', hran.mq, hacts.effects.trans hran.effects, ?_⟩
    intro p hp
    rcases List.mem_append.1 hp with hp | hp
    · obtain ⟨ms₂, m, heffects, hm, hbytes⟩ := hacts.sent p hp
      exact ⟨[], ms₂, m, heffects, hm, hbytes⟩
    · obtain ⟨es, ms₂, m, heffects, hm, hbytes⟩ := hran.sent p hp
      exact ⟨_, ms₂, m, hacts.effects.trans heffects, hm, hbytes⟩

/-- What a run from an initial client does to its messages. -/
theorem Client.Initial.ran {calls : List Call} {client : Client} (h : client.Initial)
    (hrun : tryRun Call.step client calls = some (client', outs)) :
    ∃ n ms, Ran client' n [] outs ms := by
  obtain ⟨n, hmq, _⟩ := h
  change client.mq = .of n [] at hmq
  obtain ⟨ms, hran⟩ := tryRun_ran hrun hmq (List.forall_mem_nil _)
  exact ⟨n, ms, hran⟩

end BigBox.Mqtt
