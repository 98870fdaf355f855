import BigBox.Mqtt.ClientRuns

namespace BigBox.Mqtt
set_option autoImplicit true

section Lists
variable {i : Nat} {ms : List Message} {m m' : Message} {f : Message → Message}

theorem mem_modify_of_ne (hm : m ∈ ms) (hne : ms[i]? ≠ some m) : m ∈ ms.modify i f := by
  obtain ⟨j, hj⟩ := List.mem_iff_getElem?.1 hm
  apply List.mem_of_getElem? (i := j)
  rw [List.getElem?_modify_ne, hj]
  rintro rfl
  exact hne hj

theorem mem_modify_self (hm : ms[i]? = some m) : f m ∈ ms.modify i f := by
  apply List.mem_of_getElem? (i := i)
  rw [List.getElem?_modify_eq, hm]
  rfl

theorem mem_dropWhile {p : α → Bool} {l : List α} (ha : a ∈ l) (hp : p a = false) :
    a ∈ l.dropWhile p := by
  induction l with
  | nil => cases ha
  | cons b l ih =>
    rw [List.dropWhile_cons]
    split
    case isTrue hb =>
      rcases List.mem_cons.1 ha with rfl | ha
      · rw [hp] at hb
        exact absurd hb Bool.false_ne_true
      · exact ih ha
    case isFalse => exact ha

end Lists

/-- Effects up to an event and from it on. -/
theorem Effects.split (h : Effects ms (es ++ e :: es') ms') :
    ∃ ms₁ ms₂, Effects ms es ms₁ ∧ Change ms₁ [e] ms₂ ∧ Effects ms₂ es' ms' := by
  generalize hall : es ++ e :: es' = all at h
  induction h generalizing es with
  | refl => exact absurd hall (List.append_ne_nil_of_right_ne_nil _ (List.cons_ne_nil _ _))
  | @step ms es₁ ms₁ es₂ ms₂ hchange hrest ih =>
    cases hes₁ : es₁ with
    | nil =>
      rw [hes₁] at hall hchange
      obtain ⟨ms₃, ms₄, hbefore, hone, hafter⟩ := ih hall
      exact ⟨ms₃, ms₄, .step hchange hbefore, hone, hafter⟩
    | cons e₁ none =>
      have hnone : none = [] := by
        rw [hes₁] at hchange
        cases hchange <;> rfl
      rw [hes₁, hnone] at hall hchange
      cases es with
      | nil =>
        cases hall
        exact ⟨ms, ms₁, .refl, hchange, hrest⟩
      | cons e₂ es =>
        have htail : es ++ e :: es' = es₂ := (List.cons.inj hall).2
        have hhead : e₂ = e₁ := (List.cons.inj hall).1
        obtain ⟨ms₃, ms₄, hbefore, hone, hafter⟩ := ih htail
        rw [hhead]
        exact ⟨ms₃, ms₄, .step hchange hbefore, hone, hafter⟩

section Once
variable {packet_id : BitVec 16} {ms ms' : List Message} {es : List Event}

/-- The answer to a received message is in the queue until the message is released. -/
def Waits (packet_id : BitVec 16) (ms : List Message) : Prop :=
  ∃ m ∈ ms, m.control_type = .pubrec ∧ m.packet_id = packet_id ∧ m.state ≠ .complete

theorem Waits.clean (h : Waits packet_id ms) : Waits packet_id (cleanedMessages ms) := by
  obtain ⟨m, hm, htype, hid, hstate⟩ := h
  refine ⟨m, mem_dropWhile hm ?_, htype, hid, hstate⟩
  rw [cleaned, htype, decide_eq_false hstate]
  exact Bool.and_false _

theorem Waits.append (h : Waits packet_id ms) (ms' : List Message) :
    Waits packet_id (ms ++ ms') := by
  obtain ⟨m, hm, hwaits⟩ := h
  exact ⟨m, List.mem_append_left _ hm, hwaits⟩

/-- A change of one message that keeps what waits. -/
theorem Waits.modify {f : Message → Message} (h : Waits packet_id ms)
    (hf : ∀ m, ms[i]? = some m → m.control_type = .pubrec → m.packet_id = packet_id →
      m.state ≠ .complete → (f m).control_type = .pubrec ∧ (f m).packet_id = packet_id ∧
        (f m).state ≠ .complete) :
    Waits packet_id (ms.modify i f) := by
  obtain ⟨m, hm, htype, hid, hstate⟩ := h
  by_cases hi : ms[i]? = some m
  · exact ⟨f m, mem_modify_self hi, hf m hi htype hid hstate⟩
  · exact ⟨m, mem_modify_of_ne hm hi, htype, hid, hstate⟩

theorem Change.waits (h : Change ms es ms') (hwaits : Waits packet_id ms)
    (hno : .released packet_id ∉ es) : Waits packet_id ms' := by
  cases h with
  | clean => exact hwaits.clean
  | register => exact hwaits.append _
  | deliver => exact hwaits
  | receive => exact hwaits.append _
  | release hm htype =>
    apply hwaits.modify
    intro m hm' htype' _ _
    cases hm.symm.trans hm'
    exact absurd htype' htype
  | letGo hm htype =>
    obtain ⟨m, hmem, htype', hid, hstate⟩ := hwaits
    refine ⟨m, mem_modify_of_ne hmem ?_, htype', hid, hstate⟩
    intro hm'
    cases hm.symm.trans hm'
    rw [hid] at hno
    exact hno (List.mem_singleton.2 rfl)
  | sent hm hopen hstate =>
    apply hwaits.modify
    intro m hm' htype hid _
    cases hm.symm.trans hm'
    rw [htype] at hstate
    cases hstate
    exact ⟨htype, hid, MessageState.noConfusion⟩
  | touched =>
    apply hwaits.modify
    intro m _ htype hid hstate
    exact ⟨htype, hid, hstate⟩

theorem Effects.waits (h : Effects ms es ms') (hwaits : Waits packet_id ms)
    (hno : .released packet_id ∉ es) : Waits packet_id ms' := by
  induction h with
  | refl => exact hwaits
  | step hchange _ ih =>
    rw [List.mem_append, not_or] at hno
    exact ih (hchange.waits hwaits hno.1) hno.2

/-- A message of the highest level is given to the application only when none with its identifier
waits, and waits from then on. -/
theorem Change.receives {r : PublishResponse} (h : Change ms [.delivered r] ms')
    (hqos : r.qos_level = 2) (hid : r.packet_id = some packet_id) :
    ¬ Waits packet_id ms ∧ Waits packet_id ms' := by
  cases h with
  | deliver hqos' => exact absurd hqos hqos'
  | receive hnew htype _ hid' hfirst =>
    cases hid.symm.trans hid'
    constructor
    · rintro ⟨m', hm', htype', hid, _⟩
      exact hfirst m' hm' htype' hid
    · refine ⟨_, List.mem_append_right _ (List.mem_singleton.2 rfl), htype, rfl, ?_⟩
      rw [hnew.state]
      exact MessageState.noConfusion

/-- However calls, answers and losses interleave, a message of the highest level of service reaches
the application at most once before its identifier is released. -/
theorem mqttRecv_atMostOnce {client client' : Client} (hinit : client.Initial)
    (hrun : tryRun Call.step client calls = some (client', outs)) {r r' : PublishResponse}
    {before between after : List Event}
    (hes : eventsIn outs = before ++ .delivered r :: (between ++ .delivered r' :: after))
    (hqos : r.qos_level = 2) (hqos' : r'.qos_level = 2) (hid : r.packet_id = some packet_id)
    (hid' : r'.packet_id = some packet_id) : .released packet_id ∈ between := by
  obtain ⟨n, ms, hran⟩ := hinit.ran hrun
  have heffects := hran.effects
  rw [hes] at heffects
  obtain ⟨ms₁, ms₂, _, hfirst, hrest⟩ := heffects.split
  obtain ⟨ms₃, ms₄, hbetween, hsecond, _⟩ := hrest.split
  have hwaits := (hfirst.receives hqos hid).2
  by_contra hno
  exact (hsecond.receives hqos' hid').1 (hbetween.waits hwaits hno)

/-- What the memory holds behind the queue in the runs below. -/
def blank : QueuedMessage := ⟨0, 0, .unsent, 0, .reserved, 0⟩

/-- A client with room for three messages. -/
def smallClient : Client := ⟨0, 0, 0, some .connectNotCalled, 30, ⟨64, []⟩, mqttMqInit 150⟩

def promptly : SendEvents := ⟨fun _ => 0, fun _ => true, fun _ => 0, 0⟩

/-- A message that is received, released and, when the queue has been cleaned, received again. -/
def receivedTwice : List Call :=
  [.connect ⟨some [99], none, none, none, none, 2, 400⟩ blank, .send promptly blank,
    .recv [(some [0x34, 6, 0, 1, 97, 0, 1, 5], blank), (some [], blank)], .send promptly blank,
    .recv [(some [0x62, 2, 0, 1], blank), (some [], blank)], .send promptly blank, .ping blank,
    .recv [(some [0x34, 6, 0, 1, 97, 0, 1, 6], blank), (some [], blank)]]

theorem mqttRecv_atMostOnce_receivedTwice : ∃ outs r between r',
    (tryRun Call.step smallClient receivedTwice).map (·.2) = some outs ∧
      eventsIn outs = [] ++ .delivered r :: (between ++ .delivered r' :: []) ∧
      .released 1#16 ∈ between := by
  have hsome : (tryRun Call.step smallClient receivedTwice).isSome = true := by decide +kernel
  obtain ⟨⟨client', outs⟩, hrun⟩ := Option.isSome_iff_exists.1 hsome
  have hes : (tryRun Call.step smallClient receivedTwice).map (fun r => eventsIn r.2) =
      some [.delivered ⟨0, 2, 0, ⟨1, [97, 0, 1, 5]⟩, some 1#16, [5], 1⟩, .released 1#16,
        .delivered ⟨0, 2, 0, ⟨1, [97, 0, 1, 6]⟩, some 1#16, [6], 1⟩] := by decide +kernel
  rw [hrun, Option.map_some] at hes
  have hes := Option.some.inj hes
  change eventsIn outs = [] ++ .delivered _ :: ([.released 1#16] ++ .delivered _ :: []) at hes
  refine ⟨outs, _, [.released 1#16], _, congrArg _ hrun, hes, ?_⟩
  apply mqttRecv_atMostOnce ⟨150, rfl, rfl, rfl⟩ hrun hes
  · rfl
  · rfl
  · rfl
  · rfl

end Once

/-- The order of the messages in the queue. -/
structure Orderly (ms : List Message) : Prop where
  qos2 : ms.Pairwise fun m m' => m.Open → m'.Open → m'.state = .unsent
  own : ms.Pairwise fun m m' => ownType m.control_type → ownType m'.control_type →
    m.packet_id ≠ m'.packet_id
  nonzero : ∀ m ∈ ms, ownType m.control_type → m.packet_id ≠ 0#16
  pubrec : ms.Pairwise fun m m' => m.control_type = .pubrec → m'.control_type = .pubrec →
    m.packet_id ≠ m'.packet_id

section Order
variable {ms ms' : List Message} {es : List Event}

theorem Orderly.sublist (h : Orderly ms) (hsub : ms'.Sublist ms) : Orderly ms' :=
  ⟨h.qos2.sublist hsub, h.own.sublist hsub, fun m hm => h.nonzero m (hsub.mem hm),
    h.pubrec.sublist hsub⟩

theorem pairwise_concat {R : α → α → Prop} {l : List α} (h : l.Pairwise R)
    (ha : ∀ b ∈ l, R b a) : (l ++ [a]).Pairwise R := by
  rw [List.pairwise_append]
  refine ⟨h, List.pairwise_singleton _ _, ?_⟩
  intro b hb a' ha'
  rw [List.mem_singleton.1 ha']
  exact ha b hb

theorem Orderly.concat {m : Message} (h : Orderly ms) (hstate : m.state = .unsent)
    (hown : ownType m.control_type →
      m.packet_id ≠ 0#16 ∧ ∀ m' ∈ ms, m'.packet_id ≠ m.packet_id)
    (hpubrec : m.control_type = .pubrec → ∀ m' ∈ ms, m'.control_type = .pubrec →
      m'.packet_id ≠ m.packet_id) : Orderly (ms ++ [m]) where
  qos2 := pairwise_concat h.qos2 fun _ _ _ _ => hstate
  own := pairwise_concat h.own fun m' hm' _ htype => (hown htype).2 m' hm'
  nonzero := by
    intro m' hm' htype
    rcases List.mem_append.1 hm' with hm' | hm'
    · exact h.nonzero m' hm' htype
    · cases List.mem_singleton.1 hm'
      exact (hown htype).1
  pubrec := pairwise_concat h.pubrec fun m' hm' htype' htype => hpubrec htype m' hm' htype'

/-- A relation between the elements of a list survives a change of one of them that keeps it. -/
theorem pairwise_modify {R : α → α → Prop} {f : α → α} {l : List α} (h : l.Pairwise R)
    (hleft : ∀ a b, l[i]? = some a → R a b → R (f a) b)
    (hright : ∀ a b j, j < i → l[j]? = some a → l[i]? = some b → R a b → R a (f b)) :
    (l.modify i f).Pairwise R := by
  induction l generalizing i with
  | nil =>
    rw [List.modify_nil]
    exact .nil
  | cons a l ih =>
    rw [List.pairwise_cons] at h
    cases i with
    | zero =>
      rw [List.modify_zero_cons, List.pairwise_cons]
      exact ⟨fun b hb => hleft a b rfl (h.1 b hb), h.2⟩
    | succ i =>
      rw [List.modify_succ_cons, List.pairwise_cons]
      refine ⟨?_, ih h.2 hleft fun a b j hj => hright a b (j + 1) (Nat.succ_lt_succ hj)⟩
      intro b hb
      obtain ⟨j, hj⟩ := List.mem_iff_getElem?.1 hb
      by_cases hij : i = j
      · cases hij
        rw [List.getElem?_modify_eq] at hj
        obtain ⟨c, hc, rfl⟩ := Option.map_eq_some_iff.1 hj
        exact hright a c 0 (Nat.succ_pos i) rfl hc (h.1 c (List.mem_of_getElem? hc))
      · rw [List.getElem?_modify_ne _ _ hij] at hj
        exact h.1 b (List.mem_of_getElem? hj)

/-- A change of a message that keeps its type and its identifier. -/
theorem Orderly.modify {f : Message → Message} (h : Orderly ms)
    (htype : ∀ m, (f m).control_type = m.control_type)
    (hid : ∀ m, (f m).packet_id = m.packet_id)
    (hopen : ∀ m, ms[i]? = some m → (f m).Open → m.Open)
    (hstate : ∀ m, ms[i]? = some m → (f m).Open → (∃ j < i, ∃ m', ms[j]? = some m' ∧ m'.Open) →
      (f m).state = m.state) : Orderly (ms.modify i f) where
  qos2 := by
    apply pairwise_modify h.qos2
    · intro a b ha hab hopen' hb
      exact hab (hopen a ha hopen') hb
    · intro a b j hj ha hb hab hopena hopenb
      rw [hstate b hb hopenb ⟨j, hj, a, ha, hopena⟩]
      exact hab hopena (hopen b hb hopenb)
  own := by
    apply pairwise_modify h.own
    · intro a b _ hab
      rwa [htype, hid]
    · intro a b j _ _ _ hab
      rwa [htype, hid]
  nonzero := by
    intro m hm hown
    rcases of_mem_modify hm with hmem | ⟨m₀, hget, rfl⟩
    · exact h.nonzero m hmem hown
    · rw [hid]
      rw [htype] at hown
      exact h.nonzero m₀ (List.mem_of_getElem? hget) hown
  pubrec := by
    apply pairwise_modify h.pubrec
    · intro a b _ hab
      rwa [htype, hid]
    · intro a b j _ _ _ hab
      rwa [htype, hid]

theorem Orderly.completed (h : Orderly ms) (i : Nat) :
    Orderly (ms.modify i Message.completed) := by
  apply h.modify
  · exact fun _ => rfl
  · exact fun _ => rfl
  · intro m _ hopen
    exact absurd rfl hopen.2.1
  · intro m _ hopen
    exact absurd rfl hopen.2.1

theorem Change.orderly (h : Change ms es ms') (ho : Orderly ms) : Orderly ms' := by
  cases h with
  | clean => exact ho.sublist (List.dropWhile_sublist _)
  | register hnew htype hown => exact ho.concat hnew.state hown fun h => absurd h htype
  | deliver => exact ho
  | receive hnew htype _ _ hfirst =>
    apply ho.concat hnew.state
    · rw [htype]
      intro hown
      exact absurd hown (by decide)
    · exact fun _ => hfirst
  | release => exact ho.completed _
  | letGo => exact ho.completed _
  | sent hm hopen _ hfirst =>
    apply ho.modify
    · exact fun _ => rfl
    · exact fun _ => rfl
    · intro m hm' ho'
      cases hm.symm.trans hm'
      exact ⟨ho'.1, hopen, (qos_sentAs _ _ _).symm.trans ho'.2.2⟩
    · rintro m hm' ho' ⟨j, hj, m', hget, hopen'⟩
      cases hm.symm.trans hm'
      have hqos := (qos_sentAs _ _ _).symm.trans ho'.2.2
      exact absurd hopen' (hfirst ⟨ho'.1, hopen, hqos⟩ j hj m' hget)
  | touched =>
    apply ho.modify
    · exact fun _ => rfl
    · exact fun _ => rfl
    · intro m _ ho'
      exact ho'
    · intro m _ _ _
      rfl

theorem orderly_nil : Orderly [] :=
  ⟨.nil, .nil, List.forall_mem_nil _, .nil⟩

/-- In every run the identifiers of the requests in the queue are not zero and differ, no two
answers to received messages have the same one, and of the messages of the highest level of service
that are not complete only the first was sent. -/
theorem mqttSend_inFlight {client client' : Client} (hinit : client.Initial)
    (hrun : tryRun Call.step client calls = some (client', outs)) :
    ∃ n ms, client'.mq = .of n ms ∧ Orderly ms := by
  obtain ⟨n, ms, hran⟩ := hinit.ran hrun
  exact ⟨n, ms, hran.mq, hran.effects.invariant (fun _ _ _ => Change.orderly) orderly_nil⟩

/-- Two messages of the highest level, of which one goes out. -/
def publishedTwice : List Call :=
  [.connect ⟨some [99], none, none, none, none, 2, 400⟩ blank, .send promptly blank,
    .publish ⟨[97], [5], 4⟩ blank, .publish ⟨[97], [6], 4⟩ blank, .send promptly blank]

theorem publishedTwice_runs : ∃ r,
    tryRun Call.step { smallClient with mq := mqttMqInit 400 } publishedTwice = some r := by
  apply Option.isSome_iff_exists.1
  decide +kernel

theorem mqttSend_inFlight_publishedTwice : ∃ client' n ms,
    (tryRun Call.step { smallClient with mq := mqttMqInit 400 } publishedTwice).map (·.1) =
        some client' ∧ client'.mq = .of n ms ∧ Orderly ms := by
  obtain ⟨⟨client', outs⟩, hrun⟩ := publishedTwice_runs
  obtain ⟨n, ms, hmq, horderly⟩ := mqttSend_inFlight ⟨400, rfl, rfl, rfl⟩ hrun
  exact ⟨client', n, ms, congrArg _ hrun, hmq, horderly⟩

theorem mqttMqFind_ordered {n i : Nat} {m : Message} (ho : Orderly ms) (hm : ms[i]? = some m)
    (htype : ownType m.control_type ∨ m.control_type = .pubrec) :
    mqttMqFind (.of n ms) m.control_type (some m.packet_id) = some i := by
  obtain ⟨hi, rfl⟩ := List.getElem?_eq_some_iff.1 hm
  rw [mqttMqFind_of, List.findIdx?_eq_some_iff_getElem]
  refine ⟨hi, (sought_some _ _ _ _ _).2 ⟨rfl, rfl⟩, ?_⟩
  intro j hj hsought
  obtain ⟨hsame, hid⟩ := (sought_some _ _ _ _ _).1 hsought
  rcases htype with hown | hpubrec
  · have hown' := hown
    rw [← hsame] at hown'
    exact List.pairwise_iff_getElem.1 ho.own j i (Nat.lt_trans hj hi) hi hj hown' hown hid.symm
  · exact List.pairwise_iff_getElem.1 ho.pubrec j i (Nat.lt_trans hj hi) hi hj
      (hsame.trans hpubrec) hpubrec hid.symm

/-- An acknowledgement completes the message that it is about and no other. -/
def Acknowledges (client : Client) : Prop :=
  ∃ n ms, client.mq = .of n ms ∧ ∀ i m, ms[i]? = some m →
    ownType m.control_type ∨ m.control_type = .pubrec →
    client.release m.control_type (some m.packet_id) =
      ({ client with mq := .of n (ms.modify i Message.completed) }, none)

theorem mqttRecv_acknowledges {client client' : Client} (hinit : client.Initial)
    (hrun : tryRun Call.step client calls = some (client', outs)) : Acknowledges client' := by
  obtain ⟨n, ms, hran⟩ := hinit.ran hrun
  have horderly := hran.effects.invariant (fun _ _ _ => Change.orderly) orderly_nil
  refine ⟨n, ms, hran.mq, ?_⟩
  intro i m hm htype
  have hfind := mqttMqFind_ordered (n := n) horderly hm htype
  rw [Client.release, hran.mq, hfind]
  exact congrArg (fun mq => ({ client' with mq }, none))
    (MessageQueue.setState_of n ms i .complete)

theorem mqttRecv_acknowledges_publishedTwice : ∃ client',
    (tryRun Call.step { smallClient with mq := mqttMqInit 400 } publishedTwice).map (·.1) =
      some client' ∧ Acknowledges client' := by
  obtain ⟨⟨client', outs⟩, hrun⟩ := publishedTwice_runs
  exact ⟨client', congrArg _ hrun, mqttRecv_acknowledges ⟨400, rfl, rfl, rfl⟩ hrun⟩

end Order

section Wire

theorem or_or (b c : UInt8) : (b ||| c) ||| c = b ||| c := by
  rw [UInt8.or_assoc, UInt8.or_self]

/-- The bytes are a packet that the client packs, or such a packet that publishes on the middle
level and has been sent before. -/
inductive Sent : List UInt8 → Prop where
  | packed (h : Packs control_type packet_id bytes) : Sent bytes
  | again (h : mqttPackPublishRequest bufsz args packet_id = .ok bytes)
    (hqos : (bytes[0]?).map firstByteQos = some 1) :
    Sent (bytes.modify 1 (· ||| mqttPublishDup))

/-- Where the bytes of a message come from. -/
def Made (m : Message) : Prop :=
  Packs m.control_type m.packet_id m.bytes ∨ ∃ bufsz args bytes,
    m.control_type = .publish ∧ mqttPackPublishRequest bufsz args m.packet_id = .ok bytes ∧
      (bytes[0]?).map firstByteQos = some 1 ∧ m.bytes = bytes.modify 1 (· ||| mqttPublishDup)

theorem Made.sent {m : Message} (h : Made m) : Sent m.bytes := by
  rcases h with h | ⟨bufsz, args, bytes, _, hpack, hqos, hbytes⟩
  · exact .packed h
  · rw [hbytes]
    exact .again hpack hqos

theorem Packs.publish_args (h : Packs .publish packet_id bytes) :
    ∃ bufsz args, mqttPackPublishRequest bufsz args packet_id = .ok bytes := by
  cases h with
  | publish h => exact ⟨_, _, h⟩
  | pubxxx h htype => exact absurd rfl htype

theorem Made.sentAs {m : Message} (h : Made m) (state : MessageState) (time_sent : Int) :
    Made (m.sentAs state time_sent) := by
  by_cases hdup : m.control_type = .publish ∧ m.qos = 1
  · have hbytes : (m.sentAs state time_sent).bytes = m.bytes.modify 1 (· ||| mqttPublishDup) := by
      rw [Message.sentAs, if_pos hdup]
    have hmid : (m.sentAs state time_sent).packet_id = m.packet_id := rfl
    rcases h with h | ⟨bufsz, args, bytes, htype, hpack, hqos, hm⟩
    · rw [hdup.1] at h
      obtain ⟨bufsz, args, hpack⟩ := h.publish_args
      refine .inr ⟨bufsz, args, m.bytes, hdup.1, hpack, ?_, hbytes⟩
      have hlevel := hdup.2
      rw [Message.qos, if_pos hdup.1] at hlevel
      cases hfirst : m.bytes[0]? with
      | none =>
        rw [hfirst] at hlevel
        exact absurd hlevel (by decide)
      | some b =>
        rw [hfirst] at hlevel
        exact congrArg some hlevel
    · refine .inr ⟨bufsz, args, bytes, htype, hpack, hqos, ?_⟩
      rw [hbytes, hm, List.modify_modify_eq]
      congr 1
      funext b
      exact or_or b _
  · have hbytes : (m.sentAs state time_sent).bytes = m.bytes := by
      rw [Message.sentAs, if_neg hdup]
    rw [Made, hbytes]
    exact h

theorem Change.made (h : Change ms es ms') (hmade : ∀ m ∈ ms, Made m) : ∀ m ∈ ms', Made m := by
  apply h.all hmade
  · exact fun _ hnew => .inl hnew.packs
  · exact fun _ hm => hm
  · exact fun _ state time_sent hm => hm.sentAs state time_sent
  · exact fun _ _ hm => hm

theorem or_dup_last : ∀ n < 128, UInt8.ofNat n ||| mqttPublishDup = UInt8.ofNat (n ||| 8) := by
  decide

theorem or_dup_more : ∀ n < 128,
    UInt8.ofNat (n + 128) ||| mqttPublishDup = UInt8.ofNat ((n ||| 8) + 128) := by decide

theorem or_eight_low (n : Nat) : (n ||| 8) % 128 = n % 128 ||| 8 := by
  rw [show 128 = 2 ^ 7 from rfl, Nat.or_mod_two_pow]

theorem or_eight_high (n : Nat) : (n ||| 8) / 128 = n / 128 := by
  rw [show 128 = 2 ^ 7 from rfl, ← Nat.shiftRight_eq_div_pow, ← Nat.shiftRight_eq_div_pow,
    Nat.shiftRight_or_distrib]
  exact Nat.or_zero _

/-- The flag in the first byte of a length is a part of the length. -/
theorem varint_or_dup (n : Nat) :
    (varint n).modify 0 (· ||| mqttPublishDup) = varint (n ||| 8) := by
  have hlow := or_eight_low n
  have hhigh := or_eight_high n
  by_cases hn : n < 128
  · rw [Nat.mod_eq_of_lt hn] at hlow
    have hsmall : n ||| 8 < 128 := hlow ▸ Nat.mod_lt _ (by decide)
    rw [varint_of_lt hn, varint_of_lt hsmall, List.modify_zero_cons, or_dup_last n hn]
  · have hn := Nat.not_lt.1 hn
    rw [varint_of_le hn, varint_of_le (Nat.le_trans hn Nat.left_le_or), List.modify_zero_cons,
      or_dup_more _ (Nat.mod_lt n (by decide)), hlow, hhigh]

theorem FixedHeader.bytes_or_dup (h : FixedHeader) (body : List UInt8) :
    (h.bytes ++ body).modify 1 (· ||| mqttPublishDup) =
      { h with remaining_length := h.remaining_length ||| 8 }.bytes ++ body := by
  have hpos := List.length_pos_iff.2 (varint_ne_nil h.remaining_length)
  have hlt : 1 < h.bytes.length := by
    rw [h.length_bytes]
    exact Nat.succ_lt_succ hpos
  rw [modify_append_of_lt hlt, FixedHeader.bytes, FixedHeader.bytes, List.modify_succ_cons,
    varint_or_dup]

theorem or_eight_eq_iff (n : Nat) : n ||| 8 = n ↔ n.testBit 3 := by
  constructor
  · intro h
    rw [← h, Nat.testBit_or]
    exact Bool.or_true _
  · intro h
    apply Nat.eq_of_testBit_eq
    intro i
    rw [Nat.testBit_or]
    by_cases hi : i = 3
    · rw [hi, h]
      rfl
    · rw [show 8 = 2 ^ 3 from rfl, Nat.testBit_two_pow_of_ne (Ne.symm hi), Bool.or_false]

/-- The flag of a duplicate goes into the length: a message that is sent again says nothing of being
a duplicate, and the length it has is its own if that has the bit of the flag, and else eight
more, which are taken from what follows. -/
theorem mqttPublish_resent (hpack : mqttPackPublishRequest bufsz args packet_id = .ok bytes)
    (hne : bytes ≠ []) (next : List UInt8) :
    mqttUnpackFixedHeader (bytes.modify 1 (· ||| mqttPublishDup) ++ next) =
        .ok (if args.header.remaining_length ||| 8 ≤ (args.body packet_id ++ next).length then
          some ({ args.header with remaining_length := args.header.remaining_length ||| 8 },
            args.body packet_id ++ next)
        else
          none) ∧
      (bytes.modify 1 (· ||| mqttPublishDup) = bytes ↔ args.header.remaining_length.testBit 3) := by
  obtain ⟨hvalid, _, rfl⟩ := mqttPackPublishRequest_ok hpack hne
  have hlarge : args.header.remaining_length < 2 ^ 16 := Nat.mod_lt _ (by decide)
  have hvalid' : FixedHeader.Valid
      { args.header with remaining_length := args.header.remaining_length ||| 8 } :=
    ⟨hvalid.rules, Nat.lt_trans (Nat.or_lt_two_pow hlarge (by decide)) (by decide)⟩
  rw [FixedHeader.bytes_or_dup]
  constructor
  · rw [List.append_assoc]
    exact mqttUnpackFixedHeader_append hvalid' _
  · rw [← or_eight_eq_iff, List.append_left_inj]
    constructor
    · intro heq
      have hgroups := congrArg groups (List.cons.inj heq).2
      rwa [groups_varint, groups_varint] at hgroups
    · intro heq
      rw [heq]

theorem mqttPublish_resent_message :
    mqttUnpackFixedHeader (List.modify ([0x3B, 16, 0, 3, 97, 47, 98, 0, 7] ++ List.replicate 9 120)
      1 (· ||| mqttPublishDup) ++ [0xC0, 0]) = .ok none := by
  have hresent := mqttPublish_resent
    (show mqttPackPublishRequest 64 ⟨[97, 47, 98], List.replicate 9 120, 0x0B⟩ 7 =
      .ok ([0x3B, 16, 0, 3, 97, 47, 98, 0, 7] ++ List.replicate 9 120) by decide +kernel)
    (List.cons_ne_nil _ _) [0xC0, 0]
  rw [hresent.1]
  exact congrArg Except.ok (if_neg (by decide))

end Wire

end BigBox.Mqtt
