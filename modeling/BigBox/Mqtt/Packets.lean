import BigBox.Mqtt.FixedHeader

namespace BigBox.Mqtt
set_option autoImplicit true

/-- A number in network byte order. -/
def htons (n : BitVec 16) : List UInt8 :=
  [UInt8.ofBitVec (n.extractLsb' 8 8), UInt8.ofBitVec (n.extractLsb' 0 8)]

def ntohs (a b : UInt8) : BitVec 16 := a.toBitVec ++ b.toBitVec

/-- A string as the protocol has it. A C string is given by its characters. -/
def mqttPackStr (str : List UInt8) : List UInt8 :=
  htons (BitVec.ofNat 16 str.length) ++ str.take (str.length % 2 ^ 16)

def mqttPackedCstrlen (str : List UInt8) : Nat := 2 + str.length

/-- Packs a fixed header and, when the buffer has room for what the header says, a body. -/
def packBehind (bufsz : Nat) (h : FixedHeader) (body : List UInt8) :
    Except Error (List UInt8) := do
  match ← mqttPackFixedHeader bufsz h with
  | [] => return []
  | b :: bytes =>
    if bufsz - (b :: bytes).length < h.remaining_length then
      return []
    else
      return b :: bytes ++ body

theorem packBehind_iff {h : FixedHeader} {bytes : List UInt8} (bufsz : Nat) (body : List UInt8)
    (hbytes : bytes ≠ []) :
    packBehind bufsz h body = .ok bytes ↔
      h.Valid ∧ h.bytes.length + h.remaining_length ≤ bufsz ∧ bytes = h.bytes ++ body := by
  rw [packBehind]
  cases hpack : mqttPackFixedHeader bufsz h with
  | error e =>
    apply iff_of_false
    · intro hbehind
      cases hbehind
    · rintro ⟨hvalid, hfit, _⟩
      cases hpack.symm.trans
        ((mqttPackFixedHeader_iff bufsz (List.cons_ne_nil _ _)).2 ⟨hvalid, hfit, rfl⟩)
  | ok packed =>
    cases packed with
    | nil =>
      apply iff_of_false
      · intro hbehind
        cases hbehind
        exact hbytes rfl
      · rintro ⟨hvalid, hfit, _⟩
        cases hpack.symm.trans
          ((mqttPackFixedHeader_iff bufsz (List.cons_ne_nil _ _)).2 ⟨hvalid, hfit, rfl⟩)
    | cons b packed =>
      obtain ⟨hvalid, hfit, heq⟩ := (mqttPackFixedHeader_iff bufsz (List.cons_ne_nil _ _)).1 hpack
      change (if bufsz - (b :: packed).length < h.remaining_length then _
        else Except.ok (b :: packed ++ body)) = _ ↔ _
      rw [if_neg (by rw [heq]; omega), heq]
      constructor
      · intro hbehind
        cases hbehind
        exact ⟨hvalid, hfit, rfl⟩
      · rintro ⟨_, _, rfl⟩
        rfl

def mqttConnectReserved : UInt8 := 1
def mqttConnectCleanSession : UInt8 := 2
def mqttConnectWillFlag : UInt8 := 4
def mqttConnectWillRetain : UInt8 := 32
def mqttConnectPassword : UInt8 := 64
def mqttConnectUserName : UInt8 := 128

def mqttProtocolLevel : UInt8 := 4

/-- The arguments of a connection request. A pointer that is null is `none`. -/
structure ConnectArgs where
  client_id : Option (List UInt8)
  will_topic : Option (List UInt8)
  will_message : Option (List UInt8)
  user_name : Option (List UInt8)
  password : Option (List UInt8)
  connect_flags : UInt8
  keep_alive : BitVec 16

/-- The flags with the bits of the strings that are there. -/
def ConnectArgs.flags (args : ConnectArgs) : UInt8 :=
  let flags := args.connect_flags &&& ~~~mqttConnectReserved
  let flags := if args.will_topic.isSome then
    flags ||| mqttConnectWillFlag
  else
    ((flags &&& ~~~mqttConnectWillFlag) &&& ~~~0x18) &&& ~~~mqttConnectWillRetain
  let flags := if args.user_name.isSome then
    flags ||| mqttConnectUserName
  else
    flags &&& ~~~mqttConnectUserName
  if args.password.isSome then
    flags ||| mqttConnectPassword
  else
    flags &&& ~~~mqttConnectPassword

def packedLength (str : Option (List UInt8)) : Nat := str.elim 0 mqttPackedCstrlen

/-- The remaining length of a connection request, which counts two bytes in front of the will
message. -/
def ConnectArgs.remainingLength (args : ConnectArgs) : Nat :=
  (10 + packedLength args.client_id + packedLength args.will_topic +
    (if args.will_topic.isSome then 2 + (args.will_message.getD []).length else 0) +
    packedLength args.user_name + packedLength args.password) % 2 ^ 32

/-- The variable header and the payload of a connection request. -/
def ConnectArgs.body (args : ConnectArgs) : List UInt8 :=
  [0x00, 0x04, 77, 81, 84, 84, mqttProtocolLevel, args.flags] ++ htons args.keep_alive ++
    mqttPackStr (args.client_id.getD []) ++
    (if args.flags &&& mqttConnectWillFlag ≠ 0 then
      mqttPackStr (args.will_topic.getD []) ++ args.will_message.getD [] else []) ++
    (if args.flags &&& mqttConnectUserName ≠ 0 then
      mqttPackStr (args.user_name.getD []) else []) ++
    if args.flags &&& mqttConnectPassword ≠ 0 then mqttPackStr (args.password.getD []) else []

def mqttPackConnectionRequest (bufsz : Nat) (args : ConnectArgs) : Except Error (List UInt8) :=
  if args.client_id.isNone then
    .error .connectNullClientId
  else if args.will_topic.isSome && args.will_message.isNone then
    .error .connectNullWillMessage
  else if args.will_topic.isSome && (args.connect_flags &&& 0x18 = 0x18) then
    .error .connectForbiddenWillQos
  else
    packBehind bufsz ⟨.connect, 0x00, args.remainingLength⟩ args.body

def mqttPackDisconnect (bufsz : Nat) : Except Error (List UInt8) :=
  mqttPackFixedHeader bufsz ⟨.disconnect, 0, 0⟩

def mqttPackPingRequest (bufsz : Nat) : Except Error (List UInt8) :=
  mqttPackFixedHeader bufsz ⟨.pingreq, 0, 0⟩

def mqttPublishDup : UInt8 := 8
def mqttPublishRetain : UInt8 := 1

def inspectedQos (flags : UInt8) : UInt8 := (flags &&& 0x06) >>> 1

structure PublishArgs where
  topic_name : List UInt8
  application_message : List UInt8
  publish_flags : UInt8

/-- The remaining length of a publish request, which is kept in 16 bits. -/
def PublishArgs.remainingLength (args : PublishArgs) : Nat :=
  (mqttPackedCstrlen args.topic_name + (if inspectedQos args.publish_flags > 0 then 2 else 0) +
    args.application_message.length) % 2 ^ 16

/-- The flags of a publish request. -/
def PublishArgs.flags (args : PublishArgs) : UInt8 :=
  if inspectedQos args.publish_flags = 0 then
    args.publish_flags &&& ~~~mqttPublishDup
  else
    args.publish_flags

def PublishArgs.body (args : PublishArgs) (packet_id : BitVec 16) : List UInt8 :=
  mqttPackStr args.topic_name ++
    (if inspectedQos args.publish_flags > 0 then htons packet_id else []) ++
    args.application_message

def mqttPackPublishRequest (bufsz : Nat) (args : PublishArgs) (packet_id : BitVec 16) :
    Except Error (List UInt8) :=
  if inspectedQos args.publish_flags = 3 then
    .error .publishForbiddenQos
  else
    packBehind bufsz ⟨.publish, args.flags.toBitVec.setWidth 4, args.remainingLength⟩
      (args.body packet_id)

def mqttPackPubxxxRequest (bufsz : Nat) (control_type : ControlType) (packet_id : BitVec 16) :
    Except Error (List UInt8) :=
  packBehind bufsz ⟨control_type, if control_type = .pubrel then 0x02 else 0, 2⟩
    (htons packet_id)

def mqttSubscribeRequestMaxNumTopics : Nat := 8

/-- Topics and the levels of service that are asked for, as many as the arguments give. -/
def mqttPackSubscribeRequest (bufsz : Nat) (packet_id : BitVec 16)
    (topics : List (List UInt8 × UInt8)) : Except Error (List UInt8) :=
  if topics.length ≥ mqttSubscribeRequestMaxNumTopics then
    .error .subscribeTooManyTopics
  else
    packBehind bufsz
      ⟨.subscribe, 2, (2 + (topics.map fun t => mqttPackedCstrlen t.1 + 1).sum) % 2 ^ 32⟩
      (htons packet_id ++ topics.flatMap fun t => mqttPackStr t.1 ++ [t.2])

def mqttUnsubscribeRequestMaxNumTopics : Nat := 8

def mqttPackUnsubscribeRequest (bufsz : Nat) (packet_id : BitVec 16)
    (topics : List (List UInt8)) : Except Error (List UInt8) :=
  if topics.length ≥ mqttUnsubscribeRequestMaxNumTopics then
    .error .unsubscribeTooManyTopics
  else
    packBehind bufsz ⟨.unsubscribe, 2, (2 + (topics.map mqttPackedCstrlen).sum) % 2 ^ 32⟩
      (htons packet_id ++ topics.flatMap mqttPackStr)

end BigBox.Mqtt
