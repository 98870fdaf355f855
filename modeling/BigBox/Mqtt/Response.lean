import BigBox.Mqtt.Packets

namespace BigBox.Mqtt
set_option autoImplicit true

/-- A length and a pointer into the buffer, given by what lies behind it. -/
structure CString where
  string_len : Nat
  str : List UInt8
  deriving DecidableEq

def CString.chars (s : CString) : List UInt8 := s.str.take s.string_len

structure ConnectFlags where
  clean_session : UInt8
  will_flag : UInt8
  will_qos : UInt8
  will_retain : UInt8
  password_flag : UInt8
  username_flag : UInt8

/-- The strings of a request to connect. A field that is not set keeps what the memory holds and is
`none`. -/
structure ConnectStrings where
  client_id : CString
  will_topic : Option CString
  will_msg : Option CString
  password : Option CString
  user_name : Option CString

structure ConnectResponse where
  protocol_name : List UInt8
  protocol_level : UInt8
  connect_flag : ConnectFlags
  keep_alive : BitVec 16
  strings : ConnectStrings

structure PublishResponse where
  dup_flag : UInt8
  qos_level : UInt8
  retain_flag : UInt8
  topic_name : CString
  packet_id : Option (BitVec 16)
  application_message : List UInt8
  application_message_size : Nat
  deriving DecidableEq

/-- The topics are pointers without a length. -/
structure SubscribeResponse where
  varhead : BitVec 16
  payloads : List (List UInt8 × UInt8)

/-- The union of what is decoded, by the member that is set. -/
inductive Decoded where
  | connect (response : ConnectResponse)
  | connack (session_present_flag return_code : UInt8)
  | publish (response : PublishResponse)
  | puback (packet_id : BitVec 16)
  | pubrec (packet_id : BitVec 16)
  | pubrel (packet_id : BitVec 16)
  | pubcomp (packet_id : BitVec 16)
  | subscribe (response : SubscribeResponse)
  | suback (packet_id : BitVec 16) (return_codes : CString)
  | unsuback (packet_id : BitVec 16)
  | pingresp

def readByte : List UInt8 → Option (UInt8 × List UInt8)
  | b :: rest => some (b, rest)
  | [] => none

/-- Two bytes in network order. There are none behind the bytes of the buffer. -/
def readShort : List UInt8 → Option (BitVec 16 × List UInt8)
  | a :: b :: rest => some (ntohs a b, rest)
  | _ => none

/-- A string behind its length. Only the length is read. -/
def readString (buf : List UInt8) : Option (CString × List UInt8) :=
  (readShort buf).map fun r => (⟨r.1.toNat, r.2⟩, r.2.drop r.1.toNat)

/-- A string that is there when a flag says so. -/
def readStringIf (flag : UInt8) (buf : List UInt8) : Option (Option CString × List UInt8) :=
  if flag = 1 then (readString buf).map fun r => (some r.1, r.2) else some (none, buf)

def unpackConnectFlags (b : UInt8) : ConnectFlags :=
  { clean_session := (b >>> 1) &&& 0x01
    will_flag := (b >>> 2) &&& 0x01
    will_qos := (b >>> 3) &&& 0x03
    will_retain := (b >>> 5) &&& 0x01
    password_flag := (b >>> 6) &&& 0x01
    username_flag := (b >>> 7) &&& 0x01 }

/-- The password is read in front of the user name. -/
def readConnectStrings (connect_flag : ConnectFlags) (buf : List UInt8) :
    Option ConnectStrings := do
  let (client_id, buf) ← readString buf
  let (will_topic, buf) ← readStringIf connect_flag.will_flag buf
  let (will_msg, buf) ← readStringIf connect_flag.will_flag buf
  let (password, buf) ← readStringIf connect_flag.password_flag buf
  let (user_name, _) ← readStringIf connect_flag.username_flag buf
  return { client_id, will_topic, will_msg, password, user_name }

/-- There is no result when the name of the protocol is longer than its array or a byte behind the
buffer is read. -/
def mqttUnpackConnectResponse (buf : List UInt8) : Option ConnectResponse := do
  let (protocol_len, buf) ← readShort buf
  if 4 < protocol_len.toNat then
    none
  else
    let protocol_name := buf.take protocol_len.toNat
    let (protocol_level, buf) ← readByte (buf.drop protocol_len.toNat)
    let (flags, buf) ← readByte buf
    let connect_flag := unpackConnectFlags flags
    let (keep_alive, buf) ← readShort buf
    let strings ← readConnectStrings connect_flag buf
    return { protocol_name, protocol_level, connect_flag, keep_alive, strings }

def payloadMaxCnt : Nat := 10

/-- The loop over the topics, `pos` of which are read. -/
def unpackTopics (remain : Nat) : (fuel pos cur_len : Nat) → List UInt8 →
    Option (List (List UInt8 × UInt8))
  | 0, _, _, _ => none
  | fuel + 1, pos, cur_len, buf =>
    if cur_len < remain then do
      let (topic, buf) ← readString buf
      let (qos, buf) ← readByte buf
      if payloadMaxCnt ≤ pos then
        none
      else
        let payloads ← unpackTopics remain fuel (pos + 1)
          ((cur_len + 2 + topic.string_len + 1) % 2 ^ 32) buf
        return (topic.str, qos) :: payloads
    else
      some []

def mqttUnpackSubscribeResponse (remaining_length : Nat) (buf : List UInt8) :
    Option SubscribeResponse :=
  (readShort buf).bind fun r =>
    (unpackTopics ((remaining_length + 2 ^ 32 - 2) % 2 ^ 32) (payloadMaxCnt + 1) 0 0 r.2).map
      fun payloads => ⟨r.1, payloads⟩

/-- The result of an unpacker: the number of bytes that it takes, or an error. -/
abbrev Unpacked := Option (Except Error (Nat × Decoded))

def mqttUnpackConnackResponse (remaining_length : Nat) (buf : List UInt8) : Unpacked :=
  if remaining_length ≠ 2 then
    some (.error .malformedResponse)
  else do
    let (session_present_flag, buf) ← readByte buf
    if session_present_flag &&& 0xFE ≠ 0 then
      return .error .connackForbiddenFlags
    else
      let (return_code, _) ← readByte buf
      if return_code > 5 then
        return .error .connackForbiddenCode
      else
        return .ok (2, .connack session_present_flag return_code)

/-- The packet identifier, which only a message of a level above zero has. -/
def readPacketId (qos_level : UInt8) (buf : List UInt8) :
    Option (Option (BitVec 16) × List UInt8) :=
  if qos_level > 0 then (readShort buf).map fun r => (some r.1, r.2) else some (none, buf)

/-- The size of a payload, which wraps around when the topic is longer than the packet. -/
def payloadSize (remaining_length : Nat) (qos_level : UInt8) (topic_name_size : Nat) : Nat :=
  (((remaining_length : Int) - topic_name_size - if qos_level = 0 then 2 else 4) % 2 ^ 32).toNat

def mqttUnpackPublishResponse (h : FixedHeader) (buf : List UInt8) : Unpacked :=
  let flags := UInt8.ofBitVec (h.control_flags.setWidth 8)
  let dup_flag := (flags &&& mqttPublishDup) >>> 3
  let qos_level := inspectedQos flags
  let retain_flag := flags &&& mqttPublishRetain
  if h.remaining_length < 4 then
    some (.error .malformedResponse)
  else do
    let (topic_name, buf) ← readString buf
    let (packet_id, buf) ← readPacketId qos_level buf
    let size := payloadSize h.remaining_length qos_level topic_name.string_len
    return .ok (2 + topic_name.string_len + (if qos_level > 0 then 2 else 0) + size,
      .publish ⟨dup_flag, qos_level, retain_flag, topic_name, packet_id, buf, size⟩)

def mqttUnpackPubxxxResponse (h : FixedHeader) (buf : List UInt8) : Unpacked :=
  if h.remaining_length ≠ 2 then
    some (.error .malformedResponse)
  else do
    let (packet_id, _) ← readShort buf
    return .ok (2,
      if h.control_type = .puback then .puback packet_id
      else if h.control_type = .pubrec then .pubrec packet_id
      else if h.control_type = .pubrel then .pubrel packet_id
      else .pubcomp packet_id)

def mqttUnpackSubackResponse (remaining_length : Nat) (buf : List UInt8) : Unpacked :=
  if remaining_length < 3 then
    some (.error .malformedResponse)
  else do
    let (packet_id, buf) ← readShort buf
    return .ok (remaining_length, .suback packet_id ⟨remaining_length - 2, buf⟩)

def mqttUnpackUnsubackResponse (remaining_length : Nat) (buf : List UInt8) : Unpacked :=
  if remaining_length ≠ 2 then
    some (.error .malformedResponse)
  else do
    let (packet_id, _) ← readShort buf
    return .ok (2, .unsuback packet_id)

/-- What is unpacked behind a fixed header of `rv` bytes. A request to connect or to subscribe takes
`rv` bytes again, whatever its length. -/
def unpackBody (h : FixedHeader) (rv : Nat) (buf : List UInt8) : Unpacked :=
  match h.control_type with
  | .connect => (mqttUnpackConnectResponse buf).map fun r => .ok (rv, .connect r)
  | .connack => mqttUnpackConnackResponse h.remaining_length buf
  | .publish => mqttUnpackPublishResponse h buf
  | .puback => mqttUnpackPubxxxResponse h buf
  | .pubrec => mqttUnpackPubxxxResponse h buf
  | .pubrel => mqttUnpackPubxxxResponse h buf
  | .pubcomp => mqttUnpackPubxxxResponse h buf
  | .subscribe =>
    (mqttUnpackSubscribeResponse h.remaining_length buf).map fun r => .ok (rv, .subscribe r)
  | .suback => mqttUnpackSubackResponse h.remaining_length buf
  | .unsuback => mqttUnpackUnsubackResponse h.remaining_length buf
  | .pingresp => some (.ok (0, .pingresp))
  | _ => some (.error .responseInvalidControlType)

/-- A packet at the front of a buffer, and the number of bytes that it takes; none while bytes are
missing. -/
def mqttUnpackResponse (buf : List UInt8) :
    Option (Except Error (Option (FixedHeader × Nat × Decoded))) :=
  match mqttUnpackFixedHeader buf with
  | .error e => some (.error e)
  | .ok none => some (.ok none)
  | .ok (some (h, rest)) =>
    let rv := buf.length - rest.length
    (unpackBody h rv rest).map fun r => r.map fun r => some (h, rv + r.1, r.2)

end BigBox.Mqtt
