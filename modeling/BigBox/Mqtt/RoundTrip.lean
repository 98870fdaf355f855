import BigBox.Mqtt.Response

namespace BigBox.Mqtt
set_option autoImplicit true

section Fields

theorem ntohs_htons (n : BitVec 16) :
    ntohs (UInt8.ofBitVec (n.extractLsb' 8 8)) (UInt8.ofBitVec (n.extractLsb' 0 8)) = n := by
  rw [ntohs, UInt8.toBitVec_ofBitVec, UInt8.toBitVec_ofBitVec,
    BitVec.extractLsb'_append_extractLsb'_eq_extractLsb' (by decide)]
  exact BitVec.extractLsb'_eq_self

theorem readShort_htons (n : BitVec 16) (rest : List UInt8) :
    readShort (htons n ++ rest) = some (n, rest) :=
  congrArg (fun n => some (n, rest)) (ntohs_htons n)

theorem length_mqttPackStr (str : List UInt8) :
    (mqttPackStr str).length = 2 + str.length % 2 ^ 16 := by
  rw [mqttPackStr, List.length_append, List.length_take,
    Nat.min_eq_left (Nat.mod_le str.length _)]
  rfl

/-- A string comes back when its length does. -/
theorem readString_mqttPackStr {str : List UInt8} (h : str.length < 2 ^ 16) (rest : List UInt8) :
    readString (mqttPackStr str ++ rest) = some (⟨str.length, str ++ rest⟩, rest) := by
  have hlen : (BitVec.ofNat 16 str.length).toNat = str.length := by
    rw [BitVec.toNat_ofNat]
    exact Nat.mod_eq_of_lt h
  rw [readString, mqttPackStr, Nat.mod_eq_of_lt h, List.take_length, List.append_assoc,
    readShort_htons, Option.map_some, hlen, List.drop_left]

theorem chars_append (str rest : List UInt8) : CString.chars ⟨str.length, str ++ rest⟩ = str :=
  List.take_left

/-- What is unpacked from a whole packet. -/
theorem mqttUnpackResponse_bytes {h : FixedHeader} (hvalid : h.Valid) {rest : List UInt8}
    (hrest : h.remaining_length ≤ rest.length) :
    mqttUnpackResponse (h.bytes ++ rest) = (unpackBody h h.bytes.length rest).map fun r =>
      r.map fun r => some (h, h.bytes.length + r.1, r.2) := by
  rw [mqttUnpackResponse, mqttUnpackFixedHeader_append hvalid, if_pos hrest]
  change (unpackBody h ((h.bytes ++ rest).length - rest.length) rest).map _ = _
  rw [List.length_append, Nat.add_sub_cancel]

end Fields

/-- The number of bytes behind the fixed header of a publish request. -/
def PublishArgs.size (args : PublishArgs) : Nat :=
  mqttPackedCstrlen args.topic_name + (if inspectedQos args.publish_flags > 0 then 2 else 0) +
    args.application_message.length

/-- The flag of a duplicate, which is clear at the lowest level of service. -/
def PublishArgs.dup (args : PublishArgs) : UInt8 :=
  if inspectedQos args.publish_flags = 0 then 0 else (args.publish_flags &&& mqttPublishDup) >>> 3

/-- What a response has to say about a publish request. -/
structure PublishResponse.Carries (r : PublishResponse) (args : PublishArgs)
    (packet_id : BitVec 16) : Prop where
  topic_name : r.topic_name.chars = args.topic_name
  packet_id : inspectedQos args.publish_flags > 0 → r.packet_id = some packet_id
  application_message :
    r.application_message.take r.application_message_size = args.application_message
  qos_level : r.qos_level = inspectedQos args.publish_flags
  retain_flag : r.retain_flag = args.publish_flags &&& mqttPublishRetain
  dup_flag : r.dup_flag = args.dup

/-- The flags of a publish request in a fixed header. -/
def PublishArgs.headerFlags (args : PublishArgs) : BitVec 4 := args.flags.toBitVec.setWidth 4

def PublishArgs.header (args : PublishArgs) : FixedHeader :=
  ⟨.publish, args.headerFlags, args.remainingLength⟩

section Publish
variable {args : PublishArgs} {packet_id : BitVec 16} {bytes : List UInt8}

/-- The lower half of a byte as a header gives it back. -/
theorem header_flags_lower (f : UInt8) :
    UInt8.ofBitVec ((f.toBitVec.setWidth 4).setWidth 8) = f &&& 0x0F := by
  apply UInt8.toBitVec_inj.1
  obtain ⟨f⟩ := f
  revert f
  decide +kernel

theorem lower_fields (f : UInt8) : inspectedQos (f &&& 0x0F) = inspectedQos f ∧
    (f &&& 0x0F) &&& mqttPublishRetain = f &&& mqttPublishRetain ∧
    (f &&& 0x0F) &&& mqttPublishDup = f &&& mqttPublishDup := by
  obtain ⟨f⟩ := f
  revert f
  decide +kernel

theorem clear_dup_fields (f : UInt8) : inspectedQos (f &&& ~~~mqttPublishDup) = inspectedQos f ∧
    (f &&& ~~~mqttPublishDup) &&& mqttPublishRetain = f &&& mqttPublishRetain ∧
    (f &&& ~~~mqttPublishDup) &&& mqttPublishDup = 0 := by
  obtain ⟨f⟩ := f
  revert f
  decide +kernel

/-- The flags of a request that a header gives back. -/
theorem PublishArgs.headerFlags_fields (args : PublishArgs) :
    let flags := UInt8.ofBitVec (args.headerFlags.setWidth 8)
    inspectedQos flags = inspectedQos args.publish_flags ∧
      flags &&& mqttPublishRetain = args.publish_flags &&& mqttPublishRetain ∧
      (flags &&& mqttPublishDup) >>> 3 = args.dup := by
  obtain ⟨hqos, hretain, hdup⟩ := lower_fields args.flags
  rw [PublishArgs.headerFlags, header_flags_lower]
  change inspectedQos (args.flags &&& 0x0F) = _ ∧ (args.flags &&& 0x0F) &&& _ = _ ∧ _
  rw [hqos, hretain, hdup, PublishArgs.flags, PublishArgs.dup]
  split
  case isTrue hzero =>
    obtain ⟨hqos', hretain', hdup'⟩ := clear_dup_fields args.publish_flags
    rw [hqos', hretain', hdup']
    exact ⟨rfl, rfl, rfl⟩
  case isFalse => exact ⟨rfl, rfl, rfl⟩

theorem PublishArgs.length_body (args : PublishArgs) (packet_id : BitVec 16) :
    (args.body packet_id).length = 2 + args.topic_name.length % 2 ^ 16 +
      (if inspectedQos args.publish_flags > 0 then 2 else 0) +
      args.application_message.length := by
  rw [PublishArgs.body, List.length_append, List.length_append, length_mqttPackStr]
  split <;> rfl

/-- What is unpacked behind the header of a request that is not too long. -/
theorem mqttUnpackPublishResponse_body (args : PublishArgs) (packet_id : BitVec 16)
    (next : List UInt8) (hlong : 4 ≤ args.size) (hshort : args.size < 2 ^ 16) :
    ∃ r : PublishResponse, r.Carries args packet_id ∧
      mqttUnpackPublishResponse args.header (args.body packet_id ++ next) =
        some (.ok (args.size, .publish r)) := by
  have hsize : args.size = 2 + args.topic_name.length +
    (if inspectedQos args.publish_flags > 0 then 2 else 0) + args.application_message.length := rfl
  have hlen : args.header.remaining_length = args.size := Nat.mod_eq_of_lt hshort
  have htopic : args.topic_name.length < 2 ^ 16 := by omega
  obtain ⟨hqos, hretain, hdup⟩ := args.headerFlags_fields
  have hflags : args.header.control_flags = args.headerFlags := rfl
  obtain ⟨packet_id', hid, hpacket_id⟩ : ∃ packet_id', readPacketId
      (inspectedQos args.publish_flags) ((if inspectedQos args.publish_flags > 0 then
        htons packet_id else []) ++ (args.application_message ++ next)) =
        some (packet_id', args.application_message ++ next) ∧
      (inspectedQos args.publish_flags > 0 → packet_id' = some packet_id) := by
    by_cases hpos : inspectedQos args.publish_flags > 0
    · refine ⟨some packet_id, ?_, fun _ => rfl⟩
      rw [readPacketId, if_pos hpos, if_pos hpos, readShort_htons]
      rfl
    · refine ⟨none, ?_, fun h => absurd h hpos⟩
      rw [readPacketId, if_neg hpos, if_neg hpos]
      rfl
  have hpayload : payloadSize args.size (inspectedQos args.publish_flags) args.topic_name.length =
      args.application_message.length := by
    rw [payloadSize]
    by_cases hzero : inspectedQos args.publish_flags = 0
    · rw [if_pos hzero]
      rw [hzero, if_neg (by decide)] at hsize
      omega
    · rw [if_neg hzero]
      rw [if_pos (UInt8.pos_iff_ne_zero.2 hzero)] at hsize
      omega
  let r : PublishResponse :=
    { dup_flag := (UInt8.ofBitVec (args.headerFlags.setWidth 8) &&& mqttPublishDup) >>> 3
      qos_level := inspectedQos args.publish_flags
      retain_flag := UInt8.ofBitVec (args.headerFlags.setWidth 8) &&& mqttPublishRetain
      topic_name := ⟨args.topic_name.length, args.topic_name ++
        ((if inspectedQos args.publish_flags > 0 then htons packet_id else []) ++
          (args.application_message ++ next))⟩
      packet_id := packet_id'
      application_message := args.application_message ++ next
      application_message_size := args.application_message.length }
  refine ⟨r, ⟨chars_append _ _, hpacket_id, List.take_left, rfl, hretain, hdup⟩, ?_⟩
  rw [mqttUnpackPublishResponse, hlen, if_neg (Nat.not_lt.2 hlong), hflags, hqos,
    PublishArgs.body, List.append_assoc, List.append_assoc, readString_mqttPackStr htopic,
    Option.bind_eq_bind, Option.bind_some]
  change (readPacketId _ _).bind _ = _
  rw [hid, Option.bind_some]
  change some (Except.ok (2 + args.topic_name.length + _ +
    payloadSize args.size _ args.topic_name.length, _)) = _
  rw [hpayload, hsize]

theorem readString_string_len {buf rest : List UInt8} (h : readString buf = some (s, rest)) :
    s.string_len < 2 ^ 16 := by
  obtain ⟨r, _, heq⟩ := Option.map_eq_some_iff.1 h
  cases heq
  exact r.1.isLt

theorem mqttUnpackPublishResponse_topic {buf : List UInt8} {r : PublishResponse}
    (h : mqttUnpackPublishResponse header buf = some (.ok (n, .publish r))) :
    4 ≤ header.remaining_length ∧ r.topic_name.string_len < 2 ^ 16 := by
  rw [mqttUnpackPublishResponse] at h
  split at h
  case isTrue => cases h
  case isFalse hlong =>
    obtain ⟨⟨s, rest⟩, hs, h⟩ := Option.bind_eq_some_iff.1 h
    obtain ⟨⟨packet_id, rest'⟩, _, h⟩ := Option.bind_eq_some_iff.1 h
    cases h
    exact ⟨Nat.not_lt.1 hlong, readString_string_len hs⟩

/-- The bytes of a request and what they take of the buffer. -/
theorem mqttPackPublishRequest_ok (hpack : mqttPackPublishRequest bufsz args packet_id = .ok bytes)
    (hne : bytes ≠ []) : args.header.Valid ∧
      args.header.bytes.length + args.header.remaining_length ≤ bufsz ∧
      bytes = args.header.bytes ++ args.body packet_id := by
  rw [mqttPackPublishRequest] at hpack
  split at hpack
  case isTrue => cases hpack
  case isFalse => exact (packBehind_iff bufsz _ hne).1 hpack

/-- The packet is in its buffer, says how long it is and is read as what was published. -/
def PublishRoundTrip (args : PublishArgs) (packet_id : BitVec 16) (bufsz : Nat)
    (bytes next : List UInt8) : Prop :=
  bytes.length ≤ bufsz ∧
    bytes.length = args.header.bytes.length + args.header.remaining_length ∧
    ∃ r : PublishResponse, r.Carries args packet_id ∧
      mqttUnpackResponse (bytes ++ next) =
        some (.ok (some (args.header, bytes.length, .publish r)))

/-- A message comes back from its packet, whatever follows, when its topic and payload fit into the
16 bits of the length, and are not so short that the reader takes the packet for malformed. -/
theorem mqttPublish_roundTrip_iff (args : PublishArgs) (packet_id : BitVec 16) (bufsz : Nat)
    (bytes next : List UInt8)
    (hpack : mqttPackPublishRequest bufsz args packet_id = .ok bytes) (hne : bytes ≠ []) :
    PublishRoundTrip args packet_id bufsz bytes next ↔ 4 ≤ args.size ∧ args.size < 2 ^ 16 := by
  obtain ⟨hvalid, hfit, rfl⟩ := mqttPackPublishRequest_ok hpack hne
  have hrl : args.header.remaining_length = args.size % 2 ^ 16 := rfl
  have hbody := args.length_body packet_id
  have hsize : args.size = 2 + args.topic_name.length +
    (if inspectedQos args.publish_flags > 0 then 2 else 0) + args.application_message.length := rfl
  rw [PublishRoundTrip, List.append_assoc, List.length_append]
  constructor
  · rintro ⟨_, hlen, r, hcarries, hunpack⟩
    rw [mqttUnpackResponse_bytes hvalid (by rw [List.length_append]; omega)] at hunpack
    obtain ⟨u, hu, hunpack⟩ := Option.map_eq_some_iff.1 hunpack
    cases u with
    | error e => cases hunpack
    | ok u =>
      obtain ⟨n, decoded⟩ := u
      simp only [Except.map, Except.ok.injEq, Option.some.injEq, Prod.mk.injEq] at hunpack
      obtain ⟨_, _, rfl⟩ := hunpack
      obtain ⟨hlong, htopic⟩ := mqttUnpackPublishResponse_topic hu
      have hchars : args.topic_name.length < 2 ^ 16 := by
        rw [← hcarries.topic_name]
        exact Nat.lt_of_le_of_lt (List.length_take_le _ _) htopic
      rw [Nat.mod_eq_of_lt hchars] at hbody
      omega
  · rintro ⟨hlong, hshort⟩
    have htopic : args.topic_name.length < 2 ^ 16 := by omega
    rw [Nat.mod_eq_of_lt htopic] at hbody
    rw [Nat.mod_eq_of_lt hshort] at hrl
    obtain ⟨r, hcarries, hunpack⟩ := mqttUnpackPublishResponse_body args packet_id next hlong hshort
    refine ⟨by omega, by omega, r, hcarries, ?_⟩
    rw [mqttUnpackResponse_bytes hvalid (by rw [List.length_append]; omega)]
    change (mqttUnpackPublishResponse args.header _).map _ = _
    rw [hunpack, hbody, ← hsize]
    rfl

/-- A message of nine bytes under the topic `a/b`. -/
theorem mqttPublish_roundTrip_message :
    PublishRoundTrip ⟨[97, 47, 98], List.replicate 9 120, 0x0B⟩ 7 64
      ([0x3B, 16, 0, 3, 97, 47, 98, 0, 7] ++ List.replicate 9 120) [0x30] := by
  apply (mqttPublish_roundTrip_iff ⟨[97, 47, 98], List.replicate 9 120, 0x0B⟩ 7 64 _ [0x30]
    ?_ ?_).2
  · decide
  · decide +kernel
  · decide

end Publish

def ConnectArgs.header (args : ConnectArgs) : FixedHeader := ⟨.connect, 0x00, args.remainingLength⟩

section Connect
variable {args : ConnectArgs} {bytes : List UInt8}

theorem mqttPackConnectionRequest_ok (hpack : mqttPackConnectionRequest bufsz args = .ok bytes)
    (hne : bytes ≠ []) : (∃ c, args.client_id = some c) ∧ args.header.Valid ∧
      args.header.bytes.length + args.header.remaining_length ≤ bufsz ∧
      bytes = args.header.bytes ++ args.body := by
  rw [mqttPackConnectionRequest] at hpack
  split at hpack
  case isTrue => cases hpack
  case isFalse hclient =>
    split at hpack
    case isTrue => cases hpack
    case isFalse =>
      split at hpack
      case isTrue => cases hpack
      case isFalse =>
        refine ⟨?_, (packBehind_iff bufsz _ hne).1 hpack⟩
        cases hc : args.client_id with
        | none =>
          rw [hc] at hclient
          exact absurd rfl hclient
        | some c => exact ⟨c, rfl⟩

end Connect

section Subscribe
variable {topics : List (List UInt8 × UInt8)}

end Subscribe

end BigBox.Mqtt
