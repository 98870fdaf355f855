import BigBox.Lib.Varint

namespace BigBox.Mqtt
set_option autoImplicit true

/-- The control types by their codes. The first and the last code are reserved. -/
inductive ControlType where
  | reserved | connect | connack | publish | puback | pubrec | pubrel | pubcomp | subscribe | suback
  | unsubscribe | unsuback | pingreq | pingresp | disconnect | forbidden
  deriving DecidableEq

def ControlType.code : ControlType → UInt8
  | reserved => 0
  | connect => 1
  | connack => 2
  | publish => 3
  | puback => 4
  | pubrec => 5
  | pubrel => 6
  | pubcomp => 7
  | subscribe => 8
  | suback => 9
  | unsubscribe => 10
  | unsuback => 11
  | pingreq => 12
  | pingresp => 13
  | disconnect => 14
  | forbidden => 15

def ControlType.ofCode (code : UInt8) : ControlType :=
  match code.toNat with
  | 0 => reserved
  | 1 => connect
  | 2 => connack
  | 3 => publish
  | 4 => puback
  | 5 => pubrec
  | 6 => pubrel
  | 7 => pubcomp
  | 8 => subscribe
  | 9 => suback
  | 10 => unsubscribe
  | 11 => unsuback
  | 12 => pingreq
  | 13 => pingresp
  | 14 => disconnect
  | _ => forbidden

/-- The errors that the modelled functions return. -/
inductive Error where
  | controlForbiddenType | controlInvalidFlags | connectNullClientId | connectNullWillMessage
  | connectForbiddenWillQos | connackForbiddenFlags | connackForbiddenCode | publishForbiddenQos
  | subscribeTooManyTopics | malformedResponse | unsubscribeTooManyTopics
  | responseInvalidControlType | connectNotCalled | sendBufferIsFull | socketError
  | malformedRequest | recvBufferTooSmall | ackOfUnknown | connectionRefused | subscribeFailed
  | initialReconnect | invalidRemainingLength
  deriving DecidableEq

structure FixedHeader where
  control_type : ControlType
  control_flags : BitVec 4
  remaining_length : Nat
  deriving DecidableEq

def controlTypeIsValid : ControlType → Bool
  | .reserved => false
  | .forbidden => false
  | _ => true

/-- The flags that must be set for a control type. -/
def requiredFlags : ControlType → BitVec 4
  | .pubrel => 0x02
  | .subscribe => 0x02
  | .unsubscribe => 0x02
  | _ => 0x00

/-- The flags that a control type leaves no choice. -/
def maskRequiredFlags : ControlType → BitVec 4
  | .reserved => 0x00
  | .publish => 0x00
  | .forbidden => 0x00
  | _ => 0x0F

def mqttFixedHeaderRuleViolation (h : FixedHeader) : Except Error Unit :=
  if !controlTypeIsValid h.control_type then
    .error .controlForbiddenType
  else if (h.control_flags ^^^ requiredFlags h.control_type) &&&
      maskRequiredFlags h.control_type ≠ 0 then
    .error .controlInvalidFlags
  else
    .ok ()

/-- The loop that packs the remaining length. The result has the bytes and the size of the buffer
behind them. -/
def packRemainingLength : Nat → Nat → Option (List UInt8 × Nat)
  | bufsz + 2, remaining_length =>
    let b := UInt8.ofNat (remaining_length &&& 0x7F) |||
      if remaining_length > 127 then 0x80 else 0
    if b &&& 0x80 ≠ 0 then
      (packRemainingLength (bufsz + 1) (remaining_length >>> 7)).map fun r => (b :: r.1, r.2)
    else
      some ([b], bufsz)
  | _, _ => none

def firstByte (control_type : ControlType) (control_flags : BitVec 4) : UInt8 :=
  (control_type.code <<< 4) &&& 0xF0 ||| UInt8.ofBitVec (control_flags.setWidth 8) &&& 0x0F

/-- The bytes that are packed; none when the buffer is too small. -/
def mqttPackFixedHeader (bufsz : Nat) (h : FixedHeader) : Except Error (List UInt8) := do
  mqttFixedHeaderRuleViolation h
  if bufsz = 0 then
    return []
  if h.remaining_length ≥ 256 * 1024 * 1024 then
    throw .invalidRemainingLength
  match packRemainingLength bufsz h.remaining_length with
  | none => return []
  | some (bytes, bufsz') =>
    if bufsz' < h.remaining_length then
      return []
    else
      return firstByte h.control_type h.control_flags :: bytes

/-- The loop that reads the remaining length. The result has the bytes behind it; there is none
while bytes are missing. -/
def unpackRemainingLength (lshift remaining_length : Nat) :
    List UInt8 → Except Error (Option (Nat × List UInt8))
  | [] => if lshift = 28 then .error .invalidRemainingLength else .ok none
  | b :: rest =>
    if lshift = 28 then
      .error .invalidRemainingLength
    else
      let remaining_length := (remaining_length + (b &&& 0x7F).toNat <<< lshift) % 2 ^ 32
      if b &&& 0x80 ≠ 0 then
        unpackRemainingLength (lshift + 7) remaining_length rest
      else
        .ok (some (remaining_length, rest))

/-- The fixed header and the bytes behind it, of which there are as many as it says. -/
def mqttUnpackFixedHeader : List UInt8 → Except Error (Option (FixedHeader × List UInt8))
  | [] => .ok none
  | b :: rest => do
    match ← unpackRemainingLength 0 0 rest with
    | none => return none
    | some (remaining_length, rest) =>
      let h : FixedHeader :=
        ⟨.ofCode (b >>> 4), (b &&& 0x0F).toBitVec.setWidth 4, remaining_length⟩
      mqttFixedHeaderRuleViolation h
      if rest.length < remaining_length then return none else return some (h, rest)

section Bytes

theorem or_more : ∀ m < 128, UInt8.ofNat m ||| 0x80 = UInt8.ofNat (m + 128) := by decide

theorem last_and : ∀ n < 128, UInt8.ofNat n &&& 0x80 = 0 ∧ (UInt8.ofNat n &&& 0x7F).toNat = n := by
  decide

theorem more_and : ∀ m < 128, UInt8.ofNat (m + 128) &&& 0x80 ≠ 0 ∧
    (UInt8.ofNat (m + 128) &&& 0x7F).toNat = m := by decide

theorem and_low (b : UInt8) : (b &&& 0x7F).toNat = b.toNat % 128 := by
  rw [UInt8.toNat_and]
  exact Nat.and_two_pow_sub_one_eq_mod b.toNat 7

/-- A control type and its flags come back from the first byte. -/
theorem firstByte_fields (control_type : ControlType) (control_flags : BitVec 4) :
    ControlType.ofCode (firstByte control_type control_flags >>> 4) = control_type ∧
      (firstByte control_type control_flags &&& 0x0F).toBitVec.setWidth 4 = control_flags := by
  revert control_flags
  cases control_type <;> decide

end Bytes

theorem packRemainingLength_eq (bufsz n : Nat) : packRemainingLength bufsz n =
    if (varint n).length < bufsz then some (varint n, bufsz - (varint n).length - 1) else none := by
  have hlow : n &&& 0x7F = n % 128 := Nat.and_two_pow_sub_one_eq_mod n 7
  induction n using varint.induct generalizing bufsz with
  | case1 n hn =>
    obtain ⟨hand, _⟩ := last_and n hn
    rw [varint_of_lt hn]
    rcases bufsz with _ | _ | bufsz
    · rfl
    · rfl
    · rw [packRemainingLength, hlow, Nat.mod_eq_of_lt hn, if_neg (Nat.not_lt.2 (by omega)),
        UInt8.or_zero, if_neg (not_not_intro hand)]
      exact (if_pos (Nat.le_add_left 2 bufsz)).symm
  | case2 n hn ih =>
    have hn := Nat.not_lt.1 hn
    have hm := Nat.mod_lt n (by decide : 0 < 128)
    obtain ⟨hand, _⟩ := more_and (n % 128) hm
    rw [varint_of_le hn]
    rcases bufsz with _ | _ | bufsz
    · rfl
    · exact (if_neg (Nat.not_lt.2 (Nat.le_add_left 1 _))).symm
    · have hshift : n >>> 7 = n / 128 := Nat.shiftRight_eq_div_pow n 7
      rw [packRemainingLength, hlow, if_pos (Nat.lt_of_lt_of_le (by decide) hn), or_more _ hm,
        if_pos hand, hshift, ih _ (Nat.and_two_pow_sub_one_eq_mod _ 7), List.length_cons]
      by_cases hfit : (varint (n / 128)).length < bufsz + 1
      · rw [if_pos hfit, if_pos (Nat.succ_lt_succ hfit), Option.map_some]
        congr 2
        omega
      · rw [if_neg hfit, if_neg fun h => hfit (Nat.lt_of_succ_lt_succ h)]
        rfl

theorem unpackRemainingLength_cons (hk : k < 4) (acc : Nat) (b : UInt8) (rest : List UInt8) :
    unpackRemainingLength (7 * k) acc (b :: rest) =
      if b &&& 0x80 ≠ 0 then
        unpackRemainingLength (7 * (k + 1)) ((acc + b.toNat % 128 * 128 ^ k) % 2 ^ 32) rest
      else
        .ok (some ((acc + b.toNat % 128 * 128 ^ k) % 2 ^ 32, rest)) := by
  have hshift : (b &&& 0x7F).toNat <<< (7 * k) = b.toNat % 128 * 128 ^ k := by
    rw [and_low, Nat.shiftLeft_eq, Nat.pow_mul]
  rw [unpackRemainingLength, if_neg (by omega), hshift]
  rfl

/-- The length comes back from its groups, and is missing while one of them is. -/
theorem unpackRemainingLength_take (acc n : Nat) (rest : List UInt8) (j : Nat)
    (hlen : k + (varint n).length ≤ 4) (hacc : acc + n * 128 ^ k < 2 ^ 32) :
    unpackRemainingLength (7 * k) acc ((varint n ++ rest).take j) =
      .ok (if (varint n).length ≤ j then
        some (acc + n * 128 ^ k, rest.take (j - (varint n).length)) else none) := by
  have hk : k < 4 := by
    have hpos := List.length_pos_iff.2 (varint_ne_nil n)
    omega
  induction n using varint.induct generalizing k acc j with
  | case1 n hn =>
    obtain ⟨hand, _⟩ := last_and n hn
    rw [varint_of_lt hn]
    cases j with
    | zero => exact if_neg (by omega)
    | succ j =>
      rw [List.cons_append, List.take_succ_cons, unpackRemainingLength_cons hk,
        if_neg (not_not_intro hand), toNat_last hn, Nat.mod_eq_of_lt hn, Nat.mod_eq_of_lt hacc]
      exact congrArg Except.ok (if_pos (Nat.le_add_left 1 j)).symm
  | case2 n hn ih =>
    have hn := Nat.not_lt.1 hn
    have hm := Nat.mod_lt n (by decide : 0 < 128)
    obtain ⟨hand, _⟩ := more_and (n % 128) hm
    have hsum : acc + n % 128 * 128 ^ k + n / 128 * 128 ^ (k + 1) = acc + n * 128 ^ k := by
      rw [Nat.pow_succ', ← Nat.mul_assoc, Nat.add_assoc, ← Nat.add_mul, Nat.mul_comm _ 128,
        Nat.mod_add_div]
    rw [varint_of_le hn] at hlen ⊢
    rw [List.length_cons] at hlen
    have hk' : k + 1 < 4 := by
      have hpos := List.length_pos_iff.2 (varint_ne_nil (n / 128))
      omega
    cases j with
    | zero => exact if_neg (by omega)
    | succ j =>
      have hlow : (acc + n % 128 * 128 ^ k) % 2 ^ 32 = acc + n % 128 * 128 ^ k :=
        Nat.mod_eq_of_lt (by omega)
      rw [List.cons_append, List.take_succ_cons, unpackRemainingLength_cons hk, if_pos hand,
        toNat_more, Nat.add_mod_right, Nat.mod_mod, hlow, ih _ _ (by omega) (by omega) hk', hsum,
        List.length_cons, Nat.add_sub_add_right]
      simp only [Nat.add_le_add_iff_right]

/-- What the loop accepts are at most four groups. -/
theorem unpackRemainingLength_ok {bytes : List UInt8} (hacc : acc < 128 ^ k) (hk : k ≤ 4)
    (h : unpackRemainingLength (7 * k) acc bytes = .ok (some (n, rest))) :
    ∃ used, bytes = used ++ rest ∧ used ≠ [] ∧ k + used.length ≤ 4 ∧
      n = acc + groups used * 128 ^ k := by
  induction bytes generalizing k acc with
  | nil =>
    rw [unpackRemainingLength] at h
    split at h <;> cases h
  | cons b bytes ih =>
    rcases Nat.lt_or_eq_of_le hk with hk | rfl
    · have hb := Nat.mod_lt b.toNat (by decide : 0 < 128)
      have hnext : acc + b.toNat % 128 * 128 ^ k < 128 ^ (k + 1) := by
        calc
          _ < 128 ^ k + b.toNat % 128 * 128 ^ k := Nat.add_lt_add_right hacc _
          _ = (b.toNat % 128 + 1) * 128 ^ k := by rw [Nat.add_mul, Nat.one_mul, Nat.add_comm]
          _ ≤ 128 * 128 ^ k := Nat.mul_le_mul_right _ hb
          _ = 128 ^ (k + 1) := (Nat.pow_succ').symm
      have hlow : (acc + b.toNat % 128 * 128 ^ k) % 2 ^ 32 = acc + b.toNat % 128 * 128 ^ k := by
        apply Nat.mod_eq_of_lt
        calc
          _ < 128 ^ (k + 1) := hnext
          _ ≤ 128 ^ 4 := Nat.pow_le_pow_right (by decide) hk
          _ ≤ 2 ^ 32 := by decide
      rw [unpackRemainingLength_cons hk, hlow] at h
      split at h
      · obtain ⟨used, rfl, _, hused, rfl⟩ := ih hnext hk h
        refine ⟨b :: used, rfl, List.cons_ne_nil _ _, ?_, ?_⟩
        · rw [List.length_cons]
          omega
        · rw [groups, Nat.add_mul, Nat.pow_succ', Nat.add_assoc, ← Nat.mul_assoc,
            Nat.mul_comm (groups used)]
      · cases h
        exact ⟨[b], rfl, List.cons_ne_nil _ _, hk, by rw [groups, groups]; rfl⟩
    · cases h

/-- The bytes of a fixed header. -/
def FixedHeader.bytes (h : FixedHeader) : List UInt8 :=
  firstByte h.control_type h.control_flags :: varint h.remaining_length

/-- The rules allow the header, and its length is in the range of the protocol. -/
structure FixedHeader.Valid (h : FixedHeader) : Prop where
  rules : mqttFixedHeaderRuleViolation h = .ok ()
  remaining_length : h.remaining_length < 256 * 1024 * 1024

section FixedHeader
variable {h : FixedHeader} {bytes buf rest : List UInt8}

theorem FixedHeader.length_bytes (h : FixedHeader) :
    h.bytes.length = (varint h.remaining_length).length + 1 := List.length_cons

theorem FixedHeader.Valid.length_le (hvalid : h.Valid) : h.bytes.length ≤ 5 :=
  Nat.succ_le_succ ((length_varint_le (by decide)).2 hvalid.remaining_length)

/-- Packing gives the bytes of a valid header when the whole packet fits into the buffer. -/
theorem mqttPackFixedHeader_iff (bufsz : Nat) (hbytes : bytes ≠ []) :
    mqttPackFixedHeader bufsz h = .ok bytes ↔
      h.Valid ∧ h.bytes.length + h.remaining_length ≤ bufsz ∧ bytes = h.bytes := by
  rw [mqttPackFixedHeader, h.length_bytes, FixedHeader.bytes]
  cases hrules : mqttFixedHeaderRuleViolation h with
  | error e =>
    apply iff_of_false
    · intro hpack
      cases hpack
    · intro hvalid
      cases hrules.symm.trans hvalid.1.rules
  | ok u =>
    change (if bufsz = 0 then _ else _) = _ ↔ _
    split
    case isTrue hzero =>
      apply iff_of_false
      · intro hpack
        cases hpack
        exact hbytes rfl
      · intro hvalid
        omega
    case isFalse hpos =>
      change (if 256 * 1024 * 1024 ≤ h.remaining_length then _ else _) = _ ↔ _
      split
      case isTrue hle =>
        apply iff_of_false
        · intro hpack
          cases hpack
        · intro hvalid
          exact Nat.not_lt.2 hle hvalid.1.remaining_length
      case isFalse hlt =>
        have hvalid : h.Valid := ⟨hrules, Nat.not_le.1 hlt⟩
        rw [packRemainingLength_eq]
        by_cases hfit : (varint h.remaining_length).length < bufsz
        · rw [if_pos hfit]
          change (if bufsz - (varint h.remaining_length).length - 1 < h.remaining_length then _
            else _) = _ ↔ _
          split
          case isTrue hsmall =>
            apply iff_of_false
            · intro hpack
              cases hpack
              exact hbytes rfl
            · intro hvalid
              omega
          case isFalse hlarge =>
            constructor
            · intro hpack
              cases hpack
              exact ⟨hvalid, by omega, rfl⟩
            · rintro ⟨_, _, rfl⟩
              rfl
        · rw [if_neg hfit]
          apply iff_of_false
          · intro hpack
            cases hpack
            exact hbytes rfl
          · intro hvalid
            omega

/-- What is unpacked from the first bytes of a packet and what follows it. -/
theorem mqttUnpackFixedHeader_take (hvalid : h.Valid) (body : List UInt8) (j : Nat)
    (hbody : h.remaining_length ≤ body.length) :
    mqttUnpackFixedHeader ((h.bytes ++ body).take j) =
      .ok (if h.bytes.length + h.remaining_length ≤ j then
        some (h, body.take (j - h.bytes.length)) else none) := by
  obtain ⟨htype, hflags⟩ := firstByte_fields h.control_type h.control_flags
  have hlen := hvalid.length_le
  have hrl := hvalid.remaining_length
  rw [h.length_bytes] at hlen ⊢
  cases j with
  | zero => exact congrArg Except.ok (if_neg (by omega)).symm
  | succ j =>
    have hloop := unpackRemainingLength_take 0 h.remaining_length body j
      (show 0 + (varint h.remaining_length).length ≤ 4 by omega) (by omega)
    rw [FixedHeader.bytes, List.cons_append, List.take_succ_cons, mqttUnpackFixedHeader, hloop,
      htype, hflags, Nat.zero_add, Nat.pow_zero, Nat.mul_one, Nat.add_sub_add_right]
    by_cases hgroups : (varint h.remaining_length).length ≤ j
    · rw [if_pos hgroups]
      have hrules : mqttFixedHeaderRuleViolation ⟨h.control_type, h.control_flags,
        h.remaining_length⟩ = .ok () := hvalid.rules
      change (do
        mqttFixedHeaderRuleViolation ⟨h.control_type, h.control_flags, h.remaining_length⟩
        if (body.take (j - (varint h.remaining_length).length)).length < h.remaining_length then
          return none
        else
          return some (h, body.take (j - (varint h.remaining_length).length))) = _
      rw [hrules]
      change (if _ then Except.ok none else Except.ok (some _)) = _
      rw [List.length_take]
      split
      case isTrue hmissing => exact congrArg Except.ok (if_neg (by omega)).symm
      case isFalse hwhole => exact congrArg Except.ok (if_pos (by omega)).symm
    · rw [if_neg hgroups, if_neg (by omega)]
      rfl

/-- What is unpacked from a packet and what follows it. -/
theorem mqttUnpackFixedHeader_append (hvalid : h.Valid) (body : List UInt8) :
    mqttUnpackFixedHeader (h.bytes ++ body) =
      .ok (if h.remaining_length ≤ body.length then some (h, body) else none) := by
  have htake := mqttUnpackFixedHeader_take hvalid
    (body ++ List.replicate h.remaining_length 0) (h.bytes ++ body).length (by
      rw [List.length_append, List.length_replicate]
      exact Nat.le_add_left _ _)
  rw [← List.append_assoc, List.take_left, List.length_append, Nat.add_sub_cancel_left,
    List.take_left] at htake
  rw [htake]
  simp only [Nat.add_le_add_iff_left]

/-- What is unpacked is valid, and takes no fewer bytes than its header. -/
theorem mqttUnpackFixedHeader_ok (hunpack : mqttUnpackFixedHeader buf = .ok (some (h, rest))) :
    h.Valid ∧ h.remaining_length ≤ rest.length ∧ h.bytes.length + rest.length ≤ buf.length := by
  cases buf with
  | nil => cases hunpack
  | cons b buf =>
    rw [mqttUnpackFixedHeader] at hunpack
    cases hloop : unpackRemainingLength 0 0 buf with
    | error e =>
      rw [hloop] at hunpack
      cases hunpack
    | ok r =>
      cases r with
      | none =>
        rw [hloop] at hunpack
        cases hunpack
      | some r =>
        obtain ⟨n, rest'⟩ := r
        rw [hloop] at hunpack
        obtain ⟨used, rfl, hne, hused, hn⟩ :=
          unpackRemainingLength_ok (k := 0) Nat.zero_lt_one (Nat.zero_le 4) hloop
        rw [Nat.pow_zero, Nat.mul_one, Nat.zero_add] at hn
        change (do
          mqttFixedHeaderRuleViolation
            ⟨.ofCode (b >>> 4), (b &&& 0x0F).toBitVec.setWidth 4, n⟩
          if rest'.length < n then return none else return some (_, rest')) = _ at hunpack
        cases hrules : mqttFixedHeaderRuleViolation
            ⟨.ofCode (b >>> 4), (b &&& 0x0F).toBitVec.setWidth 4, n⟩ with
        | error e =>
          rw [hrules] at hunpack
          cases hunpack
        | ok u =>
          rw [hrules] at hunpack
          change (if rest'.length < n then Except.ok none else _) = _ at hunpack
          split at hunpack
          case isTrue => cases hunpack
          case isFalse hwhole =>
            cases hunpack
            have hgroups := groups_lt used
            have hlt : n < 128 ^ used.length := hn ▸ hgroups
            have hshort := (length_varint_le (List.length_pos_iff.2 hne)).2 hlt
            refine ⟨⟨hrules, ?_⟩, Nat.not_lt.1 hwhole, ?_⟩
            · calc
                n < 128 ^ used.length := hlt
                _ ≤ 128 ^ 4 := Nat.pow_le_pow_right (by decide) (by omega)
            · rw [FixedHeader.length_bytes, List.length_cons, List.length_append]
              change (varint n).length + 1 + _ ≤ _
              omega

end FixedHeader

/-- A packed header comes back from the stream as soon as its packet is there whole and no earlier,
and whatever is unpacked can be packed again without taking more bytes. -/
theorem mqttFixedHeader_roundTrip (bufsz : Nat) (h : FixedHeader) :
    (∀ bytes, mqttPackFixedHeader bufsz h = .ok bytes → bytes ≠ [] →
      bytes.length + h.remaining_length ≤ bufsz ∧
      ∀ body j, h.remaining_length ≤ body.length →
        mqttUnpackFixedHeader ((bytes ++ body).take j) =
          .ok (if bytes.length + h.remaining_length ≤ j then
            some (h, body.take (j - bytes.length)) else none)) ∧
    ∀ buf rest, mqttUnpackFixedHeader buf = .ok (some (h, rest)) →
      ∃ bytes, mqttPackFixedHeader buf.length h = .ok bytes ∧ bytes ≠ [] ∧
        bytes.length + rest.length ≤ buf.length ∧
        mqttUnpackFixedHeader (bytes ++ rest) = .ok (some (h, rest)) := by
  constructor
  · intro bytes hpack hbytes
    obtain ⟨hvalid, hfit, rfl⟩ := (mqttPackFixedHeader_iff bufsz hbytes).1 hpack
    exact ⟨hfit, fun body j hbody => mqttUnpackFixedHeader_take hvalid body j hbody⟩
  · intro buf rest hunpack
    obtain ⟨hvalid, hrest, hlen⟩ := mqttUnpackFixedHeader_ok hunpack
    have hne : h.bytes ≠ [] := List.cons_ne_nil _ _
    refine ⟨h.bytes, ?_, hne, hlen, ?_⟩
    · apply (mqttPackFixedHeader_iff buf.length hne).2
      exact ⟨hvalid, by omega, rfl⟩
    · rw [mqttUnpackFixedHeader_append hvalid, if_pos hrest]

end BigBox.Mqtt
