import BigBox.Ymodem.ReceiveWrites

namespace BigBox.Ymodem
set_option autoImplicit true

/-- A complete packet as it arrives: the start byte, the sequence byte and its complement, the
payload, and the two bytes behind it. -/
structure Frame where
  start : UInt8
  seq : UInt8
  comp : UInt8
  payload : List UInt8
  trail : List UInt8
  size_ok : packetSize start = some payload.length
  seq_ok : seq = comp ^^^ 0xff
  trail_ok : trail.length = PACKET_TRAILER

def Frame.bytes (f : Frame) : List UInt8 := f.start :: f.seq :: f.comp :: (f.payload ++ f.trail)

/-- The packet is a data packet. -/
def Packet.IsData (p : Packet) : Prop := p.status = 0 ∧ 0 < p.length

/-- The sequence byte and its complement match, and so do the payload and its checksum. -/
def Packet.Checked (p : Packet) : Prop :=
  p.data 1 = p.data 2 ^^^ 0xff ∧
    readBytes p.data (PACKET_HEADER + p.length.toNat) PACKET_TRAILER =
      crcBytes (readBytes p.data PACKET_HEADER p.length.toNat)

/-- A data packet is reported only if it is checked. -/
def ReportsChecked (data : Nat → UInt8) (rs : List Reply) : Prop :=
  ∀ p, receivePacket data rs = some p → p.IsData → p.Checked

/-- A packet whose payload is stored in the buffer. -/
def Session.Stores (s : Session) (p : Packet) : Prop :=
  p.IsData ∧ p.data 1 = UInt8.ofNat s.packetsReceived ∧ s.packetsReceived ≠ 0

/-- Only payloads of checked packets are ever stored. -/
def StoresChecked (stack buf : Nat → UInt8) (replies : Nat → Reply) : Prop :=
  ∀ n s T, roundAt stack buf replies n = some (s, T) →
    ∀ p, receivePacket s.packetData (upcoming replies T) = some p → s.Stores p → p.Checked

/-- A complete packet at the start of the replies has its checksum behind it. -/
def Intact (rs : List Reply) : Prop :=
  ∀ (f : Frame) rest, rs = f.bytes.map some ++ rest → f.trail = crcBytes f.payload

/-- So has every complete packet with the expected number, but the first of a file. -/
def StreamIntact (stack buf : Nat → UInt8) (replies : Nat → Reply) : Prop :=
  ∀ n s T, roundAt stack buf replies n = some (s, T) → s.packetsReceived ≠ 0 →
    ∀ (f : Frame) rest, upcoming replies T = f.bytes.map some ++ rest →
      f.seq = UInt8.ofNat s.packetsReceived → f.trail = crcBytes f.payload

section Checksum
variable {data data' : Nat → UInt8} {rs rest : List Reply} {i n : Nat}

theorem receiveBytes_eq_some (h : receiveBytes n data i rs = some (true, data', rest)) :
    ∃ bytes, bytes.length = n ∧ rs = bytes.map some ++ rest ∧
      data' = writeBytes data i bytes := by
  induction n generalizing data i rs with
  | zero =>
    cases h
    exact ⟨[], rfl, rfl, (writeBytes_nil _ _).symm⟩
  | succ n ih =>
    cases rs with
    | nil => cases h
    | cons r rs =>
      cases r with
      | none => cases h
      | some c =>
        obtain ⟨bytes, hlength, hrs, hdata⟩ := ih h
        refine ⟨c :: bytes, congrArg (· + 1) hlength, ?_, ?_⟩
        · rw [hrs, List.map_cons, List.cons_append]
        · rw [hdata, ← writeBytes_cons]

theorem packetSize_pos (h : packetSize c = some size) : 0 < size := by
  have hall : ∀ c, (packetSize c).all fun size => decide (0 < size) := by
    apply forall_byte
    decide +kernel
  have hsize := hall c
  rw [h] at hsize
  exact of_decide_eq_true hsize

theorem Frame.length_bytes (f : Frame) : f.bytes.length = f.payload.length + PACKET_OVERHEAD := by
  have htrail := f.trail_ok
  rw [Frame.bytes, List.length_cons, List.length_cons, List.length_cons, List.length_append, htrail]
  rfl

theorem Frame.received (f : Frame) (data : Nat → UInt8) (rest : List Reply) :
    receivePacket data (f.bytes.map some ++ rest) =
      some ⟨0, f.payload.length, writeBytes data 0 f.bytes, rest⟩ := by
  obtain ⟨tail, hbytes⟩ : ∃ tail, f.bytes = f.start :: tail := ⟨_, rfl⟩
  have hlength : f.payload.length + PACKET_OVERHEAD - 1 = tail.length := by
    rw [← f.length_bytes, hbytes, List.length_cons, Nat.add_sub_cancel]
  have hmatch : writeBytes data 0 f.bytes 1 = writeBytes data 0 f.bytes 2 ^^^ 0xff := f.seq_ok
  rw [hbytes] at hmatch ⊢
  simp only [List.map_cons, List.cons_append, receivePacket, f.size_ok, hlength,
    receiveBytes_some, Option.map_some, ← writeBytes_cons, Bool.true_eq_false, if_false, ne_eq,
    hmatch, not_true_eq_false]

/-- The bytes behind a start byte make up a packet. -/
theorem exists_frame (hsize : packetSize c = some size)
    (hlength : bytes.length = size + PACKET_OVERHEAD - 1)
    (hmatch : writeBytes data 0 (c :: bytes) 1 = writeBytes data 0 (c :: bytes) 2 ^^^ 0xff) :
    ∃ f : Frame, f.bytes = c :: bytes ∧ f.payload.length = size := by
  have hoverhead : size + PACKET_OVERHEAD - 1 = size + 4 := rfl
  rw [hoverhead] at hlength
  match bytes with
  | [] => exact absurd hlength (Nat.succ_ne_zero _).symm
  | [_] => exact absurd (Nat.succ.inj hlength) (Nat.succ_ne_zero _).symm
  | seq :: comp :: tail =>
    have htail : tail.length = size + PACKET_TRAILER := Nat.succ.inj (Nat.succ.inj hlength)
    have hpayload : (tail.take size).length = size :=
      List.length_take_of_le (htail ▸ Nat.le_add_right _ _)
    have htrail : (tail.drop size).length = PACKET_TRAILER := by
      rw [List.length_drop, htail, Nat.add_sub_cancel_left]
    refine ⟨⟨c, seq, comp, tail.take size, tail.drop size, hpayload.symm ▸ hsize, hmatch, htrail⟩,
      ?_, hpayload⟩
    rw [Frame.bytes, List.take_append_drop]

theorem not_isData (h : ¬ (status = 0 ∧ 0 < length)) :
    ¬ Packet.IsData ⟨status, length, data, rest⟩ :=
  h

theorem not_isData_of_none (hsize : packetSize c = none)
    (h : receivePacket data (some c :: rs) = some p) : ¬ p.IsData := by
  simp only [receivePacket, hsize] at h
  split at h
  · cases h
    exact not_isData (by decide)
  · split at h
    · cases rs with
      | nil => cases h
      | cons r rs =>
        dsimp only at h
        split at h
        · cases h
          exact not_isData (by decide)
        · cases h
          exact not_isData (by decide)
    · split at h
      · cases h
        exact not_isData (by decide)
      · cases h
        exact not_isData (by decide)

/-- A data packet is reported for a complete packet, whatever stands behind its payload. -/
theorem receivePacket_data_iff (data : Nat → UInt8) (rs : List Reply) (p : Packet) :
    receivePacket data rs = some p ∧ p.IsData ↔ ∃ (f : Frame) (rest : List Reply),
      rs = f.bytes.map some ++ rest ∧
        p = ⟨0, f.payload.length, writeBytes data 0 f.bytes, rest⟩ := by
  constructor
  · rintro ⟨h, hdata⟩
    cases rs with
    | nil => cases h
    | cons r rs =>
      cases r with
      | none =>
        cases h
        exact absurd hdata (not_isData (by decide))
      | some c =>
        cases hsize : packetSize c with
        | none => exact absurd hdata (not_isData_of_none hsize h)
        | some size =>
          simp only [receivePacket, hsize] at h
          obtain ⟨⟨ok, data', rest⟩, hbytes, hp⟩ := Option.map_eq_some_iff.1 h
          dsimp only at hp
          split at hp
          · cases hp
            exact absurd hdata (not_isData (by decide))
          · next hok =>
            split at hp
            · cases hp
              exact absurd hdata (not_isData (by decide))
            · next hmatch =>
              rw [Bool.not_eq_false] at hok
              subst hok
              obtain ⟨bytes, hlength, hrs, hdata'⟩ := receiveBytes_eq_some hbytes
              rw [← writeBytes_cons] at hdata'
              subst hdata'
              obtain ⟨f, hf, hpayload⟩ := exists_frame hsize hlength (not_not.1 hmatch)
              refine ⟨f, rest, ?_, ?_⟩
              · rw [hf, List.map_cons, List.cons_append, hrs]
              · rw [hf, hpayload, ← hp]
  · rintro ⟨f, rest, rfl, rfl⟩
    exact ⟨f.received data rest, rfl, Int.natCast_pos.2 (packetSize_pos f.size_ok)⟩

/-- A packet is checked if and only if its checksum stands behind it. -/
theorem Frame.checked_iff (f : Frame) (data : Nat → UInt8) (rest : List Reply) :
    Packet.Checked ⟨0, f.payload.length, writeBytes data 0 f.bytes, rest⟩ ↔
      f.trail = crcBytes f.payload := by
  have hbytes : f.bytes = [f.start, f.seq, f.comp] ++ f.payload ++ f.trail := rfl
  have hpayload : readBytes (writeBytes data 0 f.bytes) PACKET_HEADER f.payload.length =
      f.payload := by
    rw [hbytes]
    exact readBytes_writeBytes data rfl
  have htrail : readBytes (writeBytes data 0 f.bytes) (PACKET_HEADER + f.payload.length)
      PACKET_TRAILER = f.trail := by
    have hplace : PACKET_HEADER + f.payload.length =
        0 + ([f.start, f.seq, f.comp] ++ f.payload).length := by
      rw [List.length_append, Nat.zero_add]
      rfl
    rw [hbytes, hplace, ← List.append_nil (_ ++ f.trail)]
    exact readBytes_writeBytes data f.trail_ok
  rw [Packet.Checked, Int.toNat_natCast, hpayload, htrail]
  exact and_iff_right f.seq_ok

/-- `Receive_Packet` reports only checked packets if and only if the packet that arrives is one.
`Ymodem_Receive` stores only checked payloads if and only if all that it takes are. -/
theorem receive_checked_iff (data : Nat → UInt8) (rs : List Reply) (stack buf : Nat → UInt8)
    (replies : Nat → Reply) : (ReportsChecked data rs ↔ Intact rs) ∧
      (StoresChecked stack buf replies ↔ StreamIntact stack buf replies) := by
  constructor
  · constructor
    · rintro h f rest rfl
      obtain ⟨hreceived, hdata⟩ := (receivePacket_data_iff data _ _).2 ⟨f, rest, rfl, rfl⟩
      exact (f.checked_iff data rest).1 (h _ hreceived hdata)
    · intro h p hreceived hdata
      obtain ⟨f, rest, hrs, rfl⟩ := (receivePacket_data_iff data rs p).1 ⟨hreceived, hdata⟩
      exact (f.checked_iff data rest).2 (h f rest hrs)
  · constructor
    · intro h n s T hround hcount f rest hreplies hseq
      obtain ⟨hreceived, hdata⟩ := (receivePacket_data_iff s.packetData _ _).2
        ⟨f, rest, hreplies, rfl⟩
      exact (f.checked_iff _ rest).1 (h n s T hround _ hreceived ⟨hdata, hseq, hcount⟩)
    · rintro h n s T hround p hreceived ⟨hdata, hseq, hcount⟩
      obtain ⟨f, rest, hreplies, rfl⟩ :=
        (receivePacket_data_iff s.packetData _ p).1 ⟨hreceived, hdata⟩
      exact (f.checked_iff _ rest).2 (h n s T hround hcount f rest hreplies hseq)

/-- Eight zeros and a checksum that is not theirs. -/
def corrupted : Frame where
  start := 0xA1
  seq := 0
  comp := 0xff
  payload := List.replicate 8 0
  trail := [1, 1]
  size_ok := rfl
  seq_ok := rfl
  trail_ok := rfl

theorem not_receive_checked : ¬ ∀ data rs stack buf replies,
    ReportsChecked data rs ∧ StoresChecked stack buf replies := by
  intro h
  have hreports := (h (fun _ => 0) (corrupted.bytes.map some ++ []) (fun _ => 0) (fun _ => 0)
    fun _ => none).1
  obtain ⟨hreceived, hdata⟩ :=
    (receivePacket_data_iff (fun _ => 0) _ _).2 ⟨corrupted, [], rfl, rfl⟩
  have hchecked := (corrupted.checked_iff _ []).1 (hreports _ hreceived hdata)
  exact absurd hchecked (by decide +kernel)

end Checksum

end BigBox.Ymodem
