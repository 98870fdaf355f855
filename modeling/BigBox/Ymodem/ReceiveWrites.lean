import BigBox.Lib.CInt
import BigBox.Ymodem.Receive

namespace BigBox.Ymodem
set_option autoImplicit true

/-- The payload of a packet that announces a file. -/
structure Header where
  fileName : List UInt8
  info : List UInt8
  named : fileName ≠ []
  nonzero : ∀ c ∈ fileName, c ≠ 0
  size_ok : PayloadSize (fileName ++ 0 :: info)

def Header.payload (h : Header) : List UInt8 := h.fileName ++ 0 :: h.info

/-- A file content cut into packets, the last one padded. -/
structure Split (content : List UInt8) where
  packets : List (List UInt8)
  pad : List UInt8
  size_ok : ∀ p ∈ packets, PayloadSize p
  flatten_eq : packets.flatten = content ++ pad
  pad_short : pad.length < (packets.getLast?.map List.length).getD 1

/-- Data packets in order, the first with sequence number `k`. -/
def dataFrames : Nat → List (List UInt8) → List UInt8
  | _, [] => []
  | k, p :: ps => dataFrame k p ++ dataFrames (k + 1) ps

/-- What arrives when a file is sent without errors. -/
def transfer (header : Header) (packets : List (List UInt8)) : List Reply :=
  (dataFrame 0 header.payload ++ (dataFrames 1 packets ++
    (EOT :: dataFrame 0 (List.replicate PACKET_128B_SIZE 0)))).map some

/-- A buffer that holds a file content from its start on. -/
def Holds (buf : Nat → UInt8) (content : List UInt8) : Prop :=
  ∀ j c, content[j]? = some c → buf j = c

/-- The byte at offset `j` of the last packet that long. -/
def lastAt (packets : List (List UInt8)) (j : Nat) : Option UInt8 :=
  (packets.reverse.find? fun p => j < p.length).bind fun p => p[j]?

theorem receiveBytes_some (data : Nat → UInt8) (i : Nat) (bytes : List UInt8) (rs : List Reply) :
    receiveBytes bytes.length data i (bytes.map some ++ rs) =
      some (true, writeBytes data i bytes, rs) := by
  induction bytes generalizing data i with
  | nil => rw [writeBytes_nil]; rfl
  | cons c bytes ih => rw [writeBytes_cons, ← ih]; rfl

theorem packetSize_dataFrame (h : PayloadSize payload) :
    packetSize (if payload.length = PACKET_1KB_SIZE then STX else SOH) = some payload.length := by
  rcases h with h | h
  · rw [h]; rfl
  · rw [h]; rfl

theorem complement_check (c : UInt8) : c = ~~~c ^^^ 0xff := by
  apply UInt8.toBitVec_inj.1
  rw [UInt8.toBitVec_xor, UInt8.toBitVec_not]
  exact (BitVec.not_not.symm.trans BitVec.xor_allOnes.symm)

/-- A data packet is received as it was sent. -/
theorem receivePacket_dataFrame (data : Nat → UInt8) (k : Nat) (h : PayloadSize payload)
    (rs : List Reply) :
    receivePacket data ((dataFrame k payload).map some ++ rs) =
      some ⟨0, payload.length, writeBytes data 0 (dataFrame k payload), rs⟩ := by
  obtain ⟨c, tail, hframe, hc, htail⟩ : ∃ c tail, dataFrame k payload = c :: tail ∧
      packetSize c = some payload.length ∧
      tail = UInt8.ofNat k :: ~~~UInt8.ofNat k :: (payload ++ crcBytes payload) :=
    ⟨_, _, rfl, packetSize_dataFrame h, rfl⟩
  have hlen : payload.length + PACKET_OVERHEAD - 1 = tail.length := by
    have := length_dataFrame k payload
    rw [hframe, List.length_cons] at this
    omega
  have hseq : writeBytes data 0 (c :: tail) 1 = writeBytes data 0 (c :: tail) 2 ^^^ 0xff := by
    rw [htail]
    exact complement_check (UInt8.ofNat k)
  rw [hframe, List.map_cons, List.cons_append]
  simp only [receivePacket, hc, hlen, receiveBytes_some, Option.map_some, ← writeBytes_cons,
    ne_eq, hseq, not_true_eq_false, if_false, Bool.true_eq_false]

theorem readBytes_dataFrame (data : Nat → UInt8) (k : Nat) (payload : List UInt8) :
    readBytes (writeBytes data 0 (dataFrame k payload)) PACKET_HEADER payload.length = payload :=
  readBytes_writeBytes data rfl

/-- The session after a data packet is stored. -/
def Session.stored (s : Session) (payload : List UInt8) : Session :=
  let packetData := writeBytes s.packetData 0 (dataFrame s.packetsReceived payload)
  (({ s with packetData, errors := 0, buf := writeBytes s.buf s.bufPtr payload }).send [ACK]).count

theorem Session.step_frame (s : Session) (k : Nat) (h : PayloadSize payload) (rs : List Reply) :
    s.step ⟨0, payload.length, writeBytes s.packetData 0 (dataFrame k payload), rs⟩ =
      ({ s with packetData := writeBytes s.packetData 0 (dataFrame k payload),
                errors := 0 } : Session).normalPacket payload.length := by
  have hlen : 0 < payload.length := by
    rcases h with h | h
    · rw [h]; decide
    · rw [h]; decide
  have hpos : (payload.length : Int) ≠ 0 := by omega
  have hneg : (payload.length : Int) ≠ -1 := by omega
  simp only [Session.step, ↓reduceIte, hneg, hpos, Int.toNat_natCast]

theorem receiveLoop_frame (n : Nat) (s : Session) (k : Nat) (h : PayloadSize payload)
    (hs : ({ s with packetData := writeBytes s.packetData 0 (dataFrame k payload),
                    errors := 0 } : Session).normalPacket payload.length = (s', .again)) :
    receiveLoop (n + 1) s ((dataFrame k payload).map some ++ rs) = receiveLoop n s' rs := by
  rw [receiveLoop, receivePacket_dataFrame _ _ h, Option.bind_some, Session.step_frame _ _ h, hs]

/-- A data packet with the expected sequence number is stored at the buffer pointer, which
stays where it is. -/
theorem receiveLoop_data (n : Nat) (h : PayloadSize payload) (hk : 0 < s.packetsReceived) :
    receiveLoop (n + 1) s ((dataFrame s.packetsReceived payload).map some ++ rs) =
      receiveLoop n (s.stored payload) rs := by
  apply receiveLoop_frame n s s.packetsReceived h
  have hseq : writeBytes s.packetData 0 (dataFrame s.packetsReceived payload) 1 =
      UInt8.ofNat s.packetsReceived := rfl
  simp only [Session.normalPacket, hseq, ne_eq, not_true_eq_false, if_false, Nat.ne_of_gt hk,
    readBytes_dataFrame]
  rfl

/-- Data packets in order are all stored at the buffer pointer. -/
theorem receiveLoop_dataFrames (n : Nat) (rs : List Reply) (h : ∀ p ∈ packets, PayloadSize p)
    (hk : 0 < s.packetsReceived) :
    ∃ s' : Session, s'.buf = packets.foldl (writeBytes · s.bufPtr ·) s.buf ∧
      receiveLoop (n + packets.length) s ((dataFrames s.packetsReceived packets).map some ++ rs) =
        receiveLoop n s' rs := by
  induction packets generalizing s with
  | nil => exact ⟨s, rfl, rfl⟩
  | cons p packets ih =>
    have hp : PayloadSize p := h p List.mem_cons_self
    have hps : ∀ q ∈ packets, PayloadSize q := fun q hq => h q (List.mem_cons_of_mem p hq)
    obtain ⟨s', hbuf, hrun⟩ := ih (s := s.stored p) hps (Nat.succ_pos _)
    refine ⟨s', hbuf, ?_⟩
    rw [dataFrames, List.map_append, List.append_assoc, List.length_cons, ← Nat.add_assoc,
      receiveLoop_data _ hp hk]
    exact hrun

/-- The announcing packet is acknowledged and counted, the buffer is not touched. -/
theorem receiveLoop_header (n : Nat) (header : Header) (rs : List Reply)
    (hk : s.packetsReceived = 0) :
    ∃ s' : Session, s'.buf = s.buf ∧ s'.bufPtr = s.bufPtr ∧ s'.packetsReceived = 1 ∧
      receiveLoop (n + 1) s ((dataFrame 0 header.payload).map some ++ rs) =
        receiveLoop n s' rs := by
  obtain ⟨c, name, hname⟩ := List.exists_cons_of_ne_nil header.named
  have hc : c ≠ 0 := header.nonzero c (hname ▸ List.mem_cons_self)
  have hfirst : writeBytes s.packetData 0 (dataFrame 0 header.payload) PACKET_HEADER = c := by
    rw [Header.payload, hname]
    rfl
  have hseq : writeBytes s.packetData 0 (dataFrame 0 header.payload) 1 =
      UInt8.ofNat s.packetsReceived := by
    rw [hk]
    rfl
  let packetData := writeBytes s.packetData 0 (dataFrame 0 header.payload)
  let size := (str2Int (fileSize packetData)).getD s.size
  let s' := (({ s with packetData, errors := 0, size } : Session).send [ACK, CRC16]).count
  have hs' : s'.packetsReceived = 1 := congrArg (· + 1) hk
  refine ⟨s', rfl, rfl, hs', receiveLoop_frame n s 0 header.size_ok ?_⟩
  simp only [Session.normalPacket, hfirst, hseq, hc, ne_eq, not_true_eq_false,
    not_false_eq_true, if_false, if_true, if_pos hk]
  rfl

/-- The session after the end of a file. -/
def Session.nextFile (s : Session) : Session :=
  { s.send [ACK] with errors := 0, packetsReceived := 0, bufPtr := 0 }

theorem receiveLoop_eot (n : Nat) (s : Session) (rs : List Reply) :
    receiveLoop (n + 1) s (some EOT :: rs) = receiveLoop n s.nextFile rs := rfl

/-- An empty announcing packet ends the session. -/
theorem receiveLoop_end (n : Nat) (s : Session) (hk : s.packetsReceived = 0) :
    ∃ value sent, receiveLoop (n + 1) s
      ((dataFrame 0 (List.replicate PACKET_128B_SIZE 0)).map some) =
        some ⟨value, s.buf, sent⟩ := by
  have hzeros : PayloadSize (List.replicate PACKET_128B_SIZE 0) := .inl List.length_replicate
  have hfirst : writeBytes s.packetData 0
      (dataFrame 0 (List.replicate PACKET_128B_SIZE 0)) PACKET_HEADER = 0 := rfl
  have hseq : writeBytes s.packetData 0 (dataFrame 0 (List.replicate PACKET_128B_SIZE 0)) 1 =
      UInt8.ofNat s.packetsReceived := by
    rw [hk]
    rfl
  refine ⟨s.size.toInt32.toInt, s.sent ++ [ACK], ?_⟩
  rw [receiveLoop, ← List.append_nil (List.map _ _), receivePacket_dataFrame _ _ hzeros,
    Option.bind_some, Session.step_frame _ _ hzeros]
  simp only [Session.normalPacket, hfirst, hseq, ne_eq, not_true_eq_false, if_false, if_pos hk]
  rfl

theorem length_dataFrames (k : Nat) (packets : List (List UInt8)) :
    packets.length ≤ (dataFrames k packets).length := by
  induction packets generalizing k with
  | nil => exact Nat.zero_le _
  | cons p packets ih =>
    have hp := length_dataFrame k p
    have hps := ih (k + 1)
    rw [dataFrames, List.length_append, List.length_cons]
    simp only [PACKET_OVERHEAD, PACKET_HEADER, PACKET_TRAILER] at hp
    omega

/-- There are enough replies for a round per packet. -/
theorem length_transfer (header : Header) (packets : List (List UInt8)) :
    ∃ m, (transfer header packets).length = m + 2 + packets.length + 1 := by
  have hpackets := length_dataFrames 1 packets
  refine ⟨(transfer header packets).length - (2 + packets.length + 1), ?_⟩
  simp only [transfer, List.length_map, List.length_append, List.length_cons, length_dataFrame,
    PACKET_OVERHEAD, PACKET_HEADER, PACKET_TRAILER]
  omega

/-- What `Ymodem_Receive` leaves in the buffer: every packet laid over its start. -/
theorem ymodemReceive_buf (stack buf : Nat → UInt8) (header : Header)
    (h : ∀ p ∈ packets, PayloadSize p) :
    ∃ value sent, ymodemReceive stack buf (transfer header packets) =
      some ⟨value, packets.foldl (writeBytes · 0 ·) buf, sent⟩ := by
  let s : Session := ⟨stack, buf, 0, 0, 0, false, 0, [CRC16]⟩
  let closing := EOT :: dataFrame 0 (List.replicate PACKET_128B_SIZE 0)
  obtain ⟨m, hm⟩ := length_transfer header packets
  obtain ⟨s₁, hbuf₁, hptr₁, hk₁, hheader⟩ := receiveLoop_header (s := s)
    (m + 2 + packets.length) header ((dataFrames 1 packets ++ closing).map some) rfl
  have hpos : 0 < s₁.packetsReceived := by
    rw [hk₁]
    exact Nat.one_pos
  obtain ⟨s₂, hbuf₂, hdata⟩ := receiveLoop_dataFrames (m + 2) (closing.map some) h hpos
  obtain ⟨value, sent, hend⟩ := receiveLoop_end m s₂.nextFile rfl
  refine ⟨value, sent, ?_⟩
  rw [hptr₁, hbuf₁] at hbuf₂
  rw [hk₁] at hdata
  rw [ymodemReceive, hm, transfer, List.map_append, hheader, List.map_append, hdata,
    List.map_cons, receiveLoop_eot, hend, ← hbuf₂]
  rfl

theorem lastAt_append (packets : List (List UInt8)) (p : List UInt8) (j : Nat) :
    lastAt (packets ++ [p]) j = if j < p.length then p[j]? else lastAt packets j := by
  rw [lastAt, List.reverse_append, List.reverse_singleton, List.singleton_append, List.find?_cons]
  by_cases hj : j < p.length
  · rw [decide_eq_true hj, if_pos hj]
    rfl
  · rw [decide_eq_false hj, if_neg hj]
    rfl

theorem foldl_writeBytes (packets : List (List UInt8)) (buf : Nat → UInt8) (j : Nat) :
    packets.foldl (writeBytes · 0 ·) buf j = (lastAt packets j).getD (buf j) := by
  induction packets using List.reverseRecOn with
  | nil => rfl
  | append_singleton packets p ih =>
    rw [List.foldl_append, List.foldl_cons, List.foldl_nil, lastAt_append]
    split
    case isTrue hj =>
      have hin := writeBytes_inside (packets.foldl (writeBytes · 0 ·) buf) 0 hj
      rw [Nat.zero_add] at hin
      rw [hin, List.getElem?_eq_getElem hj, Option.getD_some]
    case isFalse hj =>
      rw [writeBytes_behind _ _ (by omega), ih]

/-- Every content byte is what the last packet that long carries at the same offset, or what
the buffer held where no packet is that long. -/
def Repeats (packets : List (List UInt8)) (buf : Nat → UInt8) (content : List UInt8) : Prop :=
  ∀ j c, content[j]? = some c → (lastAt packets j).getD (buf j) = c

/-- A file in one packet has nothing to repeat. -/
theorem Split.repeats_one (split : Split content) (buf : Nat → UInt8)
    (h : split.packets.length ≤ 1) : Repeats split.packets buf content := by
  intro j c hc
  match split.packets, h, split.flatten_eq with
  | [], _, hflat =>
    have hnil : content = [] := (List.append_eq_nil_iff.1 hflat.symm).1
    rw [hnil] at hc
    cases hc
  | [p], _, hflat =>
    rw [List.flatten_singleton] at hflat
    have hj : j < content.length := (List.getElem?_eq_some_iff.1 hc).1
    have hp : p[j]? = some c := by rw [hflat, List.getElem?_append_left hj, hc]
    have hlt : j < p.length := (List.getElem?_eq_some_iff.1 hp).1
    have hlast : lastAt [p] j = p[j]? := (lastAt_append [] p j).trans (if_pos hlt)
    rw [hlast, hp, Option.getD_some]

/-- The buffer pointer never moves: the content arrives exactly when it fits one packet or the
packets repeat each other's bytes. -/
theorem ymodemReceive_holds_iff (stack buf : Nat → UInt8) (header : Header)
    (split : Split content) :
    (∃ received, ymodemReceive stack buf (transfer header split.packets) = some received ∧
      Holds received.buf content) ↔
    split.packets.length ≤ 1 ∨ Repeats split.packets buf content := by
  obtain ⟨value, sent, hrun⟩ := ymodemReceive_buf stack buf header split.size_ok
  have hholds : Holds (split.packets.foldl (writeBytes · 0 ·) buf) content ↔
      Repeats split.packets buf content := by
    simp only [Holds, Repeats, foldl_writeBytes]
  rw [hrun, or_iff_right_of_imp (split.repeats_one buf), ← hholds]
  simp only [Option.some.injEq, exists_eq_left']

/-- The header of a file `a` of 256 bytes. -/
def twoPacketsHeader : Header where
  fileName := [0x61]
  info := [0x32, 0x35, 0x36, 0x20] ++ List.replicate 122 0
  named := List.cons_ne_nil _ _
  nonzero := by
    intro c hc
    rw [List.mem_singleton.1 hc]
    decide
  size_ok := .inl (by
    simp only [List.length_append, List.length_cons, List.length_nil, List.length_replicate,
      PACKET_128B_SIZE])

/-- Two packets of 128 bytes without padding. -/
def twoPackets : Split (List.replicate 128 1 ++ List.replicate 128 2) where
  packets := [List.replicate 128 1, List.replicate 128 2]
  pad := []
  size_ok := by
    intro p hp
    rcases List.mem_pair.1 hp with rfl | rfl
    · exact .inl List.length_replicate
    · exact .inl List.length_replicate
  flatten_eq := by simp only [List.flatten_cons, List.flatten_nil, List.append_nil]
  pad_short := Nat.lt_of_lt_of_eq (Nat.succ_pos 127) List.length_replicate.symm

/-- The second packet lies over the first. -/
theorem ymodemReceive_overwrites_twoPackets :
    ¬ ∃ received, ymodemReceive (fun _ => 0) (fun _ => 0)
        (transfer twoPacketsHeader twoPackets.packets) = some received ∧
      Holds received.buf (List.replicate 128 1 ++ List.replicate 128 2) := by
  rintro ⟨received, hrun, hholds⟩
  obtain ⟨value, sent, hrun'⟩ :=
    ymodemReceive_buf (fun _ => 0) (fun _ => 0) twoPacketsHeader twoPackets.size_ok
  rw [hrun, Option.some.injEq] at hrun'
  have hfirst : received.buf 0 = 1 := hholds 0 1 rfl
  have hbuf : received.buf 0 = (lastAt twoPackets.packets 0).getD 0 := by
    rw [hrun']
    exact foldl_writeBytes twoPackets.packets (fun _ => 0) 0
  have hlast : lastAt twoPackets.packets 0 = some 2 := by
    refine (lastAt_append [List.replicate 128 1] (List.replicate 128 2) 0).trans ?_
    rw [List.length_replicate]
    rfl
  rw [hbuf, hlast] at hfirst
  cases hfirst

/-- The arrays of `Ymodem_Receive`. -/
inductive LocalArray where
  | packetData
  | fileName
  | fileSize
  deriving DecidableEq, Repr

def LocalArray.length : LocalArray → Nat
  | .packetData => PACKET_1KB_SIZE + PACKET_OVERHEAD
  | .fileName => FILE_NAME_LENGTH
  | .fileSize => FILE_SIZE_LENGTH

structure Write where
  array : LocalArray
  index : Nat
  deriving DecidableEq, Repr

def Write.Inside (w : Write) : Prop := w.index < w.array.length

/-- What the loop of `receiveBytes` writes. -/
def receiveBytesWrites : Nat → Nat → List Reply → List Write
  | 0, _, _ => []
  | _ + 1, _, [] => []
  | _ + 1, _, none :: _ => []
  | n + 1, i, some _ :: rs => ⟨.packetData, i⟩ :: receiveBytesWrites n (i + 1) rs

/-- What `receivePacket` writes. -/
def receivePacketWrites : List Reply → List Write
  | some c :: rs =>
    match packetSize c with
    | some size => ⟨.packetData, 0⟩ :: receiveBytesWrites (size + PACKET_OVERHEAD - 1) 1 rs
    | none => []
  | _ => []

/-- What the two copying loops for a header packet write, each with its terminator. -/
def headerWrites (data : Nat → UInt8) : List Write :=
  let fileName := scan 0 FILE_NAME_LENGTH data PACKET_HEADER
  let fileSize := scan 0x20 FILE_SIZE_LENGTH data (PACKET_HEADER + fileName.length + 1)
  (List.range (fileName.length + 1)).map (Write.mk .fileName) ++
    (List.range (fileSize.length + 1)).map (Write.mk .fileSize)

/-- A packet that is taken for the header of a file. -/
def Session.TakesHeader (s : Session) (p : Packet) : Prop :=
  p.status = 0 ∧ p.length ≠ -1 ∧ p.length ≠ 0 ∧ p.data 1 = UInt8.ofNat s.packetsReceived ∧
    s.packetsReceived = 0 ∧ p.data PACKET_HEADER ≠ 0

instance : Decidable (Session.TakesHeader s p) := by
  unfold Session.TakesHeader
  infer_instance

/-- What `step` writes. -/
def Session.writes (s : Session) (p : Packet) : List Write :=
  if s.TakesHeader p then headerWrites p.data else []

/-- As many replies as the longest packet takes. -/
def upcoming (replies : Nat → Reply) (T : Nat) : List Reply :=
  (List.range (2048 + PACKET_OVERHEAD)).map fun i => replies (T + i)

/-- A round of the packet loop, from the reply at which it starts. -/
def nextRound (replies : Nat → Reply) : Session × Nat → Option (Session × Nat)
  | (s, T) =>
    (receivePacket s.packetData (upcoming replies T)).bind fun p =>
      let T := T + (2048 + PACKET_OVERHEAD - p.rest.length)
      match s.step p with
      | (s, .again) => some (s, T)
      | (s, .fileDone) => some ({ s with packetsReceived := 0, bufPtr := 0 }, T)
      | _ => none

/-- The state and the place in the replies in front of a round, if the call has not returned. -/
def roundAt (stack buf : Nat → UInt8) (replies : Nat → Reply) : Nat → Option (Session × Nat)
  | 0 => some (⟨stack, buf, 0, 0, 0, false, 0, [CRC16]⟩, 0)
  | n + 1 => (roundAt stack buf replies n).bind (nextRound replies)

def roundWrites (replies : Nat → Reply) : Session × Nat → List Write
  | (s, T) =>
    receivePacketWrites (upcoming replies T) ++
      (receivePacket s.packetData (upcoming replies T)).elim [] s.writes

/-- Every write of every round is inside its array. -/
def WritesInside (stack buf : Nat → UInt8) (replies : Nat → Reply) : Prop :=
  ∀ n round, roundAt stack buf replies n = some round → ∀ w ∈ roundWrites replies round, w.Inside

/-- A name that ends within 256 bytes, and a blank in the 16 bytes behind its terminator. -/
def HeaderFits (data : Nat → UInt8) : Prop :=
  ∃ k < FILE_NAME_LENGTH, data (PACKET_HEADER + k) = 0 ∧
    (∀ i < k, data (PACKET_HEADER + i) ≠ 0) ∧
      ∃ i < FILE_SIZE_LENGTH, data (PACKET_HEADER + k + 1 + i) = 0x20

/-- A packet of 2048 bytes is cut short before the array is full, and a header packet fits. -/
def RoundFits (replies : Nat → Reply) : Session × Nat → Prop
  | (s, T) =>
    (replies T = some 0xA9 → ∃ i < 1029, replies (T + 1 + i) = none) ∧
      ∀ p, receivePacket s.packetData (upcoming replies T) = some p → s.TakesHeader p →
        HeaderFits p.data

section Write

/-- The scan stops at the first place that holds the byte, or at its limit. -/
theorem scan_spec (stop : UInt8) (n : Nat) (data : Nat → UInt8) (p : Nat) :
    (scan stop n data p).length ≤ n ∧ (∀ i < (scan stop n data p).length, data (p + i) ≠ stop) ∧
      ((scan stop n data p).length < n → data (p + (scan stop n data p).length) = stop) := by
  induction n generalizing p with
  | zero => exact ⟨Nat.le_refl 0, nofun, nofun⟩
  | succ n ih =>
    rw [scan]
    split
    · next h => exact ⟨Nat.zero_le _, nofun, fun _ => h⟩
    · next h =>
      obtain ⟨hle, hbefore, hat⟩ := ih (p + 1)
      rw [List.length_cons]
      refine ⟨Nat.succ_le_succ hle, fun i hi => ?_, fun hlt => ?_⟩
      · cases i with
        | zero => exact h
        | succ i =>
          have hne := hbefore i (Nat.lt_of_succ_lt_succ hi)
          rwa [Nat.add_right_comm] at hne
      · have hstop := hat (Nat.lt_of_succ_lt_succ hlt)
        rwa [Nat.add_right_comm] at hstop

theorem scan_length_lt_iff (stop : UInt8) (n : Nat) (data : Nat → UInt8) (p : Nat) :
    (scan stop n data p).length < n ↔ ∃ i < n, data (p + i) = stop := by
  obtain ⟨hle, hbefore, hat⟩ := scan_spec stop n data p
  constructor
  · intro hlt
    exact ⟨_, hlt, hat hlt⟩
  · rintro ⟨i, hi, hstop⟩
    by_contra hge
    exact hbefore i (Nat.lt_of_lt_of_le hi (Nat.not_lt.1 hge)) hstop

theorem scan_length_eq (hk : k < n) (hstop : data (p + k) = stop)
    (hfirst : ∀ i < k, data (p + i) ≠ stop) : (scan stop n data p).length = k := by
  obtain ⟨_, hbefore, hat⟩ := scan_spec stop n data p
  obtain hlt | heq | hgt := Nat.lt_trichotomy (scan stop n data p).length k
  · exact absurd (hat (Nat.lt_trans hlt hk)) (hfirst _ hlt)
  · exact heq
  · exact absurd hstop (hbefore k hgt)

theorem headerFits_iff (data : Nat → UInt8) : HeaderFits data ↔
    (scan 0 FILE_NAME_LENGTH data PACKET_HEADER).length < FILE_NAME_LENGTH ∧
      (scan 0x20 FILE_SIZE_LENGTH data (PACKET_HEADER +
        (scan 0 FILE_NAME_LENGTH data PACKET_HEADER).length + 1)).length < FILE_SIZE_LENGTH := by
  rw [scan_length_lt_iff 0x20]
  constructor
  · rintro ⟨k, hk, hzero, hfirst, hblank⟩
    rw [scan_length_eq hk hzero hfirst]
    exact ⟨hk, hblank⟩
  · rintro ⟨hlt, hblank⟩
    obtain ⟨_, hbefore, hat⟩ := scan_spec 0 FILE_NAME_LENGTH data PACKET_HEADER
    exact ⟨_, hlt, hat hlt, hbefore, hblank⟩

theorem range_inside_iff (array : LocalArray) (n : Nat) :
    (∀ w ∈ (List.range (n + 1)).map (Write.mk array), w.Inside) ↔ n < array.length := by
  constructor
  · intro h
    exact h ⟨array, n⟩ (List.mem_map_of_mem (List.mem_range.2 (Nat.lt_succ_self n)))
  · intro h w hw
    obtain ⟨i, hi, rfl⟩ := List.mem_map.1 hw
    exact Nat.lt_of_le_of_lt (Nat.le_of_lt_succ (List.mem_range.1 hi)) h

theorem headerWrites_inside_iff (data : Nat → UInt8) :
    (∀ w ∈ headerWrites data, w.Inside) ↔ HeaderFits data := by
  rw [headerFits_iff, headerWrites, List.forall_mem_append, range_inside_iff, range_inside_iff]
  rfl

/-- The bytes of a packet are inside as long as the array or the replies are not used up. -/
theorem receiveBytesWrites_inside_iff (n : Nat) (rs : List Reply)
    (hi : i ≤ LocalArray.packetData.length) : (∀ w ∈ receiveBytesWrites n i rs, w.Inside) ↔
      i + n ≤ LocalArray.packetData.length ∨
        ∃ k, i + k ≤ LocalArray.packetData.length ∧ ∀ c, rs[k]? ≠ some (some c) := by
  induction n generalizing i rs with
  | zero => exact iff_of_true nofun (.inl hi)
  | succ n ih =>
    cases rs with
    | nil => exact iff_of_true nofun (.inr ⟨0, hi, nofun⟩)
    | cons r rs =>
      cases r with
      | none => exact iff_of_true nofun (.inr ⟨0, hi, nofun⟩)
      | some c =>
        rw [receiveBytesWrites, List.forall_mem_cons]
        constructor
        · rintro ⟨hin, hrest⟩
          have hin : i + 1 ≤ LocalArray.packetData.length := hin
          obtain hle | ⟨k, hk, hnone⟩ := (ih rs hin).1 hrest
          · exact .inl (by omega)
          · exact .inr ⟨k + 1, by omega, hnone⟩
        · rintro (hle | ⟨k, hk, hnone⟩)
          · have hin : i + 1 ≤ LocalArray.packetData.length := by omega
            exact ⟨hin, (ih rs hin).2 (.inl (by omega))⟩
          · cases k with
            | zero => exact absurd rfl (hnone c)
            | succ k =>
              have hin : i + 1 ≤ LocalArray.packetData.length := by omega
              exact ⟨hin, (ih rs hin).2 (.inr ⟨k, by omega, hnone⟩)⟩

theorem packetSize_le (h : packetSize c = some size) (hc : c ≠ 0xA9) :
    size + PACKET_OVERHEAD ≤ LocalArray.packetData.length := by
  have hall : ∀ c, c ≠ 0xA9 → (packetSize c).all fun size =>
      decide (size + PACKET_OVERHEAD ≤ LocalArray.packetData.length) := by
    apply forall_byte
    decide +kernel
  have hsize := hall c hc
  rw [h] at hsize
  exact of_decide_eq_true hsize

theorem upcoming_cons (replies : Nat → Reply) (T : Nat) : upcoming replies T =
    replies T :: (List.range 2052).map fun i => replies (T + 1 + i) := by
  rw [upcoming, show 2048 + PACKET_OVERHEAD = 2052 + 1 from rfl, List.range_succ_eq_map,
    List.map_cons, List.map_map]
  refine congrArg _ (List.map_congr_left fun i _ => ?_)
  change replies (T + (i + 1)) = _
  rw [Nat.add_right_comm, Nat.add_assoc]

theorem receivePacketWrites_inside_iff (replies : Nat → Reply) (T : Nat) :
    (∀ w ∈ receivePacketWrites (upcoming replies T), w.Inside) ↔
      (replies T = some 0xA9 → ∃ i < 1029, replies (T + 1 + i) = none) := by
  have hone : 0 < LocalArray.packetData.length := by decide
  have hfirst : Write.Inside ⟨.packetData, 0⟩ := hone
  rw [upcoming_cons]
  cases hreply : replies T with
  | none => exact iff_of_true nofun nofun
  | some c =>
    rw [receivePacketWrites]
    by_cases hc : c = 0xA9
    · subst hc
      have hsize : packetSize 0xA9 = some 2048 := rfl
      rw [hsize]
      dsimp only
      rw [List.forall_mem_cons, receiveBytesWrites_inside_iff _ _ hone]
      constructor
      · rintro ⟨_, hle | ⟨k, hk, hnone⟩⟩ _
        · exact absurd hle (by decide)
        · have hk : k < 1029 := by
            change 1 + k ≤ 1029 at hk
            omega
          refine ⟨k, hk, ?_⟩
          rw [List.getElem?_map, List.getElem?_range (by omega), Option.map_some] at hnone
          cases hr : replies (T + 1 + k) with
          | none => rfl
          | some c => exact absurd (congrArg some hr) (hnone c)
      · intro h
        obtain ⟨k, hk, hnone⟩ := h rfl
        refine ⟨hfirst, .inr ⟨k, ?_, fun c => ?_⟩⟩
        · change 1 + k ≤ 1029
          omega
        · rw [List.getElem?_map, List.getElem?_range (by omega), Option.map_some, hnone]
          exact nofun
    · refine iff_of_true ?_ fun h => absurd (Option.some.inj h) hc
      cases hsize : packetSize c with
      | none => exact nofun
      | some size =>
        have hle := packetSize_le hsize hc
        rw [List.forall_mem_cons, receiveBytesWrites_inside_iff _ _ hone]
        refine ⟨hfirst, .inl ?_⟩
        have hpos : 1 ≤ PACKET_OVERHEAD := by decide
        omega

theorem roundWrites_inside_iff (replies : Nat → Reply) (round : Session × Nat) :
    (∀ w ∈ roundWrites replies round, w.Inside) ↔ RoundFits replies round := by
  obtain ⟨s, T⟩ := round
  rw [roundWrites, RoundFits, List.forall_mem_append, receivePacketWrites_inside_iff]
  refine and_congr Iff.rfl ?_
  cases receivePacket s.packetData (upcoming replies T) with
  | none => exact iff_of_true nofun nofun
  | some p =>
    change (∀ w ∈ s.writes p, w.Inside) ↔ _
    rw [Session.writes]
    by_cases h : s.TakesHeader p
    · rw [if_pos h, headerWrites_inside_iff]
      constructor
      · rintro hfits _ ⟨rfl⟩ _
        exact hfits
      · intro hall
        exact hall p rfl h
    · rw [if_neg h]
      refine iff_of_true nofun ?_
      rintro _ ⟨rfl⟩ htakes
      exact absurd htakes h

/-- All writes of a run are inside if and only if every packet that it takes fits. -/
theorem writesInside_iff (stack buf : Nat → UInt8) (replies : Nat → Reply) :
    WritesInside stack buf replies ↔
      ∀ n round, roundAt stack buf replies n = some round → RoundFits replies round :=
  forall₃_congr fun _ round _ => roundWrites_inside_iff replies round

/-- A packet of 2048 bytes. -/
theorem not_writesInside : ¬ WritesInside (fun _ => 0) (fun _ => 0) fun _ => some 0xA9 := by
  intro h
  have hround := (receivePacketWrites_inside_iff (fun _ => some 0xA9) 0).1
    (fun w hw => h 0 _ rfl w (List.mem_append_left _ hw)) rfl
  obtain ⟨i, _, hnone⟩ := hround
  cases hnone

end Write

end BigBox.Ymodem
