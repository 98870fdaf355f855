import BigBox.Ymodem.Packet

namespace BigBox.Ymodem
set_option autoImplicit true

/-- What passes on the line: a frame of bytes from the sender, then what its wait for an answer
brings. -/
inductive Event where
  | sent (bytes : List UInt8)
  | received (reply : Reply)
  deriving DecidableEq, Repr

/-- How a waiting loop ends: its error count, what passed and the replies still to come. -/
structure LoopExit where
  errors : Nat
  trace : List Event
  rest : List Reply
  deriving DecidableEq, Repr

/-- The error count after an answer. A strict loop counts every byte but an acknowledgement,
the others count only timeouts. -/
def countError (strict : Bool) (errors : Nat) (r : Reply) : Nat :=
  if r = some ACK then errors
  else if strict ∨ r = none then errors + 1
  else errors

/-- The loops that send one frame until it is acknowledged. A loop whose peer stays silent
forever has no exit. -/
def sendLoop (strict : Bool) (frame : List UInt8) : Nat → List Reply → Option LoopExit
  | _, [] => none
  | errors, r :: rs =>
    if r ≠ some ACK ∧ countError strict errors r < 0x0A then
      (sendLoop strict frame (countError strict errors r) rs).map fun e =>
        { e with trace := .sent frame :: .received r :: e.trace }
    else some ⟨countError strict errors r, [.sent frame, .received r], rs⟩

/-- The variables the retry loop of a data packet changes. -/
structure DataState where
  bufPtr : List UInt8
  size : Nat
  blkNumber : UInt16
  deriving DecidableEq, Repr

def DataState.pktSize (s : DataState) : Nat :=
  if s.size ≥ PACKET_1KB_SIZE then PACKET_1KB_SIZE else PACKET_128B_SIZE

/-- An acknowledgement moves the buffer pointer and the block number on. -/
def DataState.advance (s : DataState) : DataState :=
  if s.size > s.pktSize then
    ⟨s.bufPtr.drop s.pktSize, s.size - s.pktSize, s.blkNumber + 1⟩
  else ⟨s.bufPtr.drop s.pktSize, 0, s.blkNumber⟩

/-- A packet with its header and the checksum of its payload. -/
def withCRC (packetData : List UInt8) (size : Nat) : List UInt8 :=
  ymodemSendPacket packetData (size + PACKET_HEADER) ++ crcBytes ((packetData.drop 3).take size)

/-- The retry loop of a data packet. -/
def dataAttempts (packetData : List UInt8) :
    Nat → DataState → List Reply → Option (LoopExit × DataState)
  | _, _, [] => none
  | errors, s, r :: rs =>
    let frame := withCRC packetData s.pktSize
    if r = some ACK then some (⟨errors, [.sent frame, .received r], rs⟩, s.advance)
    else if errors + 1 < 0x0A then
      (dataAttempts packetData (errors + 1) s rs).map fun (e, s) =>
        ({ e with trace := .sent frame :: .received r :: e.trace }, s)
    else some (⟨errors + 1, [.sent frame, .received r], rs⟩, s)

/-- The loop over the data packets, for as many rounds as there are bytes to send. It returns
what it leaves in the packet buffer. -/
def dataLoop : Nat → List UInt8 → DataState → List Reply → Option (LoopExit × List UInt8)
  | 0, packetData, _, rs => some (⟨0, [], rs⟩, packetData)
  | n + 1, packetData, s, rs =>
    if s.size = 0 then some (⟨0, [], rs⟩, packetData)
    else
      let packetData := ymodemPreparePacket s.bufPtr packetData s.blkNumber.toUInt8 s.size
      (dataAttempts packetData 0 s rs).bind fun (e, s) =>
        if e.errors ≥ 0x0A then some (e, packetData)
        else (dataLoop n packetData s e.rest).map fun (e', packetData) =>
          ({ e' with trace := e.trace ++ e'.trace }, packetData)

/-- The closing packet, laid over what the last packet left. -/
def closingPacket (packetData : List UInt8) : List UInt8 :=
  copyAt packetData 0 ([SOH, 0, 0xFF] ++ List.replicate PACKET_128B_SIZE 0x00)

/-- Memory a call of `Ymodem_Transmit` finds uninitialised. -/
structure Stack where
  packetData : List UInt8
  fileName255 : UInt8
  filePtr : List UInt8

/-- The packet that announces the file. -/
def initialPacket (stack : Stack) (sendFileName : List UInt8) (sizeFile : UInt32) : List UInt8 :=
  ymodemPrepareIntialPacket stack.filePtr stack.packetData
    (sendFileName.take 255 ++ [stack.fileName255]) sizeFile

/-- `Ymodem_Transmit` with the trace of a call that returns. The file is the first `sizeFile`
bytes of `buf`. -/
def ymodemTransmit (stack : Stack) (buf sendFileName : List UInt8) (sizeFile : UInt32)
    (replies : List Reply) : Option (Nat × List Event) := do
  let packetData := initialPacket stack sendFileName sizeFile
  let header ← sendLoop false (withCRC packetData PACKET_128B_SIZE) 0 replies
  if header.errors ≥ 0x0A then return (header.errors, header.trace)
  let size := sizeFile.toNat
  let (data, packetData) ← dataLoop size packetData ⟨buf.take size, size, 1⟩ header.rest
  if data.errors ≥ 0x0A then return (data.errors, header.trace ++ data.trace)
  let eot ← sendLoop true [EOT] 0 data.rest
  if eot.errors ≥ 0x0A then return (eot.errors, header.trace ++ data.trace ++ eot.trace)
  let closing ← sendLoop false (withCRC (closingPacket packetData) PACKET_128B_SIZE) 0 eot.rest
  if closing.errors ≥ 0x0A then
    return (closing.errors, header.trace ++ data.trace ++ eot.trace ++ closing.trace)
  match closing.rest with
  | [] => none
  | r :: _ =>
    -- `ackReceived` is still set here, so that this last loop runs once
    let errors := countError true closing.errors r
    let trace := header.trace ++ data.trace ++ eot.trace ++ closing.trace ++
      [.sent [EOT], .received r]
    if errors ≥ 0x0A then return (errors, trace)
    return (0, trace)

/-- The transmission of one data packet: the answers that made the sender repeat it, before
the acknowledgement. -/
structure Delivery where
  payload : List UInt8
  failed : List Reply
  size_ok : PayloadSize payload
  not_ack : ∀ r ∈ failed, r ≠ some ACK
  few : failed.length < 10

/-- One frame sent until it is acknowledged. -/
def attempts (frame : List UInt8) : List Reply → List Event
  | [] => [.sent frame, .received (some ACK)]
  | r :: rs => .sent frame :: .received r :: attempts frame rs

/-- The packets of a file in order, each acknowledged before the next is sent. -/
def dataTrace : Nat → List Delivery → List Event
  | _, [] => []
  | k, d :: ds => attempts (dataFrame k d.payload) d.failed ++ dataTrace (k + 1) ds

/-- The payload of the packet `Ymodem_PreparePacket` builds. -/
def DataState.payload (s : DataState) : List UInt8 :=
  s.bufPtr.take (min s.size s.pktSize) ++ List.replicate (s.pktSize - min s.size s.pktSize) 0x1A

theorem dataAttempts_exit (h : dataAttempts packetData errors s rs = some (e, s'))
    (he : errors < 10) :
    10 ≤ e.errors ∨ ∃ failed, (∀ r ∈ failed, r ≠ some ACK) ∧ errors + failed.length < 10 ∧
      e.trace = attempts (withCRC packetData s.pktSize) failed ∧ s' = s.advance := by
  induction rs generalizing errors e with
  | nil => cases h
  | cons r rs ih =>
    rw [dataAttempts] at h
    by_cases hack : r = some ACK
    · simp only [hack, ↓reduceIte, Option.some.injEq, Prod.mk.injEq] at h
      obtain ⟨rfl, rfl⟩ := h
      exact .inr ⟨[], by simp, he, rfl, rfl⟩
    · simp only [hack, ↓reduceIte] at h
      by_cases hlt : errors + 1 < 0x0A
      · rw [if_pos hlt, Option.map_eq_some_iff] at h
        obtain ⟨⟨e', s''⟩, h', heq⟩ := h
        cases heq
        rcases ih h' hlt with hbad | ⟨failed, hne, hlen, htr, hs⟩
        · exact .inl hbad
        · refine .inr ⟨r :: failed, ?_, ?_, ?_, hs⟩
          · intro r' hr'
            rcases List.mem_cons.1 hr' with hr' | hr'
            · exact hr' ▸ hack
            · exact hne r' hr'
          · rw [List.length_cons]
            omega
          · simp only [attempts, htr]
      · rw [if_neg hlt] at h
        cases h
        exact .inl (Nat.le_of_not_lt hlt)

theorem pktSize_cases (s : DataState) :
    s.pktSize = 1024 ∧ 1024 ≤ s.size ∨ s.pktSize = 128 ∧ s.size < 1024 := by
  rw [DataState.pktSize, PACKET_1KB_SIZE, PACKET_128B_SIZE]
  split <;> omega

theorem length_payload (s : DataState) (hb : s.size ≤ s.bufPtr.length) :
    s.payload.length = s.pktSize := by
  simp only [DataState.payload, List.length_append, List.length_take, List.length_replicate]
  omega

theorem payload_size (s : DataState) (hb : s.size ≤ s.bufPtr.length) : PayloadSize s.payload := by
  rw [PayloadSize, length_payload s hb]
  rcases pktSize_cases s with ⟨h, _⟩ | ⟨h, _⟩
  · exact .inr h
  · exact .inl h

theorem withCRC_copyAt (packetData payload : List UInt8) (x y z : UInt8)
    (h : payload.length = size) :
    withCRC (copyAt packetData 0 ([x, y, z] ++ payload)) size =
      [x, y, z] ++ payload ++ crcBytes payload := by
  have hfront : ([x, y, z] ++ payload).length = size + PACKET_HEADER := by
    rw [List.length_append, h, Nat.add_comm]
    rfl
  have hdrop (l : List UInt8) : (([x, y, z] ++ payload) ++ l).drop 3 = payload ++ l := rfl
  rw [withCRC, ymodemSendPacket, copyAt_zero, List.take_left' hfront, hdrop,
    List.take_left' h]

/-- What the retry loop sends is the data packet of the next block number. -/
theorem withCRC_prepared (s : DataState) (packetData : List UInt8)
    (hb : s.size ≤ s.bufPtr.length) (hk : s.blkNumber = UInt16.ofNat k) :
    withCRC (ymodemPreparePacket s.bufPtr packetData s.blkNumber.toUInt8 s.size) s.pktSize =
      dataFrame k s.payload := by
  have hno : s.blkNumber.toUInt8 = UInt8.ofNat k := by
    rw [hk]
    exact UInt16.toUInt8_ofNat' ..
  have hlen := length_payload s hb
  have hmin : (if s.size < s.pktSize then s.size else s.pktSize) = min s.size s.pktSize := by
    split <;> omega
  have hp : ymodemPreparePacket s.bufPtr packetData s.blkNumber.toUInt8 s.size =
      copyAt packetData 0 ([if s.pktSize = PACKET_1KB_SIZE then STX else SOH, UInt8.ofNat k,
        ~~~UInt8.ofNat k] ++ s.payload) := by
    rw [DataState.payload, ← hmin, ← List.append_assoc, ← hno]
    rfl
  rw [hp, withCRC_copyAt _ _ _ _ _ hlen, dataFrame, hlen]

/-- A data loop with nothing left to send does nothing. -/
theorem dataLoop_done (n : Nat) (packetData : List UInt8) (hs : s.size = 0) (rs : List Reply) :
    dataLoop n packetData s rs = some (⟨0, [], rs⟩, packetData) := by
  cases n with
  | zero => rfl
  | succ n => rw [dataLoop, if_pos hs]

/-- What is sent and what is left is what there was. -/
theorem payload_advance {s : DataState} (hb : s.size = s.bufPtr.length) (hpos : 0 < s.size) :
    (s.advance.size = s.advance.bufPtr.length ∧ s.advance.size < s.size ∧
      s.advance.blkNumber = s.blkNumber + 1 ∧ s.payload ++ s.advance.bufPtr = s.bufPtr) ∨
    (s.advance.size = 0 ∧ ∃ pad < 128, s.payload = s.bufPtr ++ List.replicate pad 0x1A) := by
  have hp := pktSize_cases s
  by_cases hgt : s.size > s.pktSize
  · rw [DataState.advance, if_pos hgt, DataState.payload, Nat.min_eq_right (by omega),
      Nat.sub_self, List.replicate_zero, List.append_nil, List.take_append_drop]
    refine .inl ⟨by rw [List.length_drop, hb], ?_, rfl, rfl⟩
    exact Nat.sub_lt hpos (by omega)
  · rw [DataState.advance, if_neg hgt, DataState.payload, Nat.min_eq_left (by omega),
      List.take_of_length_le (Nat.le_of_eq hb.symm)]
    exact .inr ⟨rfl, s.pktSize - s.size, by omega, rfl⟩

/-- The data loop sends the bytes it is given as packets with consecutive sequence bytes, or
gives up. -/
theorem dataLoop_trace (h : dataLoop n packetData s rs = some (e, packetData'))
    (hn : s.size ≤ n) (hb : s.size = s.bufPtr.length) (hk : s.blkNumber = UInt16.ofNat k) :
    10 ≤ e.errors ∨ ∃ ds : List Delivery, ∃ pad < 128, e.trace = dataTrace k ds ∧
      (ds.map Delivery.payload).flatten = s.bufPtr ++ List.replicate pad 0x1A := by
  induction n generalizing packetData s rs e k with
  | zero =>
    have hnil : s.bufPtr = [] := List.length_eq_zero_iff.1 (by omega)
    cases h
    exact .inr ⟨[], 0, by omega, rfl, by rw [hnil]; rfl⟩
  | succ n ih =>
    by_cases hz : s.size = 0
    · have hnil : s.bufPtr = [] := List.length_eq_zero_iff.1 (by omega)
      rw [dataLoop_done _ _ hz] at h
      cases h
      exact .inr ⟨[], 0, by omega, rfl, by rw [hnil]; rfl⟩
    · rw [dataLoop, if_neg hz, Option.bind_eq_some_iff] at h
      obtain ⟨⟨ea, s'⟩, ha, h⟩ := h
      have hframe := withCRC_prepared s packetData (Nat.le_of_eq hb) hk
      by_cases hbad : ea.errors ≥ 0x0A
      · simp only [hbad, ↓reduceIte, Option.some.injEq, Prod.mk.injEq] at h
        exact .inl (h.1 ▸ hbad)
      · rcases dataAttempts_exit ha (by omega) with hbad' | ⟨failed, hne, hlen, htr, rfl⟩
        · exact (hbad hbad').elim
        · simp only [hbad, ↓reduceIte, Option.map_eq_some_iff] at h
          obtain ⟨⟨el, p⟩, hl, heq⟩ := h
          cases heq
          rw [hframe] at htr
          let d : Delivery := ⟨s.payload, failed, payload_size s (Nat.le_of_eq hb), hne, by omega⟩
          rcases payload_advance hb (by omega) with ⟨hb', hlt, hno, hpay⟩ | ⟨hz', pad, hpad, hpay⟩
          · have hk' : s.advance.blkNumber = UInt16.ofNat (k + 1) := by
              rw [hno, hk, UInt16.ofNat_add]
              rfl
            rcases ih hl (by omega) hb' hk' with hgive | ⟨ds, pad, hpad, htl, hfl⟩
            · exact .inl hgive
            · refine .inr ⟨d :: ds, pad, hpad, ?_, ?_⟩
              · simp only [dataTrace, htr, htl, d]
              · rw [List.map_cons, List.flatten_cons, hfl, ← List.append_assoc, hpay]
          · rw [dataLoop_done _ _ hz'] at hl
            cases hl
            refine .inr ⟨[d], pad, hpad, ?_, ?_⟩
            · simp only [dataTrace, htr, d]
            · simp only [List.map_cons, List.map_nil, List.flatten_cons, List.flatten_nil,
                List.append_nil, hpay, d]

/-- Every frame a trace sends is one of those given. -/
def SendsOnly (frames : List (List UInt8)) (trace : List Event) : Prop :=
  ∀ frame, .sent frame ∈ trace → frame ∈ frames

theorem SendsOnly.append (h : SendsOnly frames t) (h' : SendsOnly frames t') :
    SendsOnly frames (t ++ t') := by
  intro frame hf
  rcases List.mem_append.1 hf with hf | hf
  · exact h frame hf
  · exact h' frame hf

theorem SendsOnly.mono (h : SendsOnly frames t) (hs : frames ⊆ frames') : SendsOnly frames' t :=
  fun frame hf => hs (h frame hf)

theorem sendsOnly_once (frame : List UInt8) (r : Reply) :
    SendsOnly [frame] [.sent frame, .received r] := by
  intro frame' hf
  simpa using hf

theorem sendLoop_sendsOnly (h : sendLoop strict frame errors rs = some e) :
    SendsOnly [frame] e.trace := by
  induction rs generalizing errors e with
  | nil => cases h
  | cons r rs ih =>
    rw [sendLoop] at h
    split at h
    · rw [Option.map_eq_some_iff] at h
      obtain ⟨e', h', heq⟩ := h
      cases heq
      exact (sendsOnly_once frame r).append (ih h')
    · cases h
      exact sendsOnly_once frame r

theorem withCRC_closingPacket (packetData : List UInt8) :
    withCRC (closingPacket packetData) PACKET_128B_SIZE =
      dataFrame 0 (List.replicate PACKET_128B_SIZE 0) := by
  have hlen : (List.replicate PACKET_128B_SIZE (0 : UInt8)).length = PACKET_128B_SIZE :=
    List.length_replicate
  rw [closingPacket, withCRC_copyAt _ _ _ _ _ hlen, dataFrame, hlen, if_neg (by decide)]
  rfl

/-- A call that gives up does not report success. -/
theorem giveUp_ne_success (hbad : errors ≥ 0x0A) :
    (pure (errors, t) : Option (Nat × List Event)) ≠ some (0, t') := by
  intro h
  have he : errors = 0 := congrArg Prod.fst (Option.some.inj h)
  omega

/-- A call that reports success has sent the announcing frame until it was acknowledged, then
the file as data packets, each acknowledged before the next, then only the closing frames. -/
theorem ymodemTransmit_trace (stack : Stack) (buf sendFileName : List UInt8) (sizeFile : UInt32)
    (replies : List Reply) (trace : List Event) (hbuf : sizeFile.toNat ≤ buf.length)
    (h : ymodemTransmit stack buf sendFileName sizeFile replies = some (0, trace)) :
    ∃ header closing : List Event, ∃ ds : List Delivery, ∃ pad < 128,
      trace = header ++ dataTrace 1 ds ++ closing ∧
      (ds.map Delivery.payload).flatten =
        buf.take sizeFile.toNat ++ List.replicate pad 0x1A ∧
      SendsOnly [withCRC (initialPacket stack sendFileName sizeFile) PACKET_128B_SIZE] header ∧
      SendsOnly [[EOT], dataFrame 0 (List.replicate PACKET_128B_SIZE 0)] closing := by
  have hbind {α β : Type} {x : Option α} {f : α → Option β} {b : β} :
      (x >>= f) = some b ↔ ∃ a, x = some a ∧ f a = some b := Option.bind_eq_some_iff
  rw [ymodemTransmit, hbind] at h
  obtain ⟨header, hheader, h⟩ := h
  split at h
  · exact (giveUp_ne_success ‹_› h).elim
  rw [hbind] at h
  obtain ⟨⟨data, packetData⟩, hdata, h⟩ := h
  dsimp only at h
  split at h
  · exact (giveUp_ne_success ‹_› h).elim
  rename_i hdok
  rw [hbind] at h
  obtain ⟨eot, heot, h⟩ := h
  split at h
  · exact (giveUp_ne_success ‹_› h).elim
  rw [hbind] at h
  obtain ⟨closing, hclosing, h⟩ := h
  split at h
  · exact (giveUp_ne_success ‹_› h).elim
  split at h
  · cases h
  rename_i r rest hrest
  split at h
  · exact (giveUp_ne_success ‹_› h).elim
  have htrace : header.trace ++ data.trace ++ eot.trace ++ closing.trace ++
      [.sent [EOT], .received r] = trace := congrArg Prod.snd (Option.some.inj h)
  have hlen : (⟨buf.take sizeFile.toNat, sizeFile.toNat, 1⟩ : DataState).size =
      (buf.take sizeFile.toNat).length := by
    rw [List.length_take, Nat.min_eq_left hbuf]
  rcases dataLoop_trace hdata (Nat.le_refl _) hlen rfl with hgive | ⟨ds, pad, hpad, hds, hpay⟩
  · exact (hdok hgive).elim
  · refine ⟨header.trace, eot.trace ++ closing.trace ++ [.sent [EOT], .received r], ds, pad,
      hpad, ?_, hpay, sendLoop_sendsOnly hheader, ?_⟩
    · rw [← htrace, hds]
      simp only [List.append_assoc]
    · rw [withCRC_closingPacket] at hclosing
      apply SendsOnly.append
      · apply SendsOnly.append
        · exact (sendLoop_sendsOnly heot).mono (by simp)
        · exact (sendLoop_sendsOnly hclosing).mono (by simp)
      · exact (sendsOnly_once [EOT] r).mono (by simp)

/-- Fresh memory and a peer that rejects the announcing frame and the first data packet once. -/
theorem ymodemTransmit_trace_once :
    ∃ trace, ymodemTransmit ⟨[], 0, []⟩ [7, 8] [0x61] 2
        [none, some ACK, some NAK, some ACK, some ACK, some ACK, some ACK] = some (0, trace) ∧
      ∃ header closing : List Event, ∃ ds : List Delivery, ∃ pad < 128,
        trace = header ++ dataTrace 1 ds ++ closing ∧
        (ds.map Delivery.payload).flatten =
          [7, 8].take (2 : UInt32).toNat ++ List.replicate pad 0x1A ∧
        SendsOnly [withCRC (initialPacket ⟨[], 0, []⟩ [0x61] 2) PACKET_128B_SIZE] header ∧
        SendsOnly [[EOT], dataFrame 0 (List.replicate PACKET_128B_SIZE 0)] closing :=
  ⟨_, rfl, ymodemTransmit_trace ⟨[], 0, []⟩ [7, 8] [0x61] 2
    [none, some ACK, some NAK, some ACK, some ACK, some ACK, some ACK] _ (by decide) rfl⟩

end BigBox.Ymodem
