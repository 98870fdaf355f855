import BigBox.Tftp.Client

namespace BigBox.Tftp
set_option autoImplicit true

namespace Session
variable {s s' : Session}

/-- Two sessions are at the same place of the same transfer. -/
structure Agrees (s' s : Session) : Prop where
  send_buffer : s'.send_buffer = s.send_buffer
  expected_blck_num : s'.expected_blck_num = s.expected_blck_num
  data_size : s'.data_size = s.data_size
  file : s'.file = s.file
  dest_tid : s'.dest_tid = s.dest_tid

/-- The client ends with its file as it is and without a packet of the transfer loop, and completes
only if `done`. -/
def Ends (s : Session) (done : Prop) (turn : Turn) : Prop :=
  ∃ outcome t sent, turn = (.ended outcome t, sent) ∧ (outcome = .completed → done) ∧
    t.file = s.file ∧ ∀ p ∈ sent, p.site ≠ .loop ∧ p.packet.addr = s.other_addr

theorem Ends.mono (h : s.Ends done turn) (himp : done → done') : s.Ends done' turn := by
  obtain ⟨outcome, t, sent, hturn, hdone, hfile, hsent⟩ := h
  exact ⟨outcome, t, sent, hturn, fun ho => himp (hdone ho), hfile, hsent⟩

theorem Ends.of_file (h : s'.Ends done turn) (hfile : s'.file = s.file)
    (haddr : s'.other_addr = s.other_addr) : s.Ends done turn := by
  obtain ⟨outcome, t, sent, hturn, hdone, hsame, hsent⟩ := h
  exact ⟨outcome, t, sent, hturn, hdone, hsame.trans hfile, haddr ▸ hsent⟩

theorem ends_error (s : Session) {t : Session} (houtcome : outcome ≠ .completed)
    (hfile : t.file = s.file)
    (haddr : t.other_addr = s.other_addr) :
    s.Ends False (.ended outcome t, [t.send .error size]) := by
  refine ⟨outcome, t, _, rfl, fun h => houtcome h, hfile, fun p hp => ?_⟩
  rw [List.mem_singleton.1 hp]
  exact ⟨fun h => (nomatch h), haddr⟩

theorem ends_silent (s : Session) {t : Session} (houtcome : outcome ≠ .completed)
    (hfile : t.file = s.file) :
    s.Ends False (.ended outcome t, []) :=
  ⟨outcome, t, [], rfl, fun h => houtcome h, hfile, fun _ hp => (List.not_mem_nil hp).elim⟩

theorem giveUp_ends (s : Session) : s.Ends False s.giveUp := by
  apply s.ends_error _ rfl rfl
  intro h
  cases h

theorem loopEnd_gaveUp (req : Request) (h : s.timeout_tries = 0 ∨ s.err_blck_tries = 0) :
    s.Ends False (s.loopEnd req) := by
  rw [loopEnd.eq_def, if_pos h]
  exact s.giveUp_ends

theorem loopEnd_ends (req : Request) (s : Session) : s.Ends True (s.loopEnd req) := by
  by_cases h : s.timeout_tries = 0 ∨ s.err_blck_tries = 0
  · exact (loopEnd_gaveUp req h).mono False.elim
  · rw [loopEnd.eq_def, if_neg h]
    cases req with
    | rrq =>
      refine ⟨.completed, _, _, rfl, fun _ => trivial, rfl, fun p hp => ?_⟩
      rw [List.mem_singleton.1 hp]
      exact ⟨fun h => (nomatch h), rfl⟩
    | wrq =>
      exact ⟨.completed, _, _, rfl, fun _ => trivial, rfl, fun _ hp => (List.not_mem_nil hp).elim⟩

/-- The transfer loop ends, or sends and waits. -/
theorem loopHead_cases (req : Request) (s : Session) :
    s.Ends (req.goes s.data_size = false) (s.loopHead req) ∨
      req.goes s.data_size = true ∧ ∃ tries, tries ≠ 0 ∧ (s.rv = false → tries = MAX_TRIES) ∧
        let t := { s with rv := false, err_blck_tries := tries, timeout_tries := MAX_TRIES }
        s.loopHead req = (.transferring t, [t.send .loop (req.size s.data_size)]) := by
  rw [loopHead]
  by_cases hgoes : req.goes s.data_size = true
  · rw [if_pos hgoes]
    by_cases htries : (if s.rv then s.err_blck_tries - 1 else MAX_TRIES) = 0
    · refine .inl ?_
      simp only [if_pos htries]
      exact ((loopEnd_gaveUp req (.inr htries)).mono False.elim).of_file rfl rfl
    · refine .inr ⟨hgoes, _, htries, fun hrv => ?_, ?_⟩
      · rw [hrv]
        rfl
      · simp only [if_neg htries]
  · rw [if_neg hgoes]
    exact .inl ((s.loopEnd_ends req).mono fun _ => Bool.eq_false_iff.2 hgoes)

theorem loopHead_sends (req : Request) (hgoes : req.goes s.data_size = true) (hrv : s.rv = false) :
    ∃ t, t.Agrees s ∧ t.rv = false ∧ t.err_blck_tries = MAX_TRIES ∧ t.timeout_tries = MAX_TRIES ∧
      s.loopHead req = (.transferring t, [t.send .loop (req.size t.data_size)]) := by
  refine ⟨{ s with rv := false, err_blck_tries := MAX_TRIES, timeout_tries := MAX_TRIES },
    ⟨rfl, rfl, rfl, rfl, rfl⟩, rfl, rfl, rfl, ?_⟩
  rw [loopHead, if_pos hgoes, hrv]
  rfl

/-- What a packet from the right port leads to. -/
theorem loopPacket_cases (req : Request) (s : Session) (reclength : Nat) :
    s.Ends False (s.loopPacket req reclength) ∨
      ∃ pckt, s.loopPacket req reclength = { s with pckt }.loopHead req ∨
        s.loopPacket req reclength = { s with pckt }.accept req reclength := by
  rw [loopPacket]
  match parserRawPacket s.recv_buffer.val reclength s.pckt with
  | none =>
    refine .inl (s.ends_silent ?_ rfl)
    intro h
    cases h
  | some (false, pckt) =>
    refine .inl (s.ends_error ?_ rfl rfl)
    intro h
    cases h
  | some (true, pckt) =>
    by_cases hopcode : pckt.opcode ≠ req.answer
    · simp only [if_pos hopcode]
      by_cases herror : pckt.opcode = TFTP_CMD_ERROR
      · simp only [if_pos herror]
        by_cases hcode : pckt.error_code = TFTP_ERR_UNKNOWN_TID
        · simp only [if_pos hcode]
          exact .inr ⟨pckt, .inl rfl⟩
        · simp only [if_neg hcode]
          refine .inl (s.ends_silent ?_ rfl)
          intro h
          cases h
      · simp only [if_neg herror]
        refine .inl (s.ends_error ?_ rfl rfl)
        intro h
        cases h
    · simp only [if_neg hopcode]
      exact .inr ⟨pckt, .inr rfl⟩

/-- The address a call of `recvfrom` leaves in `other_addr`. -/
def source (s : Session) (r : Option Datagram) : Addr := r.elim s.other_addr Datagram.addr

/-- What a round of the transfer loop can do: end, send again, or go on with an accepted packet. -/
theorem loopReceive_cases (req : Request) (s : Session) (r : Option Datagram) :
    ∃ s₁ errors, s₁.Agrees s ∧ s₁.other_addr = s.source r ∧
      (∀ p ∈ errors, p.site = .error ∧ p.packet.addr = s.source r ∧
        ∃ rest, p.packet.bytes = 0 :: 5 :: rest) ∧
      (s₁.Ends False (s.loopReceive req r) ∨
        s.loopReceive req r = (.transferring s₁, [s₁.send .loop (req.size s₁.data_size)]) ∨
        s.loopReceive req r = ((s₁.loopHead req).1, errors ++ (s₁.loopHead req).2) ∨
        ∃ d reclength, r = some d ∧ s.dest_tid = d.addr.port ∧
          s.loopReceive req r = s₁.accept req reclength) := by
  have hnil : ∀ p ∈ ([] : List Sent), p.site = .error ∧ p.packet.addr = s.source r ∧
      ∃ rest, p.packet.bytes = 0 :: 5 :: rest := fun _ hp => (List.not_mem_nil hp).elim
  cases r with
  | none =>
    refine ⟨{ s with timeout_tries := s.timeout_tries - 1 }, [], ⟨rfl, rfl, rfl, rfl, rfl⟩, rfl,
      hnil,
      ?_⟩
    rw [loopReceive]
    by_cases htimeout : s.timeout_tries - 1 = 0
    · simp only [if_pos htimeout]
      exact .inl (loopEnd_gaveUp req (.inl htimeout))
    · exact .inr (.inl (if_neg htimeout))
  | some d =>
    rw [loopReceive]
    by_cases htimeout : (s.received d).timeout_tries = 0
    · refine ⟨s.received d, [], ⟨rfl, rfl, rfl, rfl, rfl⟩, rfl, hnil, ?_⟩
      simp only [if_pos htimeout]
      exact .inl (loopEnd_gaveUp req (.inl htimeout))
    · simp only [if_neg htimeout]
      by_cases hport : (s.received d).dest_tid ≠ (s.received d).other_addr.port
      · simp only [if_pos hport]
        refine ⟨{ s.received d with
          recv_buffer := errorPackage TFTP_ERR_UNKNOWN_TID (message "Unknown TID")
            (s.received d).recv_buffer
          rv := true }, [_], ⟨rfl, rfl, rfl, rfl, rfl⟩, rfl, fun p hp => ?_, .inr (.inr (.inl rfl))⟩
        rw [List.mem_singleton.1 hp]
        exact ⟨rfl, rfl, errorPackage_head _ (by decide) (by decide) (by decide)⟩
      · simp only [if_neg hport]
        rcases loopPacket_cases req (s.received d) (min d.bytes.length BUF_SIZE) with
          hends | ⟨pckt, hhead | haccept⟩
        · exact ⟨s.received d, [], ⟨rfl, rfl, rfl, rfl, rfl⟩, rfl, hnil, .inl hends⟩
        · exact ⟨{ s.received d with pckt }, [], ⟨rfl, rfl, rfl, rfl, rfl⟩, rfl, hnil,
            .inr (.inr (.inl hhead))⟩
        · exact ⟨{ s.received d with pckt }, [], ⟨rfl, rfl, rfl, rfl, rfl⟩, rfl, hnil,
            .inr (.inr (.inr ⟨d, _, rfl, not_not.1 hport, haccept⟩))⟩

/-- What a packet in the request loop leads to: the end, another request, or the transfer. -/
theorem requestPacket_cases (req : Request) (tries : Nat) (s : Session) (reclength : Nat) :
    s.Ends False (s.requestPacket req tries reclength) ∨
      ∃ t, t.expected_blck_num = s.expected_blck_num ∧ t.file = s.file ∧
        (s.requestPacket req tries reclength = (.requesting t, [t.send .request BUF_SIZE]) ∨
          s.requestPacket req tries reclength = t.established req reclength) := by
  induction tries generalizing s with
  | zero => exact .inl s.giveUp_ends
  | succ tries ih =>
    rw [requestPacket]
    match parserRawPacket s.recv_buffer.val reclength s.pckt with
    | none =>
      refine .inl (s.ends_silent ?_ rfl)
      intro h
      cases h
    | some (false, pckt) =>
      refine .inl (s.ends_error ?_ rfl rfl)
      intro h
      cases h
    | some (true, pckt) =>
      by_cases hopcode : pckt.opcode ≠ req.answer
      · simp only [if_pos hopcode]
        by_cases herror : pckt.opcode = TFTP_CMD_ERROR
        · simp only [if_pos herror]
          refine .inl (s.ends_silent ?_ rfl)
          intro h
          cases h
        · simp only [if_neg herror]
          refine .inl (s.ends_error ?_ rfl rfl)
          intro h
          cases h
      · simp only [if_neg hopcode]
        by_cases hnumber : (s.expected_blck_num : Int) ≠ pckt.block_number ∧ tries ≠ 0
        · simp only [if_pos hnumber]
          cases req with
          | rrq =>
            exact .inr ⟨{ s with pckt, err_blck_tries := tries, timeout_tries := MAX_TRIES }, rfl,
              rfl,
              .inl rfl⟩
          | wrq =>
            rcases ih { s with pckt, err_blck_tries := tries, timeout_tries := MAX_TRIES } with
              hends | ⟨t, hnum, hfile, hturn⟩
            · exact .inl (hends.of_file rfl rfl)
            · exact .inr ⟨t, hnum, hfile, hturn⟩
        · simp only [if_neg hnumber]
          by_cases htries : tries = 0
          · simp only [if_pos htries]
            refine .inl (s.ends_error ?_ rfl rfl)
            intro h
            cases h
          · simp only [if_neg htries]
            exact .inr ⟨{ s with pckt, err_blck_tries := tries }, rfl, rfl, .inr rfl⟩

/-- A round of the request loop. -/
theorem requestReceive_cases (req : Request) (s : Session) (r : Option Datagram) :
    (∃ t : Session, t.file = s.file ∧ t.Ends False (s.requestReceive req r)) ∨
      ∃ t, t.expected_blck_num = s.expected_blck_num ∧ t.file = s.file ∧
        (s.requestReceive req r = (.requesting t, [t.send .request BUF_SIZE]) ∨
          ∃ reclength, s.requestReceive req r = t.established req reclength) := by
  cases r with
  | none =>
    by_cases htimeout : s.timeout_tries - 1 = 0
    · rw [requestReceive]
      simp only [if_pos htimeout]
      exact .inl ⟨{ s with timeout_tries := s.timeout_tries - 1 }, rfl, giveUp_ends _⟩
    · exact .inr ⟨{ s with timeout_tries := s.timeout_tries - 1 }, rfl, rfl, .inl (if_neg htimeout)⟩
  | some d =>
    by_cases htimeout : (s.received d).timeout_tries = 0
    · rw [requestReceive]
      simp only [if_pos htimeout]
      exact .inl ⟨s.received d, rfl, giveUp_ends _⟩
    · have hturn : s.requestReceive req (some d) = (s.received d).requestPacket req s.err_blck_tries
          (min d.bytes.length BUF_SIZE) := if_neg htimeout
      rw [hturn]
      rcases requestPacket_cases req s.err_blck_tries (s.received d) (min d.bytes.length BUF_SIZE)
        with hends | ⟨t, hnum, hfile, hrequest | hestablished⟩
      · exact .inl ⟨s.received d, rfl, hends⟩
      · exact .inr ⟨t, hnum, hfile, .inl hrequest⟩
      · exact .inr ⟨t, hnum, hfile, .inr ⟨_, hestablished⟩⟩

/-- The last try ends the loop whatever it brings. -/
theorem loopReceive_timeout (req : Request) (h : s.timeout_tries - 1 = 0) (r : Option Datagram) :
    ∃ t : Session, t.file = s.file ∧ t.Ends False (s.loopReceive req r) := by
  cases r with
  | none =>
    refine ⟨{ s with timeout_tries := s.timeout_tries - 1 }, rfl, ?_⟩
    rw [loopReceive]
    simp only [if_pos h]
    exact loopEnd_gaveUp req (.inl h)
  | some d =>
    refine ⟨s.received d, rfl, ?_⟩
    have hturn : s.loopReceive req (some d) = (s.received d).loopEnd req := if_pos h
    rw [hturn]
    exact loopEnd_gaveUp req (.inl h)

theorem requestReceive_timeout (req : Request)
    (h : s.timeout_tries - 1 = 0 ∨ s.err_blck_tries = 0) (d : Datagram) :
    (s.received d).Ends False (s.requestReceive req (some d)) := by
  by_cases htimeout : s.timeout_tries - 1 = 0
  · have hturn : s.requestReceive req (some d) = (s.received d).giveUp := if_pos htimeout
    rw [hturn]
    exact (s.received d).giveUp_ends
  · have hturn : s.requestReceive req (some d) = (s.received d).requestPacket req s.err_blck_tries
        (min d.bytes.length BUF_SIZE) := if_neg htimeout
    rw [hturn, h.resolve_left htimeout]
    exact (s.received d).giveUp_ends

/-- A datagram from the right port with a packet of the type the loop waits for. -/
theorem loopReceive_of_parse (req : Request) {d : Datagram} {pckt : Packet}
    (htries : s.timeout_tries - 1 ≠ 0)
    (hport : s.dest_tid = d.addr.port) (hlen : d.bytes.length ≤ BUF_SIZE)
    (hparse : parserRawPacket (s.recv_buffer.store d.bytes).val d.bytes.length s.pckt =
      some (true, pckt)) (hopcode : pckt.opcode = req.answer) :
    ∃ t : Session, t.Agrees s ∧ t.pckt = pckt ∧ t.rv = s.rv ∧ t.err_blck_tries = s.err_blck_tries ∧
      t.timeout_tries = s.timeout_tries - 1 ∧
      s.loopReceive req (some d) = t.accept req d.bytes.length := by
  have hturn : s.loopReceive req (some d) =
      (s.received d).loopPacket req (min d.bytes.length BUF_SIZE) := by
    rw [loopReceive]
    simp only [received, if_neg htries, hport, ne_eq, not_true_eq_false, if_false]
  refine ⟨{ s.received d with pckt }, ⟨rfl, rfl, rfl, rfl, rfl⟩, rfl, rfl, rfl, rfl, ?_⟩
  rw [hturn, loopPacket, Nat.min_eq_left hlen]
  simp only [received, List.take_of_length_le hlen, hparse, hopcode, ne_eq, not_true_eq_false,
    if_false]

/-- A datagram with the packet the request loop waits for. -/
theorem requestReceive_of_parse (req : Request) {d : Datagram} {pckt : Packet}
    (htries : s.timeout_tries - 1 ≠ 0)
    (herr : s.err_blck_tries = tries + 1) (hlen : d.bytes.length ≤ BUF_SIZE)
    (hparse : parserRawPacket (s.recv_buffer.store d.bytes).val d.bytes.length s.pckt =
      some (true, pckt)) (hopcode : pckt.opcode = req.answer)
    (hnumber : pckt.block_number = s.expected_blck_num) :
    ∃ t : Session, t.Agrees s ∧ t.pckt = pckt ∧ t.other_addr = d.addr ∧ t.err_blck_tries = tries ∧
      t.timeout_tries = s.timeout_tries - 1 ∧ s.requestReceive req (some d) =
        if tries = 0 then t.giveUp else t.established req d.bytes.length := by
  have hturn : s.requestReceive req (some d) =
      (s.received d).requestPacket req (tries + 1) (min d.bytes.length BUF_SIZE) := by
    have hsame : (s.received d).err_blck_tries = tries + 1 := herr
    rw [requestReceive, hsame]
    exact if_neg htries
  refine ⟨{ s.received d with pckt, err_blck_tries := tries }, ⟨rfl, rfl, rfl, rfl, rfl⟩, rfl, rfl,
    rfl, rfl, ?_⟩
  rw [hturn, requestPacket, Nat.min_eq_left hlen]
  simp only [received, List.take_of_length_le hlen, hparse, hopcode, hnumber, ne_eq,
    not_true_eq_false, if_false, false_and]

end Session

end BigBox.Tftp
