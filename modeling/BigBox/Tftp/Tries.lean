import BigBox.Tftp.Rounds

namespace BigBox.Tftp
set_option autoImplicit true

/-- The timeouts in a row, and the wrong packets since the current packet is due. -/
structure Tally where
  waits : Nat
  wrong : Nat

def Tally.count (tally : Tally) (expected : Bool) : Option Datagram → Tally
  | none => ⟨tally.waits + 1, tally.wrong⟩
  | some _ => if expected then ⟨0, 0⟩ else ⟨0, tally.wrong + 1⟩

/-- The tries for the current packet are used up. -/
def Tally.Spent (tally : Tally) : Prop := MAX_TRIES ≤ tally.waits ∨ MAX_TRIES ≤ tally.wrong

namespace Session

/-- The packet in the buffer, if it is of the type that the loop waits for. -/
def answer (req : Request) (s : Session) (reclength : Nat) : Option Packet :=
  match parserRawPacket s.recv_buffer.val reclength s.pckt with
  | some (true, pckt) => if pckt.opcode = req.answer then some pckt else none
  | _ => none

/-- A datagram brings the answer of a number. -/
def brings (req : Request) (s : Session) (number : Nat) (d : Datagram) : Bool :=
  match (s.received d).answer req (min d.bytes.length BUF_SIZE) with
  | some pckt => (number : Int) = pckt.block_number
  | none => false

/-- The number that the transfer loop waits for. -/
def due (req : Request) (s : Session) : Nat :=
  match req with
  | .rrq => (s.expected_blck_num + 1) % 65536
  | .wrq => s.expected_blck_num

end Session

/-- What `recvfrom` returns is the packet the client waits for. -/
def Client.expects (req : Request) : Client → Option Datagram → Bool
  | .requesting s, some d => s.brings req s.expected_blck_num d
  | .transferring s, some d => s.dest_tid = d.addr.port ∧ s.brings req (s.due req) d
  | _, _ => false

/-- The number of the packet that follows. -/
def Client.following (req : Request) : Client → Nat
  | .requesting s =>
    match req with
    | .rrq => s.expected_blck_num
    | .wrq => s.expected_blck_num + 1
  | .transferring s => (s.expected_blck_num + 1) % 65536
  | .ended _ s => s.expected_blck_num

/-- The transfer is completed, or goes on with the packet that follows. -/
def Accepted (req : Request) (client next : Client) : Prop :=
  (∃ t, next = .ended .completed t) ∨
    ∃ t, next = .transferring t ∧ t.expected_blck_num = client.following req

def GaveUp (client : Client) : Prop := ∃ t, client = .ended .gaveUp t

/-- The client gives up only if the tries are used up, and accepts the packet it waits for. -/
def OnlyExhausted (req : Request) : Client → Tally → List (Option Datagram) → Prop
  | _, _, [] => True
  | client, tally, r :: returns =>
    let next := (client.step req r).1
    let tally' := tally.count (client.expects req r) r
    ((¬GaveUp client → GaveUp next → tally'.Spent) ∧
        (client.expects req r = true → Accepted req client next)) ∧
      OnlyExhausted req next tally' returns

/-- The last wait brings nothing, or the last wrong packet. -/
def Tally.InTime (tally : Tally) (expected : Bool) : Prop :=
  tally.waits + 1 = MAX_TRIES → expected = false ∧ MAX_TRIES ≤ tally.wrong + 1

/-- A request is answered before its last try, and a write request by no other number. -/
def Client.InTime (req : Request) (tally : Tally) : Client → Option Datagram → Prop
  | .requesting s, some d =>
    tally.InTime (s.brings req s.expected_blck_num d) ∧
      (s.brings req s.expected_blck_num d = true → tally.wrong + 1 ≠ MAX_TRIES) ∧
        (req = .wrq → (s.received d).answer req (min d.bytes.length BUF_SIZE) ≠ none →
          s.brings req s.expected_blck_num d = true)
  | .transferring s, some d =>
    tally.InTime (s.dest_tid = d.addr.port ∧ s.brings req (s.due req) d)
  | _, _ => True

/-- Every datagram of a run comes in time. -/
def InTime (req : Request) : Client → Tally → List (Option Datagram) → Prop
  | _, _, [] => True
  | client, tally, r :: returns =>
    client.InTime req tally r ∧
      InTime req (client.step req r).1 (tally.count (client.expects req r) r) returns

/-- The counters of the client against the tally. -/
def Counted (req : Request) (tally : Tally) : Client → Prop
  | .requesting s =>
    s.timeout_tries ≠ 0 ∧ s.timeout_tries + tally.waits = MAX_TRIES ∧
      s.err_blck_tries ≠ 0 ∧ s.err_blck_tries + tally.wrong = MAX_TRIES ∧
        (req = .wrq → tally.wrong = 0)
  | .transferring s =>
    s.timeout_tries ≠ 0 ∧ s.timeout_tries + tally.waits = MAX_TRIES ∧
      s.err_blck_tries ≠ 0 ∧ MAX_TRIES ≤ s.err_blck_tries + tally.wrong ∧
        s.rv = false ∧ req.goes s.data_size = true
  | .ended _ _ => True

/-- The counters are kept, and the tries are used up where the client gives up. -/
def Counts (req : Request) (tally : Tally) (next : Client) : Prop :=
  Counted req tally next ∧ (GaveUp next → tally.Spent)

namespace Session
variable {s : Session} {req : Request} {tally : Tally} {pckt : Packet} {wrong reclength : Nat}

theorem parse_of_answer (h : s.answer req reclength = some pckt) :
    parserRawPacket s.recv_buffer.val reclength s.pckt = some (true, pckt) ∧
      pckt.opcode = req.answer := by
  rw [answer] at h
  cases hparse : parserRawPacket s.recv_buffer.val reclength s.pckt with
  | none =>
    rw [hparse] at h
    cases h
  | some parsed =>
    obtain ⟨ok, other⟩ := parsed
    rw [hparse] at h
    cases ok with
    | false => cases h
    | true =>
      obtain ⟨hopcode, hsame⟩ := Option.ite_none_right_eq_some.1 h
      cases hsame
      exact ⟨rfl, hopcode⟩

theorem answer_of_parse
    (h : parserRawPacket s.recv_buffer.val reclength s.pckt = some (true, pckt))
    (hopcode : pckt.opcode = req.answer) : s.answer req reclength = some pckt := by
  rw [answer, h]
  exact if_pos hopcode

theorem counts_ended (h : outcome ≠ .gaveUp) (t : Session) :
    Counts req tally (.ended outcome t) := by
  refine ⟨trivial, ?_⟩
  rintro ⟨t', heq⟩
  cases heq
  exact absurd rfl h

theorem gaveUp_of_loopEnd (req : Request) (h : s.timeout_tries = 0 ∨ s.err_blck_tries = 0) :
    GaveUp (s.loopEnd req).1 := by
  rw [loopEnd.eq_def, if_pos h]
  exact ⟨_, rfl⟩

theorem loopEnd_completed (req : Request) (htimeout : s.timeout_tries ≠ 0)
    (herr : s.err_blck_tries ≠ 0) :
    ∃ t, (s.loopEnd req).1 = .ended .completed t := by
  rw [loopEnd.eq_def, if_neg (not_or.2 ⟨htimeout, herr⟩)]
  cases req with
  | rrq => exact ⟨_, rfl⟩
  | wrq => exact ⟨_, rfl⟩

/-- Behind a wrong packet the loop goes on if there is a try left. -/
theorem loopHead_counts (hgoes : req.goes s.data_size = true)
    (hwrong : MAX_TRIES ≤ s.err_blck_tries + wrong) :
    Counts req ⟨0, wrong + 1⟩ (s.loopHead req).1 := by
  rw [loopHead, if_pos hgoes]
  by_cases htries : (if s.rv then s.err_blck_tries - 1 else MAX_TRIES) = 0
  · simp only [if_pos htries]
    obtain ⟨t, ht⟩ := gaveUp_of_loopEnd req (s := { s with
        rv := false
        err_blck_tries := if s.rv then s.err_blck_tries - 1 else MAX_TRIES })
      (.inr htries)
    rw [ht]
    refine ⟨trivial, fun _ => .inr ?_⟩
    cases hrv : s.rv with
    | false =>
      rw [hrv] at htries
      cases htries
    | true =>
      rw [hrv, if_pos rfl] at htries
      change MAX_TRIES ≤ wrong + 1
      omega
  · simp only [if_neg htries]
    refine ⟨⟨Nat.succ_ne_zero 4, rfl, htries, ?_, rfl, hgoes⟩, ?_⟩
    · change MAX_TRIES ≤ (if s.rv then s.err_blck_tries - 1 else MAX_TRIES) + (wrong + 1)
      split <;> omega
    · rintro ⟨t, ht⟩
      cases ht

/-- Behind the right packet the transfer is completed, or every try is left. -/
theorem loopHead_fresh (req : Request) (hrv : s.rv = false) (htimeout : s.timeout_tries ≠ 0)
    (herr : s.err_blck_tries ≠ 0) :
    Counts req ⟨0, 0⟩ (s.loopHead req).1 ∧
      ((∃ t, (s.loopHead req).1 = .ended .completed t) ∨
        ∃ t, (s.loopHead req).1 = .transferring t ∧ t.expected_blck_num = s.expected_blck_num) := by
  cases hgoes : req.goes s.data_size with
  | false =>
    rw [loopHead, if_neg (ne_true_of_eq_false hgoes)]
    obtain ⟨t, ht⟩ := loopEnd_completed req htimeout herr
    rw [ht]
    exact ⟨counts_ended Outcome.noConfusion t, .inl ⟨t, rfl⟩⟩
  | true =>
    obtain ⟨t, hagrees, hfresh, hmax, hwait, hturn⟩ := loopHead_sends req hgoes hrv
    rw [hturn]
    refine ⟨⟨⟨?_, ?_, ?_, ?_, hfresh, ?_⟩, ?_⟩, .inr ⟨t, rfl, hagrees.expected_blck_num⟩⟩
    · rw [hwait]
      decide
    · exact hwait
    · rw [hmax]
      decide
    · rw [hmax]
      exact Nat.le_add_right _ _
    · rw [hagrees.data_size]
      exact hgoes
    · rintro ⟨t', ht'⟩
      cases ht'

/-- A timeout. -/
theorem loopReceive_none (h : Counted req tally (.transferring s)) :
    Counts req (tally.count false none) (s.loopReceive req none).1 := by
  obtain ⟨htimeout, hwaits, herr, hwrong, hrv, hgoes⟩ := h
  rw [loopReceive]
  by_cases hlast : s.timeout_tries - 1 = 0
  · simp only [if_pos hlast]
    obtain ⟨t, ht⟩ := gaveUp_of_loopEnd req
      (s := { s with timeout_tries := s.timeout_tries - 1 }) (.inl hlast)
    rw [ht]
    refine ⟨trivial, fun _ => .inl ?_⟩
    change MAX_TRIES ≤ tally.waits + 1
    omega
  · simp only [if_neg hlast]
    refine ⟨⟨hlast, ?_, herr, hwrong, hrv, hgoes⟩, ?_⟩
    · change s.timeout_tries - 1 + (tally.waits + 1) = MAX_TRIES
      omega
    · rintro ⟨t, ht⟩
      cases ht

theorem loopReceive_last (req : Request) (hlast : s.timeout_tries - 1 = 0) (d : Datagram) :
    GaveUp (s.loopReceive req (some d)).1 := by
  have hturn : s.loopReceive req (some d) = (s.received d).loopEnd req := if_pos hlast
  rw [hturn]
  exact gaveUp_of_loopEnd req (.inl hlast)

theorem accept_wrong (hgoes : req.goes s.data_size = true)
    (hwrong : MAX_TRIES ≤ s.err_blck_tries + wrong) (hnumber : s.pckt.block_number ≠ s.due req) :
    Counts req ⟨0, wrong + 1⟩ (s.accept req reclength).1 := by
  cases req with
  | rrq =>
    rw [due] at hnumber
    rw [accept, acceptData, if_neg hnumber]
    exact loopHead_counts (s := { s with rv := true }) hgoes hwrong
  | wrq =>
    rw [due] at hnumber
    rw [accept, acceptAck, if_neg hnumber]
    exact loopHead_counts hgoes hwrong

/-- The packet of the number that is due. -/
theorem accept_right (hrv : s.rv = false) (htimeout : s.timeout_tries ≠ 0)
    (herr : s.err_blck_tries ≠ 0) (hnumber : s.pckt.block_number = s.due req) :
    Counts req ⟨0, 0⟩ (s.accept req reclength).1 ∧
      Accepted req (.transferring s) (s.accept req reclength).1 := by
  cases req with
  | rrq =>
    rw [due] at hnumber
    rw [accept, acceptData, if_pos hnumber]
    exact loopHead_fresh .rrq hrv htimeout herr
  | wrq =>
    rw [due] at hnumber
    rw [accept, acceptAck, if_pos hnumber]
    split
    case isTrue =>
      obtain ⟨t, ht⟩ := loopEnd_completed .wrq htimeout herr
      rw [ht]
      exact ⟨counts_ended Outcome.noConfusion t, .inl ⟨t, rfl⟩⟩
    case isFalse =>
      exact loopHead_fresh .wrq
        (s := { s with expected_blck_num := (s.expected_blck_num + 1) % 65536 }.nextData)
        hrv htimeout herr

theorem loopPacket_answer (h : s.answer req reclength = some pckt) :
    s.loopPacket req reclength = { s with pckt := pckt }.accept req reclength := by
  obtain ⟨hparse, hopcode⟩ := parse_of_answer h
  rw [loopPacket, hparse]
  exact if_neg (not_not_intro hopcode)

/-- A packet of another type. -/
theorem loopPacket_other (hgoes : req.goes s.data_size = true)
    (hwrong : MAX_TRIES ≤ s.err_blck_tries + wrong) (h : s.answer req reclength = none) :
    Counts req ⟨0, wrong + 1⟩ (s.loopPacket req reclength).1 := by
  rw [loopPacket]
  cases hparse : parserRawPacket s.recv_buffer.val reclength s.pckt with
  | none => exact counts_ended Outcome.noConfusion _
  | some parsed =>
    obtain ⟨ok, other⟩ := parsed
    cases ok with
    | false => exact counts_ended Outcome.noConfusion _
    | true =>
      have hopcode : other.opcode ≠ req.answer := by
        intro hsame
        rw [answer_of_parse hparse hsame] at h
        cases h
      simp only [if_pos hopcode]
      split
      case isTrue =>
        split
        case isTrue => exact loopHead_counts hgoes hwrong
        case isFalse => exact counts_ended Outcome.noConfusion _
      case isFalse => exact counts_ended Outcome.noConfusion _

/-- A datagram before the last wait. -/
theorem loopReceive_some (h : Counted req tally (.transferring s)) (hmore : s.timeout_tries - 1 ≠ 0)
    (d : Datagram) :
    let next := (s.loopReceive req (some d)).1
    let expected := Client.expects req (.transferring s) (some d)
    Counts req (tally.count expected (some d)) next ∧
      (expected = true → Accepted req (.transferring s) next) := by
  obtain ⟨htimeout, hwaits, herr, hwrong, hrv, hgoes⟩ := h
  have hleft : (s.received d).timeout_tries ≠ 0 := hmore
  rw [loopReceive]
  simp only [if_neg hleft, Client.expects, Tally.count]
  by_cases hport : s.dest_tid = d.addr.port
  case neg =>
    have hother : (s.received d).dest_tid ≠ (s.received d).other_addr.port := hport
    simp only [if_pos hother, hport, false_and, decide_false, Bool.false_eq_true, if_false,
      false_implies, and_true]
    exact loopHead_counts hgoes hwrong
  case pos =>
    have hsame : ¬(s.received d).dest_tid ≠ (s.received d).other_addr.port := not_not_intro hport
    simp only [if_neg hsame, hport, true_and, Bool.decide_eq_true, brings]
    cases hanswer : (s.received d).answer req (min d.bytes.length BUF_SIZE) with
    | none =>
      refine ⟨loopPacket_other hgoes hwrong hanswer, ?_⟩
      intro hfalse
      cases hfalse
    | some pckt =>
      rw [loopPacket_answer hanswer]
      by_cases hnumber : (s.due req : Int) = pckt.block_number
      · simp only [hnumber, decide_true, if_true, true_implies]
        exact accept_right hrv hleft herr hnumber.symm
      · simp only [hnumber, decide_false, Bool.false_eq_true, if_false, false_implies, and_true]
        exact accept_wrong hgoes hwrong (Ne.symm hnumber)

theorem requestPacket_answer (h : s.answer req reclength = some pckt) (tries : Nat) :
    s.requestPacket req (tries + 1) reclength =
      let s := { s with pckt := pckt, err_blck_tries := tries }
      if (s.expected_blck_num : Int) ≠ pckt.block_number ∧ tries ≠ 0 then
        let s := { s with timeout_tries := MAX_TRIES }
        match req with
        | .rrq => (.requesting s, [s.send .request BUF_SIZE])
        | .wrq => s.requestPacket .wrq tries reclength
      else if tries = 0 then s.giveUp
      else s.established req reclength := by
  obtain ⟨hparse, hopcode⟩ := parse_of_answer h
  rw [requestPacket, hparse]
  dsimp only
  rw [if_neg (not_not_intro hopcode)]
  cases req <;> rfl

theorem requestPacket_other (h : s.answer req reclength = none) (tries : Nat) :
    Counts req tally (s.requestPacket req (tries + 1) reclength).1 := by
  rw [requestPacket]
  cases hparse : parserRawPacket s.recv_buffer.val reclength s.pckt with
  | none => exact counts_ended Outcome.noConfusion _
  | some parsed =>
    obtain ⟨ok, other⟩ := parsed
    cases ok with
    | false => exact counts_ended Outcome.noConfusion _
    | true =>
      have hopcode : other.opcode ≠ req.answer := by
        intro hsame
        rw [answer_of_parse hparse hsame] at h
        cases h
      simp only [if_pos hopcode]
      split
      case isTrue => exact counts_ended Outcome.noConfusion _
      case isFalse => exact counts_ended Outcome.noConfusion _

theorem parse_again {buffer : List UInt8} {blen : Int} {parsed : Packet}
    (h : parserRawPacket buffer blen pckt = some (true, parsed))
    (hopcode : parsed.opcode = TFTP_CMD_ACK) :
    parserRawPacket buffer blen parsed = some (true, parsed) := by
  rw [parserRawPacket] at h ⊢
  split at h
  case isTrue => cases h
  case isFalse hzero =>
    rw [if_neg hzero]
    dsimp only at h ⊢
    split at h
    case isTrue => cases h
    case isFalse hrrq =>
      rw [if_neg hrrq]
      split at h
      case isTrue => cases h
      case isFalse hwrq =>
        rw [if_neg hwrq]
        split at h
        case isTrue hdata =>
          rw [createDataPacketFromRaw] at h
          split at h <;> cases h
          cases hopcode
        case isFalse hdata =>
          rw [if_neg hdata]
          split at h
          case isTrue hack =>
            rw [if_pos hack]
            rw [createAckPacketFromRaw] at h ⊢
            split at h
            case isTrue => cases h
            case isFalse hlen =>
              rw [if_neg hlen]
              cases h
              rfl
          case isFalse hack =>
            split at h
            case isTrue herror =>
              rw [createErrorPacketFromRaw] at h
              split at h
              case isTrue => cases h
              case isFalse =>
                dsimp only at h
                split at h <;> cases h
                cases hopcode
            case isFalse => cases h

/-- A write request that another number answers goes through its tries at once. -/
theorem requestPacket_again (h : s.answer .wrq reclength = some pckt)
    (hnumber : (s.expected_blck_num : Int) ≠ pckt.block_number) (tries : Nat) :
    GaveUp (s.requestPacket .wrq tries reclength).1 := by
  induction tries generalizing s with
  | zero => exact ⟨_, rfl⟩
  | succ tries ih =>
    rw [requestPacket_answer h]
    by_cases htries : tries = 0
    · simp only [htries, ne_eq, not_true_eq_false, and_false, if_false, if_true]
      exact ⟨_, rfl⟩
    · simp only [hnumber, htries, ne_eq, not_false_eq_true, and_self, if_true]
      obtain ⟨hparse, hopcode⟩ := parse_of_answer h
      refine ih (s := { s with pckt := pckt, err_blck_tries := tries, timeout_tries := MAX_TRIES })
        ?_ hnumber
      exact answer_of_parse (parse_again hparse hopcode) hopcode

/-- The first block is written or read. -/
theorem established_right (req : Request) (reclength : Nat) (htimeout : s.timeout_tries ≠ 0)
    (herr : s.err_blck_tries ≠ 0) :
    Counts req ⟨0, 0⟩ (s.established req reclength).1 ∧
      Accepted req (.requesting s) (s.established req reclength).1 := by
  cases req with
  | rrq => exact loopHead_fresh .rrq rfl htimeout herr
  | wrq => exact loopHead_fresh .wrq rfl htimeout herr

theorem requestReceive_none (h : Counted req tally (.requesting s)) :
    Counts req (tally.count false none) (s.requestReceive req none).1 := by
  obtain ⟨htimeout, hwaits, herr, hwrong, hwrite⟩ := h
  rw [requestReceive]
  by_cases hlast : s.timeout_tries - 1 = 0
  · simp only [if_pos hlast]
    refine ⟨trivial, fun _ => .inl ?_⟩
    change MAX_TRIES ≤ tally.waits + 1
    omega
  · simp only [if_neg hlast]
    refine ⟨⟨hlast, ?_, herr, hwrong, hwrite⟩, ?_⟩
    · change s.timeout_tries - 1 + (tally.waits + 1) = MAX_TRIES
      omega
    · rintro ⟨t, ht⟩
      cases ht

theorem requestReceive_last (req : Request) (hlast : s.timeout_tries - 1 = 0) (d : Datagram) :
    GaveUp (s.requestReceive req (some d)).1 := by
  have hturn : s.requestReceive req (some d) = (s.received d).giveUp := if_pos hlast
  rw [hturn]
  exact ⟨_, rfl⟩

theorem counted_gaveUp {next : Client} (h : GaveUp next) : Counted req tally next := by
  obtain ⟨t, rfl⟩ := h
  trivial

/-- A datagram that the client gives up on. -/
theorem last_iff {client next : Client} {expected : Bool} {d : Datagram} (h : GaveUp next) :
    ((GaveUp next → (tally.count expected (some d)).Spent) ∧
        (expected = true → Accepted req client next)) ↔
      expected = false ∧ MAX_TRIES ≤ tally.wrong + 1 := by
  cases expected with
  | true =>
    refine iff_of_false ?_ nofun
    rintro ⟨-, haccepted⟩
    obtain ⟨t, rfl⟩ := h
    rcases haccepted rfl with ⟨t', heq⟩ | ⟨t', heq, -⟩ <;> cases heq
  | false =>
    constructor
    · rintro ⟨hspent, -⟩
      exact ⟨rfl, (hspent h).resolve_left (Nat.not_succ_le_zero 4)⟩
    · rintro ⟨-, hwrong⟩
      exact ⟨fun _ => .inr hwrong, nofun⟩

/-- A datagram in the request loop. -/
theorem requestReceive_iff (h : Counted req tally (.requesting s)) (d : Datagram) :
    let next := (s.requestReceive req (some d)).1
    let expected := Client.expects req (.requesting s) (some d)
    Counted req (tally.count expected (some d)) next ∧
      (((GaveUp next → (tally.count expected (some d)).Spent) ∧
          (expected = true → Accepted req (.requesting s) next)) ↔
        Client.InTime req tally (.requesting s) (some d)) := by
  by_cases hlast : s.timeout_tries - 1 = 0
  case pos =>
    have hgave := requestReceive_last req hlast d
    obtain ⟨htimeout, hwaits, herr, hwrong, hwrite⟩ := h
    have hwait : tally.waits + 1 = MAX_TRIES := by
      omega
    refine ⟨counted_gaveUp hgave, (last_iff hgave).trans ?_⟩
    constructor
    · rintro ⟨hother, hspent⟩
      refine ⟨fun _ => ⟨hother, hspent⟩, fun hsame => ?_, fun hreq => ?_⟩
      · exact absurd hsame (ne_true_of_eq_false hother)
      · rw [hwrite hreq] at hspent
        exact absurd hspent (by decide)
    · rintro ⟨hintime, -⟩
      exact hintime hwait
  case neg =>
    have hturn : s.requestReceive req (some d) =
        (s.received d).requestPacket req s.err_blck_tries (min d.bytes.length BUF_SIZE) :=
      if_neg hlast
    obtain ⟨htimeout, hwaits, herr, hwrong, hwrite⟩ := h
    have hwait : tally.waits + 1 ≠ MAX_TRIES := by
      omega
    obtain ⟨tries, htries⟩ := Nat.exists_eq_succ_of_ne_zero herr
    rw [hturn, htries]
    simp only [Client.expects, Client.InTime, Tally.InTime, hwait, false_implies, true_and]
    cases hanswer : (s.received d).answer req (min d.bytes.length BUF_SIZE) with
    | none =>
      have hother : s.brings req s.expected_blck_num d = false := by
        rw [brings, hanswer]
      have hcounts : Counts req (tally.count false (some d)) _ := requestPacket_other hanswer tries
      rw [hother]
      exact ⟨hcounts.1, iff_of_true ⟨hcounts.2, nofun⟩ ⟨nofun, fun _ hne => absurd rfl hne⟩⟩
    | some pckt =>
      have hbrings : s.brings req s.expected_blck_num d =
          decide ((s.expected_blck_num : Int) = pckt.block_number) := by
        rw [brings, hanswer]
      rw [requestPacket_answer hanswer, hbrings]
      have hsame : (s.received d).expected_blck_num = s.expected_blck_num := rfl
      simp only [hsame]
      by_cases hnumber : (s.expected_blck_num : Int) = pckt.block_number
      · simp only [hnumber, decide_true, ne_eq, not_true_eq_false, false_and, if_false,
          true_implies]
        by_cases hzero : tries = 0
        · have hgave :
              GaveUp { s.received d with pckt := pckt, err_blck_tries := tries }.giveUp.1 :=
            ⟨_, rfl⟩
          rw [if_pos hzero]
          refine ⟨counted_gaveUp hgave, iff_of_false (fun hheld => ?_) ?_⟩
          · cases ((last_iff hgave).1 ⟨hheld.1, fun _ => hheld.2⟩).1
          · rintro ⟨hmore, -⟩
            apply hmore
            omega
        · rw [if_neg hzero]
          obtain ⟨hcounts, haccepted⟩ := established_right req
            (min d.bytes.length BUF_SIZE)
            (s := { s.received d with pckt := pckt, err_blck_tries := tries }) hlast hzero
          refine ⟨hcounts.1, iff_of_true ⟨hcounts.2, haccepted⟩ ⟨?_, fun _ _ => trivial⟩⟩
          omega
      · simp only [hnumber, decide_false, ne_eq, not_false_eq_true, true_and, Bool.false_eq_true,
          false_implies, and_true]
        cases req with
        | rrq =>
          by_cases hzero : tries = 0
          · simp only [hzero, not_true_eq_false, if_false, if_true, reduceCtorEq, false_implies,
              iff_true]
            refine ⟨trivial, fun _ => .inr ?_⟩
            change MAX_TRIES ≤ tally.wrong + 1
            omega
          · simp only [hzero, not_false_eq_true, if_true, reduceCtorEq, false_implies, iff_true]
            refine ⟨⟨Nat.succ_ne_zero 4, rfl, hzero, ?_, nofun⟩, ?_⟩
            · change tries + (tally.wrong + 1) = MAX_TRIES
              omega
            · rintro ⟨t, ht⟩
              cases ht
        | wrq =>
          have hgave := requestPacket_again hanswer hnumber (tries + 1)
          rw [requestPacket_answer hanswer] at hgave
          simp only [hsame, hnumber, ne_eq, not_false_eq_true, true_and] at hgave
          refine ⟨counted_gaveUp hgave, iff_of_false (fun hspent => ?_) (fun hintime => ?_)⟩
          · have hwrong' := (hspent hgave).resolve_left (Nat.not_succ_le_zero 4)
            rw [Tally.count, if_neg Bool.false_ne_true, hwrite rfl] at hwrong'
            exact absurd hwrong' (by decide)
          · exact hintime rfl (Option.some_ne_none pckt)

/-- A datagram in the transfer loop. -/
theorem loopReceive_iff (h : Counted req tally (.transferring s)) (d : Datagram) :
    let next := (s.loopReceive req (some d)).1
    let expected := Client.expects req (.transferring s) (some d)
    Counted req (tally.count expected (some d)) next ∧
      (((GaveUp next → (tally.count expected (some d)).Spent) ∧
          (expected = true → Accepted req (.transferring s) next)) ↔
        Client.InTime req tally (.transferring s) (some d)) := by
  by_cases hlast : s.timeout_tries - 1 = 0
  case pos =>
    have hgave := loopReceive_last req hlast d
    obtain ⟨htimeout, hwaits, -⟩ := h
    have hwait : tally.waits + 1 = MAX_TRIES := by
      omega
    refine ⟨counted_gaveUp hgave, (last_iff hgave).trans ?_⟩
    exact ⟨fun hspent _ => hspent, fun hintime => hintime hwait⟩
  case neg =>
    obtain ⟨hcounts, haccepted⟩ := loopReceive_some h hlast d
    obtain ⟨htimeout, hwaits, -⟩ := h
    refine ⟨hcounts.1, iff_of_true ⟨hcounts.2, haccepted⟩ fun hwait => ?_⟩
    omega

end Session

variable {req : Request} {tally : Tally} {client : Client}

/-- What one return of `recvfrom` does. -/
theorem step_iff (h : Counted req tally client) (r : Option Datagram) :
    let next := (client.step req r).1
    let tally' := tally.count (client.expects req r) r
    Counted req tally' next ∧
      (((¬GaveUp client → GaveUp next → tally'.Spent) ∧
          (client.expects req r = true → Accepted req client next)) ↔
        client.InTime req tally r) := by
  cases client with
  | requesting s =>
    have hwaits : ¬GaveUp (.requesting s) := by
      rintro ⟨t, ht⟩
      cases ht
    cases r with
    | none =>
      have hcounts := Session.requestReceive_none h
      exact ⟨hcounts.1, iff_of_true ⟨fun _ => hcounts.2, nofun⟩ trivial⟩
    | some d =>
      obtain ⟨hcounted, hiff⟩ := Session.requestReceive_iff h d
      refine ⟨hcounted, Iff.trans ?_ hiff⟩
      exact and_congr_left' (imp_iff_right hwaits)
  | transferring s =>
    have hwaits : ¬GaveUp (.transferring s) := by
      rintro ⟨t, ht⟩
      cases ht
    cases r with
    | none =>
      have hcounts := Session.loopReceive_none h
      exact ⟨hcounts.1, iff_of_true ⟨fun _ => hcounts.2, nofun⟩ trivial⟩
    | some d =>
      obtain ⟨hcounted, hiff⟩ := Session.loopReceive_iff h d
      refine ⟨hcounted, Iff.trans ?_ hiff⟩
      exact and_congr_left' (imp_iff_right hwaits)
  | ended outcome s =>
    refine ⟨trivial, iff_of_true ⟨fun hfresh hgave => absurd hgave hfresh, ?_⟩ trivial⟩
    intro hfalse
    cases hfalse

theorem onlyExhausted_of_counted (h : Counted req tally client)
    (returns : List (Option Datagram)) :
    OnlyExhausted req client tally returns ↔ InTime req client tally returns := by
  induction returns generalizing client tally with
  | nil => exact Iff.rfl
  | cons r returns ih =>
    obtain ⟨hcounted, hstep⟩ := step_iff h r
    exact and_congr hstep (ih hcounted)

/-- A run is abandoned only for want of tries, and no packet it waits for is refused, if and only
if every datagram comes in time. -/
theorem onlyExhausted_iff (req : Request) (server : Addr) (request recv_buffer : Buf)
    (file : List UInt8) (returns : List (Option Datagram)) :
    let client := (startClient req server request recv_buffer file).1
    OnlyExhausted req client ⟨0, 0⟩ returns ↔ InTime req client ⟨0, 0⟩ returns := by
  apply onlyExhausted_of_counted
  exact ⟨Nat.succ_ne_zero 4, rfl, Nat.succ_ne_zero 4, rfl, fun _ => rfl⟩

theorem not_spent (waits : Nat) (expected : Bool) (d : Datagram) :
    ¬((⟨waits, 0⟩ : Tally).count expected (some d)).Spent := by
  cases expected with
  | true => exact not_or.2 ⟨Nat.not_succ_le_zero 4, Nat.not_succ_le_zero 4⟩
  | false => exact not_or.2 ⟨Nat.not_succ_le_zero 4, (by decide : ¬5 ≤ 1)⟩

/-- The first block comes on the fifth wait. -/
theorem not_onlyExhausted : ¬∀ (req : Request) (server : Addr) (request recv_buffer : Buf)
    (file : List UInt8) (returns : List (Option Datagram)),
    OnlyExhausted req (startClient req server request recv_buffer file).1 ⟨0, 0⟩ returns := by
  intro h
  let buffer : Buf := ⟨List.replicate 516 0, List.length_replicate⟩
  obtain ⟨-, -, -, -, ⟨hgave, -⟩, -⟩ := h .rrq ⟨[127, 0, 0, 1], 69⟩ buffer buffer []
    [none, none, none, none, some ⟨⟨[127, 0, 0, 1], 5000⟩, dataBytes 1 [7]⟩]
  refine not_spent _ _ _ (hgave ?_ ⟨_, rfl⟩)
  rintro ⟨t, ht⟩
  cases ht

end BigBox.Tftp
