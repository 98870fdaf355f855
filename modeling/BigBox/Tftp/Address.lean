import BigBox.Tftp.Rounds

namespace BigBox.Tftp
set_option autoImplicit true

/-- The header of an acknowledgement or of a block. -/
def Transfers (bytes : List UInt8) : Prop := ∃ rest, bytes = 0 :: 3 :: rest ∨ bytes = 0 :: 4 :: rest

/-- Acknowledgements and blocks go to the server alone, and behind a datagram from elsewhere the
transfer is where it was, with at most an error for the sender. -/
def Undisturbed (req : Request) (server : Addr) : Client → List (Option Datagram) → Prop
  | _, [] => True
  | client, r :: returns =>
    (∀ p ∈ (client.step req r).2, Transfers p.packet.bytes → p.packet.addr = server) ∧
      (∀ s d, client = .transferring s → r = some d → d.addr ≠ server →
        ∃ t, (client.step req r).1 = .transferring t ∧ t.Agrees s ∧
          ∀ p ∈ (client.step req r).2, p.packet.addr = server ∨
            p.packet.addr = d.addr ∧ ∃ rest, p.packet.bytes = 0 :: 5 :: rest) ∧
      Undisturbed req server (client.step req r).1 returns

/-- While the transfer runs, datagrams come from the server alone. -/
def OnlyServer (req : Request) (server : Addr) : Client → List (Option Datagram) → Prop
  | _, [] => True
  | client, r :: returns =>
    (∀ s d, client = .transferring s → r = some d → d.addr = server) ∧
      OnlyServer req server (client.step req r).1 returns

namespace Session
variable {s s' : Session}

/-- The session speaks to an address, with a block or an acknowledgement in its buffer. -/
structure SpeaksTo (s : Session) (addr : Addr) : Prop where
  other_addr : s.other_addr = addr
  send_buffer : Transfers s.send_buffer.val

theorem SpeaksTo.send (h : s.SpeaksTo addr) (req : Request) (size : Nat) :
    Transfers (s.send .loop (req.size size)).packet.bytes := by
  obtain ⟨rest, hbytes⟩ := h.send_buffer
  obtain ⟨n, hn⟩ : ∃ n, req.size size = n + 2 := by
    cases req with
    | rrq => exact ⟨2, rfl⟩
    | wrq => exact ⟨size + 2, rfl⟩
  change Transfers (s.send_buffer.val.take (req.size size))
  rw [hn]
  rcases hbytes with hbytes | hbytes
  · rw [hbytes]
    exact ⟨rest.take n, .inl rfl⟩
  · rw [hbytes]
    exact ⟨rest.take n, .inr rfl⟩

/-- A turn ends with packets for one address, or waits with a packet of the loop for it. -/
def Answers (req : Request) (addr : Addr) (turn : Turn) : Prop :=
  (∀ p ∈ turn.2, p.packet.addr = addr) ∧ (∀ t, turn.1 ≠ .requesting t) ∧
    ∀ t, turn.1 = .transferring t → t.SpeaksTo addr ∧ t.send .loop (req.size t.data_size) ∈ turn.2

theorem Ends.answers (h : s.Ends done turn) (haddr : s.other_addr = addr) :
    Answers req addr turn := by
  obtain ⟨outcome, u, sent, rfl, _, _, hsent⟩ := h
  refine ⟨fun p hp => (hsent p hp).2.trans haddr, fun t ht => ?_, fun t ht => ?_⟩
  · cases ht
  · cases ht

theorem SpeaksTo.loopHead (h : s.SpeaksTo addr) : Answers req addr (s.loopHead req) := by
  rcases s.loopHead_cases req with hends | ⟨_, tries, _, _, hturn⟩
  · exact hends.answers h.other_addr
  · rw [hturn]
    refine ⟨fun p hp => ?_, fun t ht => ?_, fun t ht => ?_⟩
    · rw [List.mem_singleton.1 hp]
      exact h.other_addr
    · cases ht
    · cases ht
      exact ⟨⟨h.other_addr, h.send_buffer⟩, List.mem_singleton.2 rfl⟩

theorem transfers_data (n : Int) (data : List UInt8) (buffer : Buf) :
    Transfers (dataPackage n data buffer).val := by
  obtain ⟨rest, hrest⟩ := buffer.store_cons 0 3 (numberBytes n ++ data)
  exact ⟨rest, .inl hrest⟩

theorem transfers_ack (n : Int) (buffer : Buf) : Transfers (ackPackage n buffer).val := by
  obtain ⟨rest, hrest⟩ := buffer.store_cons 0 4 (numberBytes n)
  exact ⟨rest, .inr hrest⟩

theorem SpeaksTo.accept (h : s.SpeaksTo addr) (reclength : Nat) :
    Answers req addr (s.accept req reclength) := by
  cases req with
  | rrq =>
    rw [Session.accept, acceptData]
    by_cases hnumber : s.pckt.block_number = ((s.expected_blck_num + 1) % 65536 : Nat)
    · rw [if_pos hnumber]
      exact SpeaksTo.loopHead ⟨h.other_addr, transfers_ack _ _⟩
    · rw [if_neg hnumber]
      exact SpeaksTo.loopHead ⟨h.other_addr, h.send_buffer⟩
  | wrq =>
    rw [Session.accept, acceptAck]
    by_cases hnumber : s.pckt.block_number = s.expected_blck_num
    · rw [if_pos hnumber]
      by_cases hshort : s.data_size < DATA_SIZE
      · rw [if_pos hshort]
        exact (s.loopEnd_ends .wrq).answers h.other_addr
      · rw [if_neg hshort]
        exact SpeaksTo.loopHead ⟨h.other_addr, transfers_data _ _ _⟩
    · rw [if_neg hnumber]
      exact h.loopHead

theorem established_answers (req : Request) (s : Session) (reclength : Nat) :
    Answers req s.other_addr (s.established req reclength) := by
  cases req with
  | rrq => exact SpeaksTo.loopHead ⟨rfl, transfers_ack _ _⟩
  | wrq => exact SpeaksTo.loopHead ⟨rfl, transfers_data _ _ _⟩

/-- A round answers the datagram it got, or repeats its packet at a timeout. -/
theorem SpeaksTo.loopReceive (h : s.SpeaksTo addr) (r : Option Datagram) :
    Answers req (s.source r) (s.loopReceive req r) := by
  obtain ⟨s₁, errors, hagrees, haddr, herrors, hturn⟩ := loopReceive_cases req s r
  have h₁ : s₁.SpeaksTo (s.source r) := ⟨haddr, hagrees.send_buffer ▸ h.send_buffer⟩
  rcases hturn with hends | hturn | hturn | ⟨d, reclength, _, _, hturn⟩
  · exact hends.answers haddr
  · rw [hturn]
    refine ⟨fun p hp => ?_, fun t ht => ?_, fun t ht => ?_⟩
    · rw [List.mem_singleton.1 hp]
      exact haddr
    · cases ht
    · cases ht
      exact ⟨h₁, List.mem_singleton.2 rfl⟩
  · obtain ⟨hsent, hwaits, htransferring⟩ : Answers req (s.source r) (s₁.loopHead req) :=
      h₁.loopHead
    rw [hturn]
    refine ⟨fun p hp => ?_, hwaits, fun t ht => ?_⟩
    · rcases List.mem_append.1 hp with hp | hp
      · exact (herrors p hp).2.1
      · exact hsent p hp
    · exact ⟨(htransferring t ht).1, List.mem_append_right _ (htransferring t ht).2⟩
  · rw [hturn]
    exact h₁.accept reclength

end Session

/-- A transfer is not disturbed if and only if nothing but its server is heard. -/
theorem undisturbed_iff_of_answers {client : Client}
    (h : ∀ s, client = .transferring s → s.SpeaksTo server)
    (hwaits : ∀ s, client ≠ .requesting s) (returns : List (Option Datagram)) :
    Undisturbed req server client returns ↔ OnlyServer req server client returns := by
  induction returns generalizing client with
  | nil => exact Iff.rfl
  | cons r returns ih =>
    cases client with
    | requesting s => exact (hwaits s rfl).elim
    | ended outcome s =>
      have hrest : Undisturbed req server (.ended outcome s) returns ↔
          OnlyServer req server (.ended outcome s) returns := ih h hwaits
      constructor
      · rintro ⟨_, _, hrun⟩
        refine ⟨fun t d ht => ?_, hrest.1 hrun⟩
        cases ht
      · rintro ⟨_, hrun⟩
        refine ⟨fun p hp => (List.not_mem_nil hp).elim, fun t d ht => ?_, hrest.2 hrun⟩
        cases ht
    | transferring s =>
      have hs := h s rfl
      obtain ⟨hsent, hwaits', htransferring⟩ : Session.Answers req (s.source r)
          (s.loopReceive req r) := hs.loopReceive r
      -- a return that is not from elsewhere leaves the session with its server
      have hserver : (∀ d, r = some d → d.addr = server) → s.source r = server := by
        intro hr
        cases r with
        | none => exact hs.other_addr
        | some d => exact hr d rfl
      constructor
      · rintro ⟨hgood, hforeign, hrun⟩
        have hr : ∀ d, r = some d → d.addr = server := by
          intro d hd
          by_contra hne
          obtain ⟨t, ht, _, _⟩ := hforeign s d rfl hd hne
          obtain ⟨hspeaks, hmem⟩ := htransferring t ht
          have hsource : s.source r = d.addr := by
            rw [hd]
            rfl
          apply hne
          rw [← hsource, ← hsent _ hmem]
          exact hgood _ hmem (hspeaks.send req _)
        refine ⟨fun t d _ => hr d, (ih ?_ hwaits').1 hrun⟩
        exact fun t ht => hserver hr ▸ (htransferring t ht).1
      · rintro ⟨hr, hrun⟩
        have hsource := hserver fun d hd => hr s d rfl hd
        refine ⟨fun p hp _ => (hsent p hp).trans hsource, fun t d _ hd hne => ?_,
          (ih ?_ hwaits').2 hrun⟩
        · exact (hne (hr s d rfl hd)).elim
        · exact fun t ht => hsource ▸ (htransferring t ht).1

/-- Once the port is fixed, the transfer keeps to its server in exactly the runs in which nothing
but that server is heard. -/
theorem undisturbed_iff (req : Request) (s : Session) (reclength : Nat)
    (returns : List (Option Datagram)) :
    let turn := s.established req reclength
    ((∀ p ∈ turn.2, Transfers p.packet.bytes → p.packet.addr = s.other_addr) ∧
        Undisturbed req s.other_addr turn.1 returns) ↔
      OnlyServer req s.other_addr turn.1 returns := by
  obtain ⟨hsent, hwaits, htransferring⟩ := Session.established_answers req s reclength
  have hiff : Undisturbed req s.other_addr (s.established req reclength).1 returns ↔
      OnlyServer req s.other_addr (s.established req reclength).1 returns :=
    undisturbed_iff_of_answers (fun t ht => (htransferring t ht).1) hwaits returns
  constructor
  · exact fun h => hiff.1 h.2
  · exact fun h => ⟨fun p hp _ => hsent p hp, hiff.2 h⟩

/-- A datagram from another port while a file of one byte is sent. -/
theorem not_undisturbed : ¬ ∀ (req : Request) (s : Session) (reclength : Nat)
    (returns : List (Option Datagram)),
    Undisturbed req s.other_addr (s.established req reclength).1 returns := by
  intro h
  let buffer : Buf := ⟨List.replicate 516 0, List.length_replicate⟩
  let s : Session := {
    other_addr := ⟨[127, 0, 0, 1], 5000⟩
    dest_tid := 69
    send_buffer := buffer
    recv_buffer := buffer
    pckt := ⟨TFTP_CMD_ACK, 0, -1, [], []⟩
    expected_blck_num := 0
    data_size := DATA_SIZE
    rv := false
    err_blck_tries := 4
    timeout_tries := 4
    file := [7] }
  obtain ⟨_, hwaits, htransferring⟩ := Session.established_answers .wrq s 4
  have honly := (undisturbed_iff_of_answers (fun t ht => (htransferring t ht).1) hwaits _).1
    (h .wrq s 4 [some ⟨⟨[127, 0, 0, 2], 7⟩, []⟩])
  obtain ⟨t, _, _, _, _, hturn⟩ := Session.loopHead_sends .wrq
    (s := { s with dest_tid := 5000, rv := false, expected_blck_num := 1 }.nextData) rfl rfl
  have hport := honly.1 t _ (congrArg Prod.fst hturn) rfl
  exact absurd (congrArg Addr.port hport) (by decide)

end BigBox.Tftp
