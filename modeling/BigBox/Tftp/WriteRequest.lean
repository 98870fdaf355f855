import BigBox.Tftp.Rounds
import BigBox.Lib.Block

namespace BigBox.Tftp
set_option autoImplicit true

/-- The packets of blocks 1 to `k` in order, each of them once or more. -/
inductive Carries (content : List UInt8) : Nat → List (List UInt8) → Prop where
  | nil : Carries content 0 []
  | next (h : Carries content k packets) :
    Carries content (k + 1)
      (packets ++ [dataBytes ((k + 1) % 65536 : Nat) (chunk DATA_SIZE content k)])
  | again (h : Carries content (k + 1) packets) :
    Carries content (k + 1)
      (packets ++ [dataBytes ((k + 1) % 65536 : Nat) (chunk DATA_SIZE content k)])

/-- The packets that the transfer loop has sent. -/
def loopPackets (sent : List Sent) : List (List UInt8) :=
  (sent.filter fun p => p.site = .loop).map fun p => p.packet.bytes

/-- The packets carry the file, and a client that has completed has sent all of it and a short
packet last. -/
def Delivers (content : List UInt8) (client : Client) (sent : List Sent) : Prop :=
  ∃ k, Carries content k (loopPackets sent) ∧ ∀ s, client = .ended .completed s →
    ∃ i, k = i + 1 ∧ (chunk DATA_SIZE content i).length < DATA_SIZE ∧
      (List.range k).flatMap (chunk DATA_SIZE content) = content

/-- The client after a number of returns of `recvfrom`, with all that it has sent. -/
def Turn.run (req : Request) (start : Turn) (returns : List (Option Datagram)) : Turn :=
  returns.foldl (fun turn r => ((turn.1.step req r).1, turn.2 ++ (turn.1.step req r).2)) start

/-- The datagrams come from a server that acknowledges the request and blocks that were sent to it,
and some of them are lost or come again. -/
def Acknowledges (server : Addr) : Turn → List (Option Datagram) → Prop
  | _, [] => True
  | turn, r :: returns =>
    (∀ d, r = some d → d.addr = server ∧ ∃ n : Nat, d.bytes = ackBytes n ∧
      (n = 0 ∨ ∃ packet ∈ loopPackets turn.2, ∃ data, packet = dataBytes n data)) ∧
      Acknowledges server (turn.run .wrq [r]) returns

section Packets

theorem loopPackets_append (sent sent' : List Sent) :
    loopPackets (sent ++ sent') = loopPackets sent ++ loopPackets sent' := by
  rw [loopPackets, List.filter_append, List.map_append]
  rfl

theorem loopPackets_none (h : ∀ p ∈ sent, p.site ≠ .loop) : loopPackets sent = [] := by
  rw [loopPackets, List.filter_eq_nil_iff.2, List.map_nil]
  intro p hp hloop
  exact h p hp (of_decide_eq_true hloop)

theorem Carries.mem (h : Carries content k packets) (hk : k = i + 1) :
    dataBytes ((i + 1) % 65536 : Nat) (chunk DATA_SIZE content i) ∈ packets := by
  cases h with
  | nil => cases hk
  | next h =>
    cases hk
    exact List.mem_append_right _ List.mem_cons_self
  | again h =>
    cases hk
    exact List.mem_append_right _ List.mem_cons_self

end Packets

/-- The session of a write request that has to send block `k + 1`. -/
structure Session.Writes (s : Session) (content : List UInt8) (k : Nat) : Prop where
  reached : k * DATA_SIZE ≤ content.length
  expected_blck_num : s.expected_blck_num = (k + 1) % 65536
  data_size : s.data_size = (chunk DATA_SIZE content k).length
  file : s.file = content.drop ((k + 1) * DATA_SIZE)
  send_buffer : s.send_buffer.val.take (s.data_size + 4) =
    dataBytes ((k + 1) % 65536 : Nat) (chunk DATA_SIZE content k)

/-- What holds of the transfer of a file at every return of `recvfrom`. -/
def Writing (content : List UInt8) (client : Client) (packets : List (List UInt8)) : Prop :=
  (∀ packet ∈ packets, 4 < packet.length) ∧
    match client with
    | .requesting s => s.expected_blck_num = 0 ∧ s.file = content ∧ packets = []
    | .transferring s => ∃ k, s.Writes content k ∧ 0 < s.data_size ∧ Carries content (k + 1) packets
    | .ended outcome _ => ∃ k, Carries content k packets ∧ (outcome = .completed →
        DATA_SIZE ∣ content.length ∨
          ∃ i, k = i + 1 ∧ (chunk DATA_SIZE content i).length < DATA_SIZE ∧
          (List.range k).flatMap (chunk DATA_SIZE content) = content)

namespace Session
variable {s s' : Session}

theorem Writes.of_agrees (h : s.Writes content k) (hagrees : s'.Agrees s) :
    s'.Writes content k := by
  constructor
  · exact h.reached
  · rw [hagrees.expected_blck_num, h.expected_blck_num]
  · rw [hagrees.data_size, h.data_size]
  · rw [hagrees.file, h.file]
  · rw [hagrees.data_size, hagrees.send_buffer, h.send_buffer]

theorem nextData_writes (hreached : k * DATA_SIZE ≤ content.length)
    (hnum : s.expected_blck_num = (k + 1) % 65536)
    (hfile : s.file = content.drop (k * DATA_SIZE)) : s.nextData.Writes content k := by
  have hchunk : s.file.take DATA_SIZE = chunk DATA_SIZE content k := by
    rw [hfile]
    rfl
  have hle := length_chunk_le DATA_SIZE content k
  constructor
  · exact hreached
  · exact hnum
  · change (s.file.take DATA_SIZE).length = _
    rw [hchunk]
  · change s.file.drop DATA_SIZE = _
    rw [hfile, List.drop_drop, Nat.succ_mul]
  · change (s.send_buffer.store (dataBytes s.expected_blck_num (s.file.take DATA_SIZE))).val.take
      ((s.file.take DATA_SIZE).length + 4) = _
    rw [hchunk, hnum]
    have hsize : (dataBytes ((k + 1) % 65536 : Nat) (chunk DATA_SIZE content k)).length ≤
        BUF_SIZE :=
      Nat.add_le_add_right hle 4
    exact s.send_buffer.store_take hsize

theorem Writes.dvd (h : s.Writes content k) (hempty : s.data_size = 0) :
    DATA_SIZE ∣ content.length := by
  have hreached := h.reached
  have hlen := length_chunk DATA_SIZE content k
  rw [← h.data_size, hempty] at hlen
  have hsize : 0 < DATA_SIZE := by decide
  exact ⟨k, by rw [Nat.mul_comm]; omega⟩

theorem Ends.writing (h : s.Ends done turn) (hlong : ∀ packet ∈ packets, 4 < packet.length)
    (hcarries : Carries content k packets)
    (hdone : done → DATA_SIZE ∣ content.length ∨
      ∃ i, k = i + 1 ∧ (chunk DATA_SIZE content i).length < DATA_SIZE) :
    Writing content turn.1 (packets ++ loopPackets turn.2) := by
  obtain ⟨outcome, t, sent, rfl, hcompleted, hfile, hsent⟩ := h
  rw [loopPackets_none fun p hp => (hsent p hp).1, List.append_nil]
  refine ⟨hlong, k, hcarries, fun ho => ?_⟩
  rcases hdone (hcompleted ho) with hdvd | ⟨i, rfl, hshort⟩
  · exact .inl hdvd
  · exact .inr ⟨i, rfl, hshort, chunks_eq_of_short hshort⟩

theorem loopPackets_send (s : Session) (size : Nat) :
    loopPackets [s.send .loop size] = [s.send_buffer.val.take size] := rfl

/-- The loop sends its block, unless it is empty. -/
theorem loopHead_writing (h : s.Writes content k) (hlong : ∀ packet ∈ packets, 4 < packet.length)
    (hcarries : Carries content k packets ∨ Carries content (k + 1) packets) :
    Writing content (s.loopHead .wrq).1 (packets ++ loopPackets (s.loopHead .wrq).2) := by
  rcases s.loopHead_cases .wrq with hends | ⟨hgoes, tries, _, _, hturn⟩
  · have hdvd : Request.goes .wrq s.data_size = false →
        DATA_SIZE ∣ content.length ∨
          ∃ i, k = i + 1 ∧ (chunk DATA_SIZE content i).length < DATA_SIZE := by
      intro hno
      exact .inl (h.dvd (Nat.eq_zero_of_not_pos (of_decide_eq_false hno)))
    have hdvd' : Request.goes .wrq s.data_size = false → DATA_SIZE ∣ content.length ∨
        ∃ i, k + 1 = i + 1 ∧ (chunk DATA_SIZE content i).length < DATA_SIZE := by
      intro hno
      exact .inl (h.dvd (Nat.eq_zero_of_not_pos (of_decide_eq_false hno)))
    rcases hcarries with hcarries | hcarries
    · exact hends.writing hlong hcarries hdvd
    · exact hends.writing hlong hcarries hdvd'
  · have hpos : 0 < s.data_size := of_decide_eq_true hgoes
    have hpacket := h.send_buffer
    rw [hturn]
    simp only [loopPackets_send, Request.size, hpacket]
    refine ⟨?_, k, h.of_agrees ⟨rfl, rfl, rfl, rfl, rfl⟩, hpos, ?_⟩
    · intro packet hmem
      rcases List.mem_append.1 hmem with hmem | hmem
      · exact hlong packet hmem
      · rw [List.mem_singleton.1 hmem, length_dataBytes, ← h.data_size]
        omega
    · rcases hcarries with hcarries | hcarries
      · exact hcarries.next
      · exact hcarries.again

/-- An accepted acknowledgement of a short block completes, that of a full one brings the next. -/
theorem acceptAck_writing (h : s.Writes content k) (hlong : ∀ packet ∈ packets, 4 < packet.length)
    (hcarries : Carries content (k + 1) packets) :
    Writing content s.acceptAck.1 (packets ++ loopPackets s.acceptAck.2) := by
  have hsize := h.data_size
  rw [acceptAck]
  by_cases hnumber : s.pckt.block_number = s.expected_blck_num
  · rw [if_pos hnumber]
    by_cases hshort : s.data_size < DATA_SIZE
    · rw [if_pos hshort]
      exact (s.loopEnd_ends .wrq).writing hlong hcarries fun _ => .inr ⟨k, rfl, hsize ▸ hshort⟩
    · have hreached : (k + 1) * DATA_SIZE ≤ content.length := by
        have hlen := length_chunk DATA_SIZE content k
        have hpos : 0 < DATA_SIZE := by decide
        rw [Nat.succ_mul]
        omega
      have hnext : (s.expected_blck_num + 1) % 65536 = (k + 1 + 1) % 65536 := by
        rw [h.expected_blck_num, Nat.mod_add_mod]
      rw [if_neg hshort]
      exact loopHead_writing (nextData_writes hreached hnext h.file) hlong (.inl hcarries)
  · rw [if_neg hnumber]
    exact loopHead_writing h hlong (.inr hcarries)

theorem loopReceive_writing (h : s.Writes content k) (hpos : 0 < s.data_size)
    (hlong : ∀ packet ∈ packets, 4 < packet.length) (hcarries : Carries content (k + 1) packets)
    (r : Option Datagram) :
    Writing content (s.loopReceive .wrq r).1 (packets ++ loopPackets (s.loopReceive .wrq r).2) := by
  obtain ⟨s₁, errors, hagrees, _, herrors, hturn⟩ := loopReceive_cases .wrq s r
  have h₁ := h.of_agrees hagrees
  rcases hturn with hends | hturn | hturn | ⟨d, reclength, _, _, hturn⟩
  · exact hends.writing hlong hcarries False.elim
  · have hpacket := h₁.send_buffer
    rw [hturn]
    simp only [loopPackets_send, Request.size, hpacket]
    refine ⟨?_, k, h₁, hagrees.data_size ▸ hpos, hcarries.again⟩
    intro packet hmem
    rcases List.mem_append.1 hmem with hmem | hmem
    · exact hlong packet hmem
    · rw [List.mem_singleton.1 hmem, length_dataBytes, ← h.data_size]
      omega
  · have hnone : loopPackets errors = [] := by
      apply loopPackets_none
      intro p hp hloop
      cases (herrors p hp).1.symm.trans hloop
    rw [hturn, loopPackets_append, hnone, List.nil_append]
    exact loopHead_writing h₁ hlong (.inr hcarries)
  · rw [hturn]
    exact acceptAck_writing h₁ hlong hcarries

theorem requestReceive_writing (hnum : s.expected_blck_num = 0) (r : Option Datagram) :
    Writing s.file (s.requestReceive .wrq r).1 (loopPackets (s.requestReceive .wrq r).2) := by
  have hnil : ∀ packet ∈ ([] : List (List UInt8)), 4 < packet.length :=
    fun _ h => (List.not_mem_nil h).elim
  rcases requestReceive_cases .wrq s r with ⟨t, _, hends⟩ |
    ⟨t, hnum', hfile, hturn | ⟨reclength, hturn⟩⟩
  · rw [← List.nil_append (loopPackets _)]
    exact hends.writing hnil Carries.nil False.elim
  · rw [hturn]
    exact ⟨hnil, hnum'.trans hnum, hfile, rfl⟩
  · have hreached : 0 * DATA_SIZE ≤ s.file.length := by
      rw [Nat.zero_mul]
      exact Nat.zero_le _
    have hone : t.expected_blck_num + 1 = (0 + 1) % 65536 := by rw [hnum', hnum]
    have hall : t.file = s.file.drop (0 * DATA_SIZE) := by
      rw [Nat.zero_mul, List.drop_zero, hfile]
    rw [hturn, ← List.nil_append (loopPackets _)]
    exact loopHead_writing (nextData_writes hreached hone hall) hnil (.inl Carries.nil)

end Session

section Runs
variable {turn : Turn}

theorem Writing.step (h : Writing content client packets) (r : Option Datagram) :
    Writing content (client.step .wrq r).1 (packets ++ loopPackets (client.step .wrq r).2) := by
  cases client with
  | requesting s =>
    obtain ⟨_, hnum, rfl, rfl⟩ := h
    exact Session.requestReceive_writing hnum r
  | transferring s =>
    obtain ⟨hlong, k, hwrites, hpos, hcarries⟩ := h
    exact Session.loopReceive_writing hwrites hpos hlong hcarries r
  | ended outcome s =>
    change Writing content (.ended outcome s) (packets ++ [])
    rwa [List.append_nil]

theorem Turn.run_cons (req : Request) (turn : Turn) (r : Option Datagram)
    (returns : List (Option Datagram)) :
    turn.run req (r :: returns) = (turn.run req [r]).run req returns := rfl

theorem Writing.run (h : Writing content turn.1 (loopPackets turn.2))
    (returns : List (Option Datagram)) :
    Writing content (turn.run .wrq returns).1 (loopPackets (turn.run .wrq returns).2) := by
  induction returns generalizing turn with
  | nil => exact h
  | cons r returns ih =>
    have hstep := h.step r
    rw [← loopPackets_append] at hstep
    exact ih hstep

theorem startClient_writing (server : Addr) (request recv_buffer : Buf) (content : List UInt8) :
    Writing content (startClient .wrq server request recv_buffer content).1
      (loopPackets (startClient .wrq server request recv_buffer content).2) :=
  ⟨fun _ h => (List.not_mem_nil h).elim, rfl, rfl, rfl⟩

theorem Writing.delivers (h : Writing content client (loopPackets sent))
    (hdvd : ¬ DATA_SIZE ∣ content.length) : Delivers content client sent := by
  cases client with
  | requesting s =>
    obtain ⟨_, _, _, hnil⟩ := h
    refine ⟨0, hnil ▸ Carries.nil, fun t ht => ?_⟩
    cases ht
  | transferring s =>
    obtain ⟨_, k, _, _, hcarries⟩ := h
    refine ⟨k + 1, hcarries, fun t ht => ?_⟩
    cases ht
  | ended outcome s =>
    obtain ⟨_, k, hcarries, hdone⟩ := h
    refine ⟨k, hcarries, fun t ht => ?_⟩
    cases ht
    exact (hdone rfl).resolve_left hdvd

/-- Where the blocks are full a client that completes has not sent a short packet. -/
theorem Writing.not_delivers_full (h : Writing content (.ended .completed s) (loopPackets sent))
    (hdvd : DATA_SIZE ∣ content.length) : ¬ Delivers content (.ended .completed s) sent := by
  rintro ⟨k, hcarries, hdone⟩
  obtain ⟨i, hk, hshort, _⟩ := hdone s rfl
  have hlong := h.1 _ (hcarries.mem hk)
  rw [length_dataBytes] at hlong
  have hne : chunk DATA_SIZE content i ≠ [] := by
    apply List.ne_nil_of_length_pos
    omega
  exact absurd (chunk_full hdvd hne) (Nat.ne_of_lt hshort)

end Runs

section Completes
variable {s : Session}

/-- The session is at a fresh try. -/
structure Session.Fresh (s : Session) (server : Addr) : Prop where
  dest_tid : s.dest_tid = server.port
  timeout_tries : s.timeout_tries = MAX_TRIES
  err_blck_tries : s.err_blck_tries ≠ 0
  rv : s.rv = false

/-- An acknowledgement of a full block brings the next one. -/
theorem Session.Fresh.acknowledged (h : s.Fresh server) (hwrites : s.Writes content k)
    (hfull : s.data_size = DATA_SIZE) :
    ∃ t : Session, t.Writes content (k + 1) ∧ t.dest_tid = server.port ∧ t.rv = false ∧
      t.timeout_tries ≠ 0 ∧ t.err_blck_tries ≠ 0 ∧
      s.loopReceive .wrq (some ⟨server, ackBytes ((k + 1) % 65536 : Nat)⟩) = t.loopHead .wrq := by
  have hlt : (k + 1) % 65536 < 65536 := Nat.mod_lt _ (by decide)
  have htries : s.timeout_tries - 1 ≠ 0 := by
    rw [h.timeout_tries]
    decide
  obtain ⟨t, hagrees, hpckt, hrv, herr, htimeout, hturn⟩ :=
    Session.loopReceive_of_parse .wrq (d := ⟨server, ackBytes ((k + 1) % 65536 : Nat)⟩) htries
      h.dest_tid (by decide : 4 ≤ 516) (parse_ack s.recv_buffer s.pckt hlt) rfl
  have hreached : (k + 1) * DATA_SIZE ≤ content.length := by
    have hlen := length_chunk DATA_SIZE content k
    have hpos : 0 < DATA_SIZE := by decide
    rw [← hwrites.data_size, hfull] at hlen
    rw [Nat.succ_mul]
    omega
  have ht := hwrites.of_agrees hagrees
  have hnext : (t.expected_blck_num + 1) % 65536 = (k + 1 + 1) % 65536 := by
    rw [ht.expected_blck_num, Nat.mod_add_mod]
  have hnumber : t.pckt.block_number = t.expected_blck_num := by
    rw [hpckt, ht.expected_blck_num]
  have hnot : ¬ t.data_size < DATA_SIZE := by
    rw [hagrees.data_size, hfull]
    exact Nat.lt_irrefl _
  refine ⟨Session.nextData { t with expected_blck_num := (t.expected_blck_num + 1) % 65536 },
    Session.nextData_writes hreached hnext ht.file, hagrees.dest_tid.trans h.dest_tid,
    hrv.trans h.rv, htimeout ▸ htries, herr ▸ h.err_blck_tries, ?_⟩
  rw [hturn]
  exact (if_pos hnumber).trans (if_neg hnot)

/-- A server that acknowledges every block brings the client to its end. -/
theorem Session.Writes.completes (h : s.Writes content k)
    (hlen : content.length = (k + n) * DATA_SIZE) (hport : s.dest_tid = server.port)
    (hrv : s.rv = false) (htimeout : s.timeout_tries ≠ 0) (herr : s.err_blck_tries ≠ 0)
    (hcarries : Carries content k (loopPackets sent)) :
    ∃ returns, Acknowledges server ((s.loopHead .wrq).1, sent ++ (s.loopHead .wrq).2) returns ∧
      ∃ t, (Turn.run .wrq ((s.loopHead .wrq).1, sent ++ (s.loopHead .wrq).2) returns).1 =
        .ended .completed t := by
  have hsize := h.data_size
  rw [length_chunk, hlen, Nat.add_mul, Nat.add_sub_cancel_left] at hsize
  induction n generalizing k s sent with
  | zero =>
    have hend : s.loopHead .wrq = (.ended .completed s, []) := by
      have hgoes : ¬ Request.goes .wrq s.data_size = true := by
        rw [hsize]
        decide
      rw [Session.loopHead, if_neg hgoes, Session.loopEnd.eq_def,
        if_neg (not_or.2 ⟨htimeout, herr⟩)]
    rw [hend]
    exact ⟨[], trivial, s, rfl⟩
  | succ n ih =>
    have hfull : s.data_size = DATA_SIZE := by
      rw [hsize, Nat.succ_mul]
      exact Nat.min_eq_left (Nat.le_add_left _ _)
    have hgoes : Request.goes .wrq s.data_size = true := by
      rw [hfull]
      decide
    obtain ⟨s₁, hagrees, hrv₁, herr₁, htimeout₁, hhead⟩ := Session.loopHead_sends .wrq hgoes hrv
    have h₁ := h.of_agrees hagrees
    have hfresh : s₁.Fresh server :=
      ⟨hagrees.dest_tid.trans hport, htimeout₁, herr₁ ▸ (by decide : MAX_TRIES ≠ 0), hrv₁⟩
    obtain ⟨t, ht, htport, htrv, httimeout, hterr, hturn⟩ :=
      hfresh.acknowledged h₁ (hagrees.data_size.trans hfull)
    have hsent : Carries content (k + 1)
        (loopPackets (sent ++ [s₁.send .loop (Request.size .wrq s₁.data_size)])) := by
      rw [loopPackets_append, Session.loopPackets_send, Request.size, h₁.send_buffer]
      exact hcarries.next
    have hlen' : content.length = (k + 1 + n) * DATA_SIZE := by
      rw [hlen, Nat.add_assoc k 1 n, Nat.add_comm 1 n]
    have hsize' : t.data_size = min DATA_SIZE (n * DATA_SIZE) := by
      rw [ht.data_size, length_chunk, hlen', Nat.add_mul, Nat.add_sub_cancel_left]
    obtain ⟨returns, hacks, u, hrun⟩ := ih ht hlen' htport htrv httimeout hterr hsent hsize'
    have hmem := hsent.mem rfl
    have hone : Turn.run .wrq
        (.transferring s₁, sent ++ [s₁.send .loop (Request.size .wrq s₁.data_size)])
        [some ⟨server, ackBytes ((k + 1) % 65536 : Nat)⟩] =
        ((t.loopHead .wrq).1, sent ++ [s₁.send .loop (Request.size .wrq s₁.data_size)] ++
          (t.loopHead .wrq).2) := by
      rw [Turn.run, List.foldl_cons, List.foldl_nil, Client.step, hturn]
    rw [hhead]
    refine ⟨some ⟨server, ackBytes ((k + 1) % 65536 : Nat)⟩ :: returns, ⟨?_, ?_⟩, u, ?_⟩
    · intro d hd
      cases hd
      exact ⟨rfl, _, rfl, .inr ⟨_, hmem, _, rfl⟩⟩
    · rw [hone]
      exact hacks
    · rw [Turn.run_cons, hone]
      exact hrun

/-- The server that acknowledges the request and every block. -/
theorem startClient_completes (server tid : Addr) (request recv_buffer : Buf)
    (hdvd : DATA_SIZE ∣ content.length) :
    ∃ returns, Acknowledges tid (startClient .wrq server request recv_buffer content) returns ∧
      ∃ t, ((startClient .wrq server request recv_buffer content).run .wrq returns).1 =
        .ended .completed t := by
  obtain ⟨n, hn⟩ := hdvd
  have hlen : content.length = (0 + n) * DATA_SIZE := by
    rw [hn, Nat.zero_add, Nat.mul_comm]
  have hreached : 0 * DATA_SIZE ≤ content.length := by
    rw [Nat.zero_mul]
    exact Nat.zero_le _
  obtain ⟨s, hs, hclient⟩ : ∃ s : Session, (s.timeout_tries = MAX_TRIES ∧
      s.err_blck_tries = 4 + 1 ∧ s.expected_blck_num = 0 ∧ s.file = content) ∧
      startClient .wrq server request recv_buffer content =
        (.requesting s, [s.send .request BUF_SIZE]) := ⟨_, ⟨rfl, rfl, rfl, rfl⟩, rfl⟩
  obtain ⟨htimeout, herr, hnum, hfile⟩ := hs
  have htries : s.timeout_tries - 1 ≠ 0 := by
    rw [htimeout]
    decide
  have hnumber : ((0 : Nat) : Int) = s.expected_blck_num := by rw [hnum]
  obtain ⟨t₀, hagrees, _, haddr₀, herr₀, htimeout₀, hturn⟩ := Session.requestReceive_of_parse
    .wrq (d := ⟨tid, ackBytes (0 : Nat)⟩) htries herr (by decide : 4 ≤ 516)
    (parse_ack s.recv_buffer s.pckt (by decide : 0 < 65536)) rfl hnumber
  obtain ⟨t, ht, htport, htrv, httimeout, hterr, hhead⟩ : ∃ t : Session, t.Writes content 0 ∧
      t.dest_tid = tid.port ∧ t.rv = false ∧ t.timeout_tries ≠ 0 ∧ t.err_blck_tries ≠ 0 ∧
      s.requestReceive .wrq (some ⟨tid, ackBytes (0 : Nat)⟩) = t.loopHead .wrq := by
    have hone : t₀.expected_blck_num + 1 = (0 + 1) % 65536 := by
      rw [hagrees.expected_blck_num, hnum]
    have hall : t₀.file = content.drop (0 * DATA_SIZE) := by
      rw [Nat.zero_mul, List.drop_zero, hagrees.file, hfile]
    exact ⟨Session.nextData { t₀ with
      dest_tid := t₀.other_addr.port
      rv := false
      expected_blck_num := t₀.expected_blck_num + 1 },
      Session.nextData_writes hreached hone hall, congrArg Addr.port haddr₀, rfl,
      htimeout₀ ▸ htries, herr₀ ▸ Nat.succ_ne_zero 3, hturn⟩
  have hnone : Carries content 0 (loopPackets [s.send .request BUF_SIZE]) := Carries.nil
  obtain ⟨returns, hacks, u, hrun⟩ := ht.completes hlen htport htrv httimeout hterr hnone
  have hone : Turn.run .wrq (.requesting s, [s.send .request BUF_SIZE])
      [some ⟨tid, ackBytes (0 : Nat)⟩] =
      ((t.loopHead .wrq).1, [s.send .request BUF_SIZE] ++ (t.loopHead .wrq).2) := by
    rw [Turn.run, List.foldl_cons, List.foldl_nil, Client.step, hhead]
  rw [hclient]
  refine ⟨some ⟨tid, ackBytes (0 : Nat)⟩ :: returns, ⟨?_, ?_⟩, u, ?_⟩
  · intro d hd
    cases hd
    exact ⟨rfl, 0, rfl, .inl rfl⟩
  · rw [hone]
    exact hacks
  · rw [Turn.run_cons, hone]
    exact hrun

end Completes

/-- The packets of every transfer carry the file up to a short packet, if and only if the blocks of
the file do not end with a full one. -/
theorem write_request_iff (server tid : Addr) (request recv_buffer : Buf) (content : List UInt8) :
    (∀ returns, Acknowledges tid (startClient .wrq server request recv_buffer content) returns →
      let turn := (startClient .wrq server request recv_buffer content).run .wrq returns
      Delivers content turn.1 turn.2) ↔ ¬ DATA_SIZE ∣ content.length := by
  have hstart := startClient_writing server request recv_buffer content
  constructor
  · intro h hdvd
    obtain ⟨returns, hacks, t, hrun⟩ := startClient_completes server tid request recv_buffer hdvd
    have hwriting := hstart.run returns
    have hdelivers := h returns hacks
    simp only [hrun] at hwriting hdelivers
    exact hwriting.not_delivers_full hdvd hdelivers
  · intro hdvd returns _
    exact (hstart.run returns).delivers hdvd

/-- An empty file, with its request acknowledged. -/
theorem not_write_request : ¬ ∀ (server tid : Addr) (request recv_buffer : Buf)
    (content : List UInt8) (returns : List (Option Datagram)),
    Acknowledges tid (startClient .wrq server request recv_buffer content) returns →
      let turn := (startClient .wrq server request recv_buffer content).run .wrq returns
      Delivers content turn.1 turn.2 := by
  intro h
  let buffer : Buf := ⟨List.replicate 516 0, List.length_replicate⟩
  obtain ⟨returns, hacks, t, hrun⟩ := startClient_completes ⟨[127, 0, 0, 1], 69⟩
    ⟨[127, 0, 0, 1], 5000⟩ buffer buffer
    (⟨0, rfl⟩ : DATA_SIZE ∣ ([] : List UInt8).length)
  have hwriting := (startClient_writing ⟨[127, 0, 0, 1], 69⟩ buffer buffer []).run returns
  have hdelivers := h _ _ _ _ _ returns hacks
  simp only [hrun] at hwriting hdelivers
  exact hwriting.not_delivers_full ⟨0, rfl⟩ hdelivers

end BigBox.Tftp
