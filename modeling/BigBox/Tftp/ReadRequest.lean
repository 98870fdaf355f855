import BigBox.Tftp.Rounds
import BigBox.Lib.Block
import Mathlib.Data.Nat.ModEq

namespace BigBox.Tftp
set_option autoImplicit true

/-- A read request and its server. `served` is the last block that was sent, and every packet of the
client is kept with the `served` of the time it was sent. -/
structure Transfer where
  client : Client
  served : Nat
  sent : List (Nat × Sent)

/-- The packet of block `i + 1`. -/
def blockPacket (content : List UInt8) (server : Addr) (i : Nat) : Datagram :=
  ⟨server, dataBytes ((i + 1) % 65536 : Nat) (chunk DATA_SIZE content i)⟩

/-- `recvfrom` returns. -/
def Transfer.receive (t : Transfer) (r : Option Datagram) : Transfer :=
  { t with
    client := (t.client.step .rrq r).1
    sent := t.sent ++ (t.client.step .rrq r).2.map fun p => (t.served, p) }

/-- A datagram may come never, late or again, but not when 65535 blocks were sent since then. The
server goes on to the next block at an acknowledgement. -/
inductive Transfer.Step (content : List UInt8) (server : Addr) : Transfer → Transfer → Prop where
  | serve {t : Transfer} (h : (l, p) ∈ t.sent) (hsite : p.site ≠ .request)
    (haddr : p.packet.addr = server)
    (hack : p.packet.bytes.take 4 = ackBytes (t.served % 65536 : Nat))
    (hdelay : t.served < l + 65535) (hfull : t.served * DATA_SIZE ≤ content.length) :
    Step content server t { t with served := t.served + 1 }
  | deliver {t : Transfer} (h : i < t.served) (hdelay : t.served < i + 1 + 65535) :
    Step content server t (t.receive (some (blockPacket content server i)))
  | timeout {t : Transfer} : Step content server t (t.receive none)
  | foreign {t : Transfer} (h : t.client = .transferring s) (hport : d.addr.port ≠ server.port) :
    Step content server t (t.receive (some d))

/-- The request has reached the server. -/
def Transfer.Starts (t : Transfer) : Prop :=
  ∃ addr request recv_buffer, t.client = (startClient .rrq addr request recv_buffer []).1 ∧
    t.served = 1 ∧ t.sent = (startClient .rrq addr request recv_buffer []).2.map fun p => (1, p)

/-- The session of a read request that has written block `i + 1`. -/
structure Session.Reads (s : Session) (content : List UInt8) (server : Addr) (i : Nat) : Prop where
  expected_blck_num : s.expected_blck_num = (i + 1) % 65536
  data_size : s.data_size = (chunk DATA_SIZE content i).length
  file : s.file = (List.range (i + 1)).flatMap (chunk DATA_SIZE content)
  dest_tid : s.dest_tid = server.port
  send_buffer : s.send_buffer.val.take 4 = ackBytes ((i + 1) % 65536 : Nat)

/-- Every packet that acknowledges a block was sent when the block was the last one, or the one
before it. -/
def Acknowledged (i : Nat) (sent : List (Nat × Sent)) : Prop :=
  ∀ l p, (l, p) ∈ sent → p.site ≠ .request → (∀ n : Nat, p.packet.bytes.take 4 ≠ ackBytes n) ∨
    ∃ a ≤ i + 1, a ≤ l ∧ l ≤ a + 1 ∧ p.packet.bytes.take 4 = ackBytes (a % 65536 : Nat)

/-- What holds of a transfer at every return of `recvfrom`. -/
def Transfer.Holds (content : List UInt8) (server : Addr) (t : Transfer) : Prop :=
  match t.client with
  | .requesting s => s.expected_blck_num = 1 ∧ s.file = [] ∧ t.served = 1 ∧
      ∀ l p, (l, p) ∈ t.sent → p.site = .request
  | .transferring s => ∃ i, s.Reads content server i ∧ i + 1 ≤ t.served ∧ t.served ≤ i + 2 ∧
      Acknowledged i t.sent
  | .ended outcome s => ∃ k, s.file = (List.range k).flatMap (chunk DATA_SIZE content) ∧
      (outcome = .completed → s.file = content)

section Steps
variable {s s' : Session} {content : List UInt8} {server : Addr}

theorem Session.Reads.of_agrees (h : s.Reads content server i) (hagrees : s'.Agrees s) :
    s'.Reads content server i := by
  constructor
  · rw [hagrees.expected_blck_num, h.expected_blck_num]
  · rw [hagrees.data_size, h.data_size]
  · rw [hagrees.file, h.file]
  · rw [hagrees.dest_tid, h.dest_tid]
  · rw [hagrees.send_buffer, h.send_buffer]

theorem Acknowledged.mono (h : Acknowledged i sent) (hle : i ≤ j) : Acknowledged j sent := by
  intro l p hmem hsite
  rcases h l p hmem hsite with hnone | ⟨a, ha, hrest⟩
  · exact .inl hnone
  · exact .inr ⟨a, Nat.le_trans ha (Nat.add_le_add_right hle 1), hrest⟩

theorem Acknowledged.append {packets : List Sent} (h : Acknowledged i sent)
    (hpackets : ∀ p ∈ packets,
    (∀ n : Nat, p.packet.bytes.take 4 ≠ ackBytes n) ∨
      p.packet.bytes.take 4 = ackBytes ((i + 1) % 65536 : Nat))
    (hle : i + 1 ≤ served) (hge : served ≤ i + 2) :
    Acknowledged i (sent ++ packets.map fun p => (served, p)) := by
  intro l p hmem hsite
  rcases List.mem_append.1 hmem with hmem | hmem
  · exact h l p hmem hsite
  · obtain ⟨q, hq, heq⟩ := List.mem_map.1 hmem
    cases heq
    rcases hpackets p hq with hnone | hack
    · exact .inl hnone
    · exact .inr ⟨i + 1, Nat.le_refl _, hle, hge, hack⟩

/-- The client ends with the blocks it has written. -/
theorem Session.Ends.holds (h : s.Ends done turn)
    (hfile : s.file = (List.range k).flatMap (chunk DATA_SIZE content))
    (hdone : done → s.file = content) :
    Transfer.Holds content server ⟨turn.1, served, sent⟩ := by
  obtain ⟨outcome, u, packets, rfl, hcompleted, hsame, _⟩ := h
  exact ⟨k, hsame.trans hfile, fun ho => hsame.trans (hdone (hcompleted ho))⟩

/-- The loop acknowledges a full block, and ends behind a short one. -/
theorem loopHead_holds (h : s.Reads content server i) (hle : i + 1 ≤ served)
    (hge : served ≤ i + 2) (hsent : Acknowledged i sent) (errors : List Sent)
    (herrors : ∀ p ∈ errors, ∀ n : Nat, p.packet.bytes.take 4 ≠ ackBytes n) :
    Transfer.Holds content server ⟨(s.loopHead .rrq).1, served,
      sent ++ (errors ++ (s.loopHead .rrq).2).map fun p => (served, p)⟩ := by
  rcases s.loopHead_cases .rrq with hends | ⟨_, tries, _, _, hturn⟩
  · apply hends.holds h.file
    intro hno
    have hne : s.data_size ≠ DATA_SIZE := of_decide_eq_false hno
    have hle := length_chunk_le DATA_SIZE content i
    rw [h.file]
    apply chunks_eq_of_short
    rw [h.data_size] at hne
    exact Nat.lt_of_le_of_ne hle hne
  · rw [hturn]
    refine ⟨i, h.of_agrees ⟨rfl, rfl, rfl, rfl, rfl⟩, hle, hge, ?_⟩
    apply hsent.append _ hle hge
    intro p hp
    rcases List.mem_append.1 hp with hp | hp
    · exact .inl (herrors p hp)
    · rw [List.mem_singleton.1 hp]
      refine .inr ?_
      change (s.send_buffer.val.take 4).take 4 = _
      rw [List.take_take, Nat.min_self, h.send_buffer]

/-- A return without a block of the server. -/
theorem loopReceive_holds (h : s.Reads content server i) (hle : i + 1 ≤ served)
    (hge : served ≤ i + 2) (hsent : Acknowledged i sent)
    (hr : ∀ d, r = some d → d.addr.port ≠ server.port) :
    Transfer.Holds content server ⟨(s.loopReceive .rrq r).1, served,
      sent ++ (s.loopReceive .rrq r).2.map fun p => (served, p)⟩ := by
  obtain ⟨s₁, errors, hagrees, _, herrors, hturn⟩ := Session.loopReceive_cases .rrq s r
  have h₁ := h.of_agrees hagrees
  rcases hturn with hends | hturn | hturn | ⟨d, reclength, hd, hport, _⟩
  · exact hends.holds h₁.file False.elim
  · rw [hturn]
    refine ⟨i, h₁, hle, hge, hsent.append ?_ hle hge⟩
    intro p hp
    rw [List.mem_singleton.1 hp]
    refine .inr ?_
    change (s₁.send_buffer.val.take 4).take 4 = _
    rw [List.take_take, Nat.min_self, h₁.send_buffer]
  · rw [hturn]
    apply loopHead_holds h₁ hle hge hsent
    intro p hp n heq
    obtain ⟨rest, hrest⟩ := (herrors p hp).2.2
    rw [hrest] at heq
    cases heq
  · exact (hr d hd (h.dest_tid.symm.trans hport).symm).elim

/-- The session with a parsed block of data. -/
theorem acceptData_next (h : s.Reads content server i) {buffer : List UInt8}
    (hnumber : s.pckt.block_number = ((i + 1 + 1) % 65536 : Nat))
    (hbuffer : s.pckt.data_buffer =
      copyAt buffer 0 (chunk DATA_SIZE content (i + 1) ++ [0])) :
    ∃ t : Session, t.Reads content server (i + 1) ∧
      s.acceptData ((chunk DATA_SIZE content (i + 1)).length + 4) = t.loopHead .rrq := by
  have hnext : (s.expected_blck_num + 1) % 65536 = (i + 1 + 1) % 65536 := by
    rw [h.expected_blck_num, Nat.mod_add_mod]
  have hdata : s.pckt.data_buffer.take (chunk DATA_SIZE content (i + 1)).length =
      chunk DATA_SIZE content (i + 1) := by
    rw [hbuffer, copyAt_zero, List.append_assoc, List.take_left]
  have hsame : s.pckt.block_number = ((s.expected_blck_num + 1) % 65536 : Nat) := by
    rw [hnumber, hnext]
  refine ⟨{ s with
    data_size := (chunk DATA_SIZE content (i + 1)).length
    file := s.file ++ s.pckt.data_buffer.take (chunk DATA_SIZE content (i + 1)).length
    expected_blck_num := (s.expected_blck_num + 1) % 65536
    send_buffer := ackPackage ((s.expected_blck_num + 1) % 65536 : Nat) s.send_buffer },
    ⟨hnext, rfl, ?_, h.dest_tid, ?_⟩, if_pos hsame⟩
  · change s.file ++ s.pckt.data_buffer.take _ = _
    rw [hdata, h.file, List.range_succ (n := i + 1), List.flatMap_append, List.flatMap_singleton]
  · change (ackPackage ((s.expected_blck_num + 1) % 65536 : Nat) s.send_buffer).val.take 4 = _
    have hsize : (ackBytes ((i + 1 + 1) % 65536 : Nat)).length ≤ BUF_SIZE := (by decide : 4 ≤ 516)
    rw [hnext]
    exact s.send_buffer.store_take hsize

/-- The next block is written, and any other one that is not too late is passed over. -/
theorem blockPacket_holds (h : s.Reads content server i) (hle : i + 1 ≤ served)
    (hge : served ≤ i + 2) (hsent : Acknowledged i sent) (hd : d < served)
    (hdelay : served < d + 1 + 65535) :
    Transfer.Holds content server
      ⟨(s.loopReceive .rrq (some (blockPacket content server d))).1, served, sent ++
        (s.loopReceive .rrq (some (blockPacket content server d))).2.map fun p => (served, p)⟩ := by
  have hdata := length_chunk_le DATA_SIZE content d
  by_cases htries : s.timeout_tries - 1 = 0
  · obtain ⟨t, hfile, hends⟩ :=
      Session.loopReceive_timeout .rrq htries (some (blockPacket content server d))
    exact hends.holds (hfile.trans h.file) False.elim
  · have hlt : (d + 1) % 65536 < 65536 := Nat.mod_lt _ (by decide)
    have hlen : (blockPacket content server d).bytes.length ≤ BUF_SIZE :=
      Nat.add_le_add_right hdata 4
    obtain ⟨t, hagrees, hpckt, _, _, _, hturn⟩ := Session.loopReceive_of_parse .rrq htries
      h.dest_tid hlen (parse_data s.recv_buffer s.pckt hlt hdata) rfl
    have ht := h.of_agrees hagrees
    have hnumber : t.pckt.block_number = ((d + 1) % 65536 : Nat) := by rw [hpckt]
    rw [hturn]
    by_cases hnext : d = i + 1
    · subst hnext
      have hbuffer : t.pckt.data_buffer = copyAt s.pckt.data_buffer 0
          (chunk DATA_SIZE content (i + 1) ++ [0]) := by rw [hpckt]
      obtain ⟨u, hu, haccept⟩ := acceptData_next ht hnumber hbuffer
      have haccept' : t.accept .rrq (blockPacket content server (i + 1)).bytes.length =
          u.loopHead .rrq := haccept
      rw [haccept']
      exact loopHead_holds hu hd (Nat.le_succ_of_le hge) (hsent.mono (Nat.le_succ i)) []
        fun _ hp => (List.not_mem_nil hp).elim
    · have hother : t.pckt.block_number ≠ ((t.expected_blck_num + 1) % 65536 : Nat) := by
        rw [hnumber, ht.expected_blck_num, Nat.mod_add_mod]
        omega
      have haccept : t.accept .rrq (blockPacket content server d).bytes.length =
          { t with rv := true }.loopHead .rrq := if_neg hother
      have hagain : Session.Reads { t with rv := true } content server i :=
        ht.of_agrees ⟨rfl, rfl, rfl, rfl, rfl⟩
      rw [haccept]
      exact loopHead_holds hagain hle hge hsent [] fun _ hp => (List.not_mem_nil hp).elim

/-- The session that the first block establishes. -/
theorem established_reads {buffer : List UInt8} (hnum : s.expected_blck_num = 1)
    (haddr : s.other_addr = server)
    (hbuffer : s.pckt.data_buffer = copyAt buffer 0 (chunk DATA_SIZE content 0 ++ [0])) :
    ∃ t : Session, t.Reads content server 0 ∧
      s.established .rrq ((chunk DATA_SIZE content 0).length + 4) = t.loopHead .rrq := by
  have hdata : s.pckt.data_buffer.take (chunk DATA_SIZE content 0).length =
      chunk DATA_SIZE content 0 := by
    rw [hbuffer, copyAt_zero, List.append_assoc, List.take_left]
  have hsize : (ackBytes ((0 + 1) % 65536 : Nat)).length ≤ BUF_SIZE := (by decide : 4 ≤ 516)
  refine ⟨{ s with
    dest_tid := s.other_addr.port
    rv := false
    data_size := (chunk DATA_SIZE content 0).length
    file := s.pckt.data_buffer.take (chunk DATA_SIZE content 0).length
    send_buffer := ackPackage s.expected_blck_num s.send_buffer },
    ⟨hnum, rfl, ?_, congrArg Addr.port haddr, ?_⟩, rfl⟩
  · change s.pckt.data_buffer.take _ = _
    rw [hdata]
    exact (List.flatMap_singleton _ _).symm
  · change (ackPackage s.expected_blck_num s.send_buffer).val.take 4 = _
    rw [hnum]
    exact s.send_buffer.store_take hsize

/-- The first block is the answer to the request. -/
theorem requestReceive_holds (hnum : s.expected_blck_num = 1) (hfile : s.file = [])
    (hsent : ∀ l p, (l, p) ∈ sent → p.site = .request) :
    Transfer.Holds content server
      ⟨(s.requestReceive .rrq (some (blockPacket content server 0))).1, 1, sent ++
        (s.requestReceive .rrq (some (blockPacket content server 0))).2.map fun p => (1, p)⟩ := by
  have hdata := length_chunk_le DATA_SIZE content 0
  have hnil : s.file = (List.range 0).flatMap (chunk DATA_SIZE content) := hfile
  by_cases htries : s.timeout_tries - 1 = 0 ∨ s.err_blck_tries = 0
  · exact (Session.requestReceive_timeout .rrq htries _).holds hnil False.elim
  · obtain ⟨htimeout, herr⟩ := not_or.1 htries
    obtain ⟨tries, htries⟩ := Nat.exists_eq_succ_of_ne_zero herr
    have hlen : (blockPacket content server 0).bytes.length ≤ BUF_SIZE :=
      Nat.add_le_add_right hdata 4
    have hnumber : ((1 : Nat) : Int) = s.expected_blck_num := by rw [hnum]
    obtain ⟨t, hagrees, hpckt, haddr, _, _, hturn⟩ := Session.requestReceive_of_parse .rrq
      htimeout htries hlen (parse_data s.recv_buffer s.pckt
        (by decide : 1 < 65536) hdata) rfl hnumber
    rw [hturn]
    by_cases hzero : tries = 0
    · rw [if_pos hzero]
      exact t.giveUp_ends.holds (hagrees.file.trans hnil) False.elim
    · have hbuffer : t.pckt.data_buffer = copyAt s.pckt.data_buffer 0
          (chunk DATA_SIZE content 0 ++ [0]) := by rw [hpckt]
      obtain ⟨u, hu, hhead⟩ :=
        established_reads (hagrees.expected_blck_num.trans hnum) haddr hbuffer
      have hhead' : t.established .rrq (blockPacket content server 0).bytes.length =
          u.loopHead .rrq := hhead
      have hnone : Acknowledged 0 sent := fun l p hmem hsite => (hsite (hsent l p hmem)).elim
      rw [if_neg hzero, hhead']
      exact loopHead_holds hu (Nat.le_refl 1) (Nat.le_succ 1) hnone []
        fun _ hp => (List.not_mem_nil hp).elim

theorem Transfer.Holds.receive_none {t : Transfer} (h : t.Holds content server) :
    (t.receive none).Holds content server := by
  obtain ⟨client, served, sent⟩ := t
  cases client with
  | requesting s =>
    obtain ⟨hnum, hfile, rfl, hsent⟩ := h
    by_cases htimeout : s.timeout_tries - 1 = 0
    · have hturn : s.requestReceive .rrq none =
          { s with timeout_tries := s.timeout_tries - 1 }.giveUp := if_pos htimeout
      rw [Transfer.receive, Client.step, hturn]
      exact (Session.giveUp_ends _).holds (k := 0) hfile False.elim
    · have hturn : s.requestReceive .rrq none =
          (.requesting { s with timeout_tries := s.timeout_tries - 1 },
            [Session.send { s with timeout_tries := s.timeout_tries - 1 } .request BUF_SIZE]) :=
        if_neg htimeout
      rw [Transfer.receive, Client.step, hturn]
      refine ⟨hnum, hfile, rfl, fun l p hmem => ?_⟩
      rcases List.mem_append.1 hmem with hmem | hmem
      · exact hsent l p hmem
      · cases List.mem_singleton.1 hmem
        rfl
  | transferring s =>
    obtain ⟨i, hreads, hle, hge, hsent⟩ := h
    exact loopReceive_holds hreads hle hge hsent fun d hd => nomatch hd
  | ended outcome s => exact h

/-- A step of the client, of its server or of the network. -/
theorem Transfer.Holds.step {t t' : Transfer} (h : t.Holds content server)
    (hstep : Step content server t t') : t'.Holds content server := by
  cases hstep with
  | @serve l p _ hmem hsite haddr hack hdelay hfull =>
    obtain ⟨client, served, sent⟩ := t
    cases client with
    | requesting s => exact (hsite (h.2.2.2 l p hmem)).elim
    | transferring s =>
      obtain ⟨i, hreads, hle, hge, hsent⟩ := h
      rcases hsent l p hmem hsite with hnone | ⟨a, ha, hla, hal, hsame⟩
      · exact (hnone _ hack).elim
      · have hmod : a % 65536 = served % 65536 := by
          have hnumbers : numberBytes (a % 65536 : Nat) = numberBytes (served % 65536 : Nat) :=
            (List.cons.inj (List.cons.inj (hsame.symm.trans hack)).2).2
          exact numberBytes_inj (Nat.mod_lt _ (by decide)) (Nat.mod_lt _ (by decide)) hnumbers
        have hlast : served ≤ i + 1 := by
          change served < l + 65535 at hdelay
          change i + 1 ≤ served at hle
          omega
        exact ⟨i, hreads, Nat.le_succ_of_le hle, Nat.succ_le_succ hlast, hsent⟩
    | ended outcome s => exact h
  | @deliver i _ hi hdelay =>
    obtain ⟨client, served, sent⟩ := t
    cases client with
    | requesting s =>
      obtain ⟨hnum, hfile, rfl, hsent⟩ := h
      obtain rfl : i = 0 := Nat.lt_one_iff.1 hi
      exact requestReceive_holds hnum hfile hsent
    | transferring s =>
      obtain ⟨j, hreads, hle, hge, hsent⟩ := h
      exact blockPacket_holds hreads hle hge hsent hi hdelay
    | ended outcome s => exact h
  | timeout => exact h.receive_none
  | @foreign s d _ hclient hport =>
    obtain ⟨client, served, sent⟩ := t
    cases hclient
    obtain ⟨i, hreads, hle, hge, hsent⟩ := h
    apply loopReceive_holds hreads hle hge hsent
    intro e he
    cases he
    exact hport

theorem Transfer.Starts.holds {t : Transfer} (h : t.Starts) : t.Holds content server := by
  obtain ⟨addr, request, recv_buffer, hclient, hserved, hsent⟩ := h
  obtain ⟨client, served, sent⟩ := t
  cases hclient
  cases hserved
  cases hsent
  refine ⟨rfl, rfl, rfl, fun l p hmem => ?_⟩
  cases List.mem_singleton.1 hmem
  rfl

end Steps

/-- The file of a read request is its first blocks in order, as many as the expected number says,
and the whole file when the request completes. -/
theorem read_request_blocks {t : Transfer} (content : List UInt8) (server : Addr)
    (h : Reachable Transfer.Starts (Transfer.Step content server) t) :
    ∃ k, t.client.session.file = (List.range k).flatMap (chunk DATA_SIZE content) ∧
      (∀ s, t.client = .transferring s → k ≡ s.expected_blck_num [MOD 65536]) ∧
      ∀ s, t.client = .ended .completed s → s.file = content := by
  have hholds : t.Holds content server :=
    h.invariant (fun _ h => h.holds) fun _ _ h hstep => h.step hstep
  obtain ⟨client, served, sent⟩ := t
  cases client with
  | requesting s =>
    refine ⟨0, hholds.2.1, fun u hu => ?_, fun u hu => ?_⟩
    · cases hu
    · cases hu
  | transferring s =>
    obtain ⟨i, hreads, _⟩ := hholds
    refine ⟨i + 1, hreads.file, fun u hu => ?_, fun u hu => ?_⟩
    · cases hu
      rw [hreads.expected_blck_num]
      exact (Nat.mod_modEq _ _).symm
    · cases hu
  | ended outcome s =>
    obtain ⟨k, hfile, hdone⟩ := hholds
    refine ⟨k, hfile, fun u hu => ?_, fun u hu => ?_⟩
    · cases hu
    · cases hu
      exact hdone rfl

/-- A full block. -/
theorem read_request_blocks_full :
    let buffer : Buf := ⟨List.replicate 516 0, List.length_replicate⟩
    let server : Addr := ⟨[127, 0, 0, 1], 5000⟩
    let turn := startClient .rrq ⟨[127, 0, 0, 1], 69⟩ buffer buffer []
    let t : Transfer := ⟨turn.1, 1, turn.2.map fun p => (1, p)⟩
    let content : List UInt8 := List.replicate 512 7
    ∃ k, (t.receive (some (blockPacket content server 0))).client.session.file =
        (List.range k).flatMap (chunk DATA_SIZE content) ∧
      (∀ s, (t.receive (some (blockPacket content server 0))).client = .transferring s →
        k ≡ s.expected_blck_num [MOD 65536]) ∧
      ∀ s, (t.receive (some (blockPacket content server 0))).client = .ended .completed s →
        s.file = content := by
  intro buffer server turn t content
  apply read_request_blocks content server
  have hstart : Reachable Transfer.Starts (Transfer.Step content server) t :=
    .init ⟨⟨[127, 0, 0, 1], 69⟩, buffer, buffer, rfl, rfl, rfl⟩
  exact hstart.step (.deliver Nat.zero_lt_one (by decide : 1 < 0 + 1 + 65535))

end BigBox.Tftp
