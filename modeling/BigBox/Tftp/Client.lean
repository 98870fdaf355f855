import BigBox.Lib.CString
import BigBox.Lib.Fifo
import BigBox.Lib.TryRun
import Mathlib.Algebra.Order.Ring.Int

namespace BigBox.Tftp
set_option autoImplicit true

def TFTP_CMD_RRQ : Int := 1
def TFTP_CMD_WRQ : Int := 2
def TFTP_CMD_DATA : Int := 3
def TFTP_CMD_ACK : Int := 4
def TFTP_CMD_ERROR : Int := 5

def TFTP_ERR_NOT_DEFINED : Int := 0
def TFTP_ERR_ILLEGAL_OPERATION : Int := 4
def TFTP_ERR_UNKNOWN_TID : Int := 5
def TFTP_ERR_NO_USER : Int := 7

def BUF_SIZE : Nat := 516
def DATA_SIZE : Nat := 512

/-- A buffer of `BUF_SIZE` bytes. -/
abbrev Buf := { buffer : List UInt8 // buffer.length = BUF_SIZE }

/-- Bytes at the start of a buffer. -/
def Buf.store (buffer : Buf) (bytes : List UInt8) : Buf :=
  ⟨(bytes ++ buffer.val.drop bytes.length).take BUF_SIZE, by
    have hsize := buffer.property
    rw [List.length_take, List.length_append, List.length_drop]
    omega⟩

structure Packet where
  opcode : Int
  block_number : Int
  error_code : Int
  err_message : List UInt8
  data_buffer : List UInt8
  deriving DecidableEq

/-- A `char` as an `int`. -/
def charInt (c : UInt8) : Int := (c.toNat : Int).bmod 256

/-- The two bytes of a block number. -/
def numberBytes (n : Int) : List UInt8 := [UInt8.ofInt (n.tdiv 256), UInt8.ofInt (n.tmod 256)]

/-- A header and what follows it, as `data_package` and `ack_package` write them. -/
def dataBytes (block_number : Int) (data : List UInt8) : List UInt8 :=
  0 :: 3 :: (numberBytes block_number ++ data)

def ackBytes (block_num : Int) : List UInt8 := 0 :: 4 :: numberBytes block_num

def dataPackage (block_number : Int) (data : List UInt8) (buffer : Buf) : Buf :=
  buffer.store (dataBytes block_number data)

def ackPackage (block_num : Int) (buffer : Buf) : Buf := buffer.store (ackBytes block_num)

/-- An error that is not defined, and one with a long message, leave the buffer as it is. -/
def errorPackage (err_type : Int) (err_message : List UInt8) (buffer : Buf) : Buf :=
  if err_type ≤ TFTP_ERR_NOT_DEFINED ∨ TFTP_ERR_NO_USER ≤ err_type then buffer
  else if 512 ≤ err_message.length then buffer
  else buffer.store (0 :: 5 :: 0 :: UInt8.ofInt err_type :: err_message)

/-- A `char` that is corrected when it is negative. -/
def charByte (c : UInt8) : Int := if charInt c < 0 then 256 + charInt c else charInt c

/-- The number in the two bytes at the start of a packet's rest. -/
def rawNumber (buffer : List UInt8) : Int :=
  256 * charByte (buffer.getD 0 0) + charByte (buffer.getD 1 0)

def createDataPacketFromRaw (buffer : List UInt8) (blen : Int) (pckt : Packet) : Bool × Packet :=
  if 2 ≤ blen then
    (true, { pckt with
      block_number := rawNumber buffer
      data_buffer := copyAt pckt.data_buffer 0 ((buffer.drop 2).take (blen - 2).toNat ++ [0]) })
  else (false, pckt)

def createAckPacketFromRaw (buffer : List UInt8) (blen : Int) (pckt : Packet) : Bool × Packet :=
  if blen ≠ 2 then (false, pckt)
  else (true, { pckt with block_number := rawNumber buffer })

/-- A message that does not end in the buffer, and one that does not fit into `err_message`, have no
result. -/
def createErrorPacketFromRaw (buffer : List UInt8) (blen : Int) (pckt : Packet) :
    Option (Bool × Packet) :=
  if blen < 3 then some (false, pckt)
  else
    let message := cString (buffer.drop 2)
    if (0 : UInt8) ∈ buffer.drop 2 ∧ message.length < 32 then
      some (true, { pckt with
        error_code := charInt (buffer.getD 1 0)
        err_message := message })
    else none

/-- Parsing a request has no result: the function ends without a `return`. -/
def parserRawPacket (buffer : List UInt8) (blen : Int) (pckt : Packet) : Option (Bool × Packet) :=
  if buffer.getD 0 0 ≠ 0 then some (false, pckt)
  else
    let opcode := charInt (buffer.getD 1 0)
    if opcode = TFTP_CMD_RRQ then none
    else if opcode = TFTP_CMD_WRQ then none
    else if opcode = TFTP_CMD_DATA then
      some (createDataPacketFromRaw (buffer.drop 2) (blen - 2)
        { pckt with opcode := TFTP_CMD_DATA })
    else if opcode = TFTP_CMD_ACK then
      some (createAckPacketFromRaw (buffer.drop 2) (blen - 2) { pckt with opcode := TFTP_CMD_ACK })
    else if opcode = TFTP_CMD_ERROR then
      createErrorPacketFromRaw (buffer.drop 2) (blen - 2) { pckt with opcode := TFTP_CMD_ERROR }
    else some (false, pckt)

section Buffers

theorem Buf.store_split (buffer : Buf) {bytes : List UInt8} (h : bytes.length ≤ BUF_SIZE) :
    ∃ rest, (buffer.store bytes).val = bytes ++ rest := by
  refine ⟨(buffer.val.drop bytes.length).take (BUF_SIZE - bytes.length), ?_⟩
  change (bytes ++ _).take BUF_SIZE = _
  rw [List.take_append, List.take_of_length_le h]

theorem Buf.store_take (buffer : Buf) {bytes : List UInt8} (h : bytes.length ≤ BUF_SIZE) :
    (buffer.store bytes).val.take bytes.length = bytes := by
  obtain ⟨rest, hsplit⟩ := buffer.store_split h
  rw [hsplit, List.take_left]

theorem Buf.store_cons (buffer : Buf) (a b : UInt8) (bytes : List UInt8) :
    ∃ rest, (buffer.store (a :: b :: bytes)).val = a :: b :: rest := by
  refine ⟨(bytes ++ buffer.val.drop (a :: b :: bytes).length).take 514, ?_⟩
  change (a :: b :: (bytes ++ _)).take (514 + 2) = _
  rw [List.take_succ_cons, List.take_succ_cons]

theorem errorPackage_head (buffer : Buf) (h₀ : TFTP_ERR_NOT_DEFINED < err_type)
    (h₁ : err_type < TFTP_ERR_NO_USER) (h₂ : err_message.length < 512) :
    ∃ rest, (errorPackage err_type err_message buffer).val = 0 :: 5 :: rest := by
  rw [errorPackage, if_neg (not_or.2 ⟨Int.not_le.2 h₀, Int.not_le.2 h₁⟩),
    if_neg (Nat.not_le.2 h₂)]
  exact Buf.store_cons _ _ _ _

end Buffers

section Parsing

theorem unsigned_bmod {n : Nat} (h : n < 256) :
    (if (n : Int).bmod 256 < 0 then 256 + (n : Int).bmod 256 else (n : Int).bmod 256) = n := by
  rw [Int.bmod_def]
  split <;> split <;> omega

theorem charByte_eq (c : UInt8) : charByte c = c.toNat := unsigned_bmod c.toNat_lt

theorem ofInt_natCast (n : Nat) : UInt8.ofInt n = UInt8.ofNat n := by
  apply UInt8.toNat_inj.1
  rw [UInt8.ofInt, UInt8.toNat_ofNat', UInt8.toNat_ofNat']
  change n % 256 % 256 = n % 256
  exact Nat.mod_mod _ _

theorem rawNumber_numberBytes {n : Nat} (h : n < 65536) (rest : List UInt8) :
    rawNumber (numberBytes n ++ rest) = n := by
  change 256 * charByte (UInt8.ofInt (n / 256 : Nat)) + charByte (UInt8.ofInt (n % 256 : Nat)) = n
  rw [charByte_eq, charByte_eq, ofInt_natCast, ofInt_natCast, UInt8.toNat_ofNat',
    UInt8.toNat_ofNat']
  omega

theorem numberBytes_inj {m n : Nat} (hm : m < 65536) (hn : n < 65536)
    (h : numberBytes m = numberBytes n) : m = n := by
  have hnumber := rawNumber_numberBytes hm []
  rw [h, rawNumber_numberBytes hn] at hnumber
  omega

theorem length_dataBytes (n : Int) (data : List UInt8) :
    (dataBytes n data).length = data.length + 4 := rfl

theorem parse_header (buffer : List UInt8) (blen : Int) (pckt : Packet)
    (h₀ : buffer.getD 0 0 = 0) (h₁ : buffer.getD 1 0 = c) :
    parserRawPacket buffer blen pckt =
      if charInt c = TFTP_CMD_RRQ then none
      else if charInt c = TFTP_CMD_WRQ then none
      else if charInt c = TFTP_CMD_DATA then
        some (createDataPacketFromRaw (buffer.drop 2) (blen - 2)
          { pckt with opcode := TFTP_CMD_DATA })
      else if charInt c = TFTP_CMD_ACK then
        some (createAckPacketFromRaw (buffer.drop 2) (blen - 2)
          { pckt with opcode := TFTP_CMD_ACK })
      else if charInt c = TFTP_CMD_ERROR then
        createErrorPacketFromRaw (buffer.drop 2) (blen - 2) { pckt with opcode := TFTP_CMD_ERROR }
      else some (false, pckt) := by
  rw [parserRawPacket, h₀, h₁, if_neg (not_not_intro rfl)]

theorem parse_data (buffer : Buf) (pckt : Packet) {n : Nat} (hn : n < 65536)
    (hdata : data.length ≤ DATA_SIZE) :
    parserRawPacket (buffer.store (dataBytes n data)).val (data.length + 4 : Nat) pckt =
      some (true, { pckt with
        opcode := TFTP_CMD_DATA
        block_number := n
        data_buffer := copyAt pckt.data_buffer 0 (data ++ [0]) }) := by
  have hsize : (dataBytes n data).length ≤ BUF_SIZE := by
    rw [length_dataBytes, BUF_SIZE]
    exact Nat.add_le_add_right hdata 4
  have hlen : (((data.length + 4 : Nat) : Int) - 2 - 2).toNat = data.length := by omega
  have hlong : (2 : Int) ≤ ((data.length + 4 : Nat) : Int) - 2 := by omega
  obtain ⟨rest, hsplit⟩ := buffer.store_split hsize
  rw [hsplit, parse_header (c := 3) (dataBytes n data ++ rest) _ pckt rfl rfl, if_neg (by decide),
    if_neg (by decide), if_pos (by decide)]
  change some (createDataPacketFromRaw (numberBytes n ++ data ++ rest) _ _) = _
  rw [createDataPacketFromRaw, if_pos hlong, hlen, List.append_assoc, rawNumber_numberBytes hn]
  change some (true, { pckt with
    opcode := TFTP_CMD_DATA
    block_number := _
    data_buffer := copyAt pckt.data_buffer 0 ((data ++ rest).take data.length ++ [0]) }) = _
  rw [List.take_left]

theorem parse_ack (buffer : Buf) (pckt : Packet) {n : Nat} (hn : n < 65536) :
    parserRawPacket (buffer.store (ackBytes n)).val (4 : Nat) pckt =
      some (true, { pckt with opcode := TFTP_CMD_ACK, block_number := n }) := by
  obtain ⟨rest, hsplit⟩ := buffer.store_split
    (show (ackBytes n).length ≤ BUF_SIZE from (by decide : 4 ≤ 516))
  rw [hsplit, parse_header (c := 4) (ackBytes n ++ rest) _ pckt rfl rfl, if_neg (by decide),
    if_neg (by decide), if_neg (by decide), if_pos (by decide)]
  change some (createAckPacketFromRaw (numberBytes n ++ rest) (2 : Nat) _) = _
  rw [createAckPacketFromRaw, if_neg (by decide), rawNumber_numberBytes hn]

end Parsing

def MAX_TRIES : Nat := 5

inductive Request where
  | rrq | wrq
  deriving DecidableEq

/-- A socket address. -/
structure Addr where
  host : List UInt8
  port : UInt16
  deriving DecidableEq

/-- A datagram with the address it comes from or goes to. -/
structure Datagram where
  addr : Addr
  bytes : List UInt8
  deriving DecidableEq

/-- The statements that send: those of the request loop and of the transfer loop, the final
acknowledgement, and those behind an `error_package`. -/
inductive Site where
  | request | loop | final | error
  deriving DecidableEq

structure Sent where
  site : Site
  packet : Datagram
  deriving DecidableEq

/-- The variables of `start_client`. `file` is what `fwrite` has written, or what `fread` has
left. -/
structure Session where
  other_addr : Addr
  dest_tid : UInt16
  send_buffer : Buf
  recv_buffer : Buf
  pckt : Packet
  expected_blck_num : Nat
  data_size : Nat
  rv : Bool
  err_blck_tries : Nat
  timeout_tries : Nat
  file : List UInt8

inductive Outcome where
  | completed | gaveUp | malformed | unexpected | refused | undefined
  deriving DecidableEq

/-- `start_client` at a `recvfrom` of the request loop or of the transfer loop, or at its end. -/
inductive Client where
  | requesting (s : Session)
  | transferring (s : Session)
  | ended (outcome : Outcome) (s : Session)

def Client.session : Client → Session
  | .requesting s => s
  | .transferring s => s
  | .ended _ s => s

/-- What a part of the run comes to: where it waits, and what it has sent. -/
abbrev Turn := Client × List Sent

def message (text : String) : List UInt8 := text.toList.map fun c => UInt8.ofNat c.toNat

/-- The type of packet a loop waits for. -/
def Request.answer : Request → Int
  | .rrq => TFTP_CMD_DATA
  | .wrq => TFTP_CMD_ACK

/-- The condition of a transfer loop. -/
def Request.goes : Request → Nat → Bool
  | .rrq, data_size => data_size = 512
  | .wrq, data_size => 0 < data_size

/-- The number of bytes a transfer loop sends. -/
def Request.size : Request → Nat → Nat
  | .rrq, _ => 4
  | .wrq, data_size => data_size + 4

namespace Session

def send (s : Session) (site : Site) (size : Nat) : Sent :=
  ⟨site, s.other_addr, s.send_buffer.val.take size⟩

/-- A packet that is not allowed ends the client. -/
def illegal (s : Session) (outcome : Outcome) : Turn :=
  let s := { s with
    send_buffer :=
      errorPackage TFTP_ERR_ILLEGAL_OPERATION (message "Illegal TFTP Operation") s.send_buffer }
  (.ended outcome s, [s.send .error BUF_SIZE])

def giveUp (s : Session) : Turn :=
  let s := { s with
    send_buffer :=
      errorPackage TFTP_ERR_NOT_DEFINED (message "Maximum tries reached") s.send_buffer }
  (.ended .gaveUp s, [s.send .error BUF_SIZE])

/-- Behind the transfer loop. -/
def loopEnd (req : Request) (s : Session) : Turn :=
  if s.timeout_tries = 0 ∨ s.err_blck_tries = 0 then s.giveUp
  else
    match req with
    | .rrq =>
      let s := { s with send_buffer := ackPackage s.pckt.block_number s.send_buffer }
      (.ended .completed s, [s.send .final 4])
    | .wrq => (.ended .completed s, [])

/-- The transfer loop up to its `recvfrom`. -/
def loopHead (req : Request) (s : Session) : Turn :=
  if req.goes s.data_size then
    let err_blck_tries := if s.rv then s.err_blck_tries - 1 else MAX_TRIES
    let s := { s with rv := false, err_blck_tries }
    if err_blck_tries = 0 then s.loopEnd req
    else
      let s := { s with timeout_tries := MAX_TRIES }
      (.transferring s, [s.send .loop (req.size s.data_size)])
  else s.loopEnd req

/-- The end of a round of the loop of a read request. -/
def acceptData (s : Session) (reclength : Nat) : Turn :=
  if s.pckt.block_number = ((s.expected_blck_num + 1) % 65536 : Nat) then
    let data_size := reclength - 4
    let expected_blck_num := (s.expected_blck_num + 1) % 65536
    loopHead .rrq { s with
      data_size
      file := s.file ++ s.pckt.data_buffer.take data_size
      expected_blck_num
      send_buffer := ackPackage expected_blck_num s.send_buffer }
  else loopHead .rrq { s with rv := true }

/-- `fread` and `data_package`. -/
def nextData (s : Session) : Session :=
  let data := s.file.take DATA_SIZE
  { s with
    recv_buffer := s.recv_buffer.store data
    data_size := data.length
    file := s.file.drop DATA_SIZE
    send_buffer := dataPackage s.expected_blck_num data s.send_buffer }

/-- The end of a round of the loop of a write request. -/
def acceptAck (s : Session) : Turn :=
  if s.pckt.block_number = s.expected_blck_num then
    if s.data_size < DATA_SIZE then s.loopEnd .wrq
    else
      loopHead .wrq
        { s with expected_blck_num := (s.expected_blck_num + 1) % 65536 }.nextData
  else loopHead .wrq s

def accept (req : Request) (s : Session) (reclength : Nat) : Turn :=
  match req with
  | .rrq => s.acceptData reclength
  | .wrq => s.acceptAck

/-- The round of the transfer loop behind a packet from the right port. -/
def loopPacket (req : Request) (s : Session) (reclength : Nat) : Turn :=
  match parserRawPacket s.recv_buffer.val reclength s.pckt with
  | none => (.ended .undefined s, [])
  | some (false, pckt) => { s with pckt }.illegal .malformed
  | some (true, pckt) =>
    let s := { s with pckt }
    if pckt.opcode ≠ req.answer then
      if pckt.opcode = TFTP_CMD_ERROR then
        if pckt.error_code = TFTP_ERR_UNKNOWN_TID then s.loopHead req
        else (.ended .refused s, [])
      else s.illegal .unexpected
    else s.accept req reclength

/-- `recvfrom` brings a datagram. -/
def received (s : Session) (d : Datagram) : Session :=
  { s with
    other_addr := d.addr
    recv_buffer := s.recv_buffer.store (d.bytes.take BUF_SIZE)
    timeout_tries := s.timeout_tries - 1 }

/-- A round of the transfer loop from its `recvfrom` to the next one. -/
def loopReceive (req : Request) (s : Session) : Option Datagram → Turn
  | none =>
    let s := { s with timeout_tries := s.timeout_tries - 1 }
    if s.timeout_tries = 0 then s.loopEnd req
    else (.transferring s, [s.send .loop (req.size s.data_size)])
  | some d =>
    let s := s.received d
    if s.timeout_tries = 0 then s.loopEnd req
    else if s.dest_tid ≠ s.other_addr.port then
      let s := { s with
        recv_buffer := errorPackage TFTP_ERR_UNKNOWN_TID (message "Unknown TID") s.recv_buffer
        rv := true }
      let turn := s.loopHead req
      (turn.1, ⟨.error, s.other_addr, s.recv_buffer.val⟩ :: turn.2)
    else s.loopPacket req (min d.bytes.length BUF_SIZE)

/-- Between the two loops: the port is fixed, and the first block is written or read. -/
def established (req : Request) (s : Session) (reclength : Nat) : Turn :=
  let s := { s with dest_tid := s.other_addr.port, rv := false }
  match req with
  | .rrq =>
    let data_size := reclength - 4
    loopHead .rrq { s with
      data_size
      file := s.pckt.data_buffer.take data_size
      send_buffer := ackPackage s.expected_blck_num s.send_buffer }
  | .wrq => loopHead .wrq { s with expected_blck_num := s.expected_blck_num + 1 }.nextData

/-- The round of the request loop behind a datagram. A write request that is answered with another
number parses the same buffer again. -/
def requestPacket (req : Request) : Nat → Session → Nat → Turn
  | 0, s, _ => s.giveUp
  | tries + 1, s, reclength =>
    match parserRawPacket s.recv_buffer.val reclength s.pckt with
    | none => (.ended .undefined s, [])
    | some (false, pckt) => { s with pckt }.illegal .malformed
    | some (true, pckt) =>
      let s := { s with pckt }
      if pckt.opcode ≠ req.answer then
        if pckt.opcode = TFTP_CMD_ERROR then (.ended .refused s, [])
        else s.illegal .unexpected
      else
        let s := { s with err_blck_tries := tries }
        if (s.expected_blck_num : Int) ≠ pckt.block_number ∧ tries ≠ 0 then
          let s := { s with timeout_tries := MAX_TRIES }
          match req with
          | .rrq => (.requesting s, [s.send .request BUF_SIZE])
          | .wrq => s.requestPacket .wrq tries reclength
        else if tries = 0 then s.giveUp
        else s.established req reclength

/-- A round of the request loop from its `recvfrom` to the next one. -/
def requestReceive (req : Request) (s : Session) : Option Datagram → Turn
  | none =>
    let s := { s with timeout_tries := s.timeout_tries - 1 }
    if s.timeout_tries = 0 then s.giveUp
    else (.requesting s, [s.send .request BUF_SIZE])
  | some d =>
    let s := s.received d
    if s.timeout_tries = 0 then s.giveUp
    else s.requestPacket req s.err_blck_tries (min d.bytes.length BUF_SIZE)

end Session

/-- What `recvfrom` returns takes the client to its next `recvfrom`. -/
def Client.step (req : Request) : Client → Option Datagram → Turn
  | .requesting s, r => s.requestReceive req r
  | .transferring s, r => s.loopReceive req r
  | .ended outcome s, _ => (.ended outcome s, [])

/-- `start_client` with its request in the buffer, and the file of a write request. -/
def startClient (req : Request) (server : Addr) (request recv_buffer : Buf) (file : List UInt8) :
    Turn :=
  let s : Session :=
    { other_addr := server
      dest_tid := 69
      send_buffer := request
      recv_buffer
      pckt := ⟨-1, -1, -1, [], List.replicate 1024 0⟩
      expected_blck_num := match req with
        | .rrq => 1
        | .wrq => 0
      data_size := match req with
        | .rrq => 0
        | .wrq => DATA_SIZE
      rv := false
      err_blck_tries := MAX_TRIES
      timeout_tries := MAX_TRIES
      file := match req with
        | .rrq => []
        | .wrq => file }
  (.requesting s, [s.send .request BUF_SIZE])

end BigBox.Tftp
