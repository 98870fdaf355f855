import BigBox.Lib.Memory
import BigBox.Ymodem.Packet

namespace BigBox.Ymodem
set_option autoImplicit true

/-- What `Receive_Packet` returns and leaves behind. -/
structure Packet where
  status : Int
  length : Int
  data : Nat → UInt8
  rest : List Reply

/-- The packet size a start byte announces. -/
def packetSize (c : UInt8) : Option Nat :=
  if c = 0xA1 then some 8
  else if c = 0xA2 then some 16
  else if c = 0xA3 then some 32
  else if c = 0xA4 then some 64
  else if c = 0xA5 ∨ c = SOH then some PACKET_128B_SIZE
  else if c = 0xA6 then some 256
  else if c = 0xA7 then some 512
  else if c = 0xA8 ∨ c = STX then some PACKET_1KB_SIZE
  else if c = 0xA9 then some 2048
  else none

/-- The loop that stores the next `n` bytes from `data + i` on, until a timeout. -/
def receiveBytes : Nat → (Nat → UInt8) → Nat → List Reply →
    Option (Bool × (Nat → UInt8) × List Reply)
  | 0, data, _, rs => some (true, data, rs)
  | _ + 1, _, _, [] => none
  | _ + 1, data, _, none :: rs => some (false, data, rs)
  | n + 1, data, i, some c :: rs => receiveBytes n (writeBytes data i [c]) (i + 1) rs

/-- `Receive_Packet`. A line that stays silent forever has no result. -/
def receivePacket (data : Nat → UInt8) : List Reply → Option Packet
  | [] => none
  | none :: rs => some ⟨-1, 0, data, rs⟩
  | some c :: rs =>
    match packetSize c with
    | some size =>
      (receiveBytes (size + PACKET_OVERHEAD - 1) (writeBytes data 0 [c]) 1 rs).map
        fun (ok, data, rs) =>
          if ok = false then ⟨-1, 0, data, rs⟩
          else if data 1 ≠ data 2 ^^^ 0xff then ⟨-1, 0, data, rs⟩
          else ⟨0, size, data, rs⟩
    | none =>
      if c = EOT then some ⟨0, 0, data, rs⟩
      else if c = CA then
        match rs with
        | [] => none
        | r :: rs => some (if r = some CA then ⟨0, -1, data, rs⟩ else ⟨-1, 0, data, rs⟩)
      else if c = ABORT1 ∨ c = ABORT2 then some ⟨1, 0, data, rs⟩
      else some ⟨-1, 0, data, rs⟩

def isValidDec (c : UInt8) : Bool := 0x30 ≤ c ∧ c ≤ 0x39
def isAF (c : UInt8) : Bool := 0x41 ≤ c ∧ c ≤ 0x46
def isaf (c : UInt8) : Bool := 0x61 ≤ c ∧ c ≤ 0x66

def convertHex (c : UInt8) : UInt32 :=
  if isValidDec c then (c - 0x30).toUInt32
  else if isAF c then (c - 0x41 + 10).toUInt32 else (c - 0x61 + 10).toUInt32

/-- The hexadecimal loop of `Str2Int`, with the rounds still to go. -/
def str2IntHex : Nat → List UInt8 → UInt32 → Option UInt32
  | 0, _, _ | _, [], _ => none
  | n + 1, c :: str, val =>
    if c = 0 then some val
    else if isAF c ∨ isaf c ∨ isValidDec c then str2IntHex n str ((val <<< 4) + convertHex c)
    else none

/-- The decimal loop of `Str2Int`, with the rounds still to go. -/
def str2IntDec : Nat → Bool → List UInt8 → UInt32 → Option UInt32
  | 0, _, _, _ | _, _, [], _ => none
  | n + 1, first, c :: str, val =>
    if c = 0 then some val
    else if (c = 0x6B ∨ c = 0x4B) ∧ !first then some (val <<< 10)
    else if (c = 0x6D ∨ c = 0x4D) ∧ !first then some (val <<< 20)
    else if isValidDec c then str2IntDec n false str (val * 10 + (c - 0x30).toUInt32)
    else none

/-- `Str2Int` of a terminated text: the number it stores, if it stores one. -/
def str2Int (inputstr : List UInt8) : Option UInt32 :=
  match inputstr with
  | 0x30 :: x :: str =>
    if x = 0x78 ∨ x = 0x58 then
      if str.head? = some 0 then none else str2IntHex 9 str 0
    else str2IntDec 11 true inputstr 0
  | _ => str2IntDec 11 true inputstr 0

/-- The bytes from `p` on before the first `stop`, at most `n` of them. -/
def scan (stop : UInt8) : Nat → (Nat → UInt8) → Nat → List UInt8
  | 0, _, _ => []
  | n + 1, data, p => if data p = stop then [] else data p :: scan stop n data (p + 1)

/-- The text of the file size behind the file name of a header packet. -/
def fileSize (data : Nat → UInt8) : List UInt8 :=
  let fileName := scan 0 FILE_NAME_LENGTH data PACKET_HEADER
  scan 0x20 FILE_SIZE_LENGTH data (PACKET_HEADER + fileName.length + 1) ++ [0]

/-- The variables of `Ymodem_Receive`, the memory at its buffer and the bytes sent so far.
`bufPtr` is an offset into the buffer. -/
structure Session where
  packetData : Nat → UInt8
  buf : Nat → UInt8
  bufPtr : Nat
  packetsReceived : Nat
  errors : Nat
  sessionBegin : Bool
  size : UInt32
  sent : List UInt8

/-- What the handling of a packet leads to. -/
inductive Outcome where
  | again
  | fileDone
  | sessionDone
  | abort (value : Int)
  deriving DecidableEq, Repr

def Session.send (s : Session) (bytes : List UInt8) : Session := { s with sent := s.sent ++ bytes }

/-- A packet is counted once it is stored. -/
def Session.count (s : Session) : Session :=
  { s with packetsReceived := s.packetsReceived + 1, sessionBegin := true }

/-- The body of the packet loop for a packet of a positive length. -/
def Session.normalPacket (s : Session) (length : Nat) : Session × Outcome :=
  if s.packetData 1 ≠ UInt8.ofNat s.packetsReceived then (s.send [NAK], .again)
  else if s.packetsReceived = 0 then
    if s.packetData PACKET_HEADER ≠ 0 then
      let size := (str2Int (fileSize s.packetData)).getD s.size
      ((({ s with size }).send [ACK, CRC16]).count, .again)
    else (s.send [ACK], .sessionDone)
  else
    let data := readBytes s.packetData PACKET_HEADER length
    ((({ s with buf := writeBytes s.buf s.bufPtr data }).send [ACK]).count, .again)

/-- The body of the packet loop. -/
def Session.step (s : Session) (p : Packet) : Session × Outcome :=
  let s := { s with packetData := p.data }
  if p.status = 0 then
    let s := { s with errors := 0 }
    if p.length = -1 then (s.send [ACK], .abort 0)
    else if p.length = 0 then (s.send [ACK], .fileDone)
    else s.normalPacket p.length.toNat
  else if p.status = 1 then (s.send [CA, CA], .abort (-3))
  else
    let s := if s.sessionBegin then { s with errors := s.errors + 1 } else s
    if s.errors > MAX_ERRORS then (s.send [CA, CA], .abort 0)
    else (s.send [CRC16], .again)

/-- How `Ymodem_Receive` returns. -/
structure Received where
  value : Int
  buf : Nat → UInt8
  sent : List UInt8

/-- The session and packet loops, for as many rounds as there are replies. -/
def receiveLoop : Nat → Session → List Reply → Option Received
  | 0, _, _ => none
  | n + 1, s, rs =>
    (receivePacket s.packetData rs).bind fun p =>
      match s.step p with
      | (s, .again) => receiveLoop n s p.rest
      | (s, .fileDone) => receiveLoop n { s with packetsReceived := 0, bufPtr := 0 } p.rest
      | (s, .sessionDone) => some ⟨s.size.toInt32.toInt, s.buf, s.sent⟩
      | (s, .abort value) => some ⟨value, s.buf, s.sent⟩

/-- `Ymodem_Receive`, where `stack` is the memory at its uninitialised packet buffer. -/
def ymodemReceive (stack buf : Nat → UInt8) (rs : List Reply) : Option Received :=
  receiveLoop rs.length ⟨stack, buf, 0, 0, 0, false, 0, [CRC16]⟩ rs

end BigBox.Ymodem
