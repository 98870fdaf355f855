import BigBox.Lib.Fifo

namespace BigBox.Ymodem
set_option autoImplicit true

def PACKET_HEADER : Nat := 3
def PACKET_TRAILER : Nat := 2
def PACKET_OVERHEAD : Nat := PACKET_HEADER + PACKET_TRAILER
def PACKET_128B_SIZE : Nat := 128
def PACKET_1KB_SIZE : Nat := 1024
def FILE_NAME_LENGTH : Nat := 256
def FILE_SIZE_LENGTH : Nat := 16
def MAX_ERRORS : Nat := 5

def SOH : UInt8 := 0x01
def STX : UInt8 := 0x02
def EOT : UInt8 := 0x04
def ACK : UInt8 := 0x06
def NAK : UInt8 := 0x15
def CA : UInt8 := 0x18
def CRC16 : UInt8 := 0x43
def ABORT1 : UInt8 := 0x41
def ABORT2 : UInt8 := 0x61

/-- What one call of `Receive_Byte` brings: a byte, or a timeout. -/
abbrev Reply := Option UInt8

/-- The rounds of the loop in `UpdateCRC16`. The marker bit of `in` leaves the loop in the
eighth round. -/
def updateCRC16Rounds : Nat → UInt32 → UInt32 → UInt32
  | 0, crc, _ => crc
  | n + 1, crc, inp =>
    let crc := crc <<< 1
    let inp := inp <<< 1
    let crc := if inp &&& 0x100 ≠ 0 then crc + 1 else crc
    let crc := if crc &&& 0x10000 ≠ 0 then crc ^^^ 0x1021 else crc
    if inp &&& 0x10000 ≠ 0 then crc else updateCRC16Rounds n crc inp

def updateCRC16 (crcIn : UInt16) (byte : UInt8) : UInt16 :=
  (updateCRC16Rounds 8 crcIn.toUInt32 (byte.toUInt32 ||| 0x100) &&& 0xffff).toUInt16

def calCRC16 (data : List UInt8) : UInt16 :=
  updateCRC16 (updateCRC16 (data.foldl updateCRC16 0) 0) 0

/-- The two bytes sent behind a payload, high byte first. -/
def crcBytes (data : List UInt8) : List UInt8 :=
  [(calCRC16 data >>> 8).toUInt8, (calCRC16 data &&& 0xFF).toUInt8]

/-- The loop of `Int2Str`, with the rounds still to go. -/
def int2StrRounds : Nat → List UInt8 → UInt32 → UInt32 → Nat → Nat → List UInt8
  | 0, str, _, _, _, _ => str
  | n + 1, str, intnum, div, j, status =>
    let digit := (intnum / div + 48).toUInt8
    let str := copyAt str j [digit]
    if digit = 48 ∧ status = 0 then int2StrRounds n str (intnum % div) (div / 10) 0 status
    else int2StrRounds n str (intnum % div) (div / 10) (j + 1) (status + 1)

/-- The array at `str` after the digits are written over it. No terminator is written. -/
def int2Str (str : List UInt8) (intnum : UInt32) : List UInt8 :=
  int2StrRounds 10 str intnum 1000000000 0 0

/-- `Ymodem_PrepareIntialPacket`, where `stack` is the memory at its uninitialised array
`file_ptr`. -/
def ymodemPrepareIntialPacket (stack data fileName : List UInt8) (length : UInt32) :
    List UInt8 :=
  let name := (fileName.take FILE_NAME_LENGTH).takeWhile (· ≠ 0)
  let digits := (int2Str stack length).takeWhile (· ≠ 0)
  let front := [SOH, 0x00, 0xff] ++ name ++ [0] ++ digits
  copyAt data 0
    (front ++ List.replicate (PACKET_128B_SIZE + PACKET_HEADER - front.length) 0)

/-- `Ymodem_PreparePacket`: `sourceBuf` are the bytes from `SourceBuf` on. -/
def ymodemPreparePacket (sourceBuf data : List UInt8) (pktNo : UInt8) (sizeBlk : Nat) :
    List UInt8 :=
  let packetSize := if sizeBlk ≥ PACKET_1KB_SIZE then PACKET_1KB_SIZE else PACKET_128B_SIZE
  let size := if sizeBlk < packetSize then sizeBlk else packetSize
  let start := if packetSize = PACKET_1KB_SIZE then STX else SOH
  copyAt data 0
    ([start, pktNo, ~~~pktNo] ++ sourceBuf.take size ++
      List.replicate (packetSize - size) 0x1A)

/-- The bytes `Ymodem_SendPacket` hands to `Send_Byte`. -/
def ymodemSendPacket (data : List UInt8) (length : Nat) : List UInt8 := data.take length

/-- The bytes of a data packet on the line: start byte, sequence byte, its complement, payload
and checksum. -/
def dataFrame (seq : Nat) (payload : List UInt8) : List UInt8 :=
  [if payload.length = PACKET_1KB_SIZE then STX else SOH, UInt8.ofNat seq,
    ~~~UInt8.ofNat seq] ++ payload ++ crcBytes payload

/-- A payload of one of the two packet sizes in use. -/
def PayloadSize (payload : List UInt8) : Prop :=
  payload.length = PACKET_128B_SIZE ∨ payload.length = PACKET_1KB_SIZE

theorem length_crcBytes (data : List UInt8) : (crcBytes data).length = 2 := rfl

theorem length_dataFrame (seq : Nat) (payload : List UInt8) :
    (dataFrame seq payload).length = payload.length + PACKET_OVERHEAD := by
  simp only [dataFrame, List.length_append, length_crcBytes, PACKET_OVERHEAD, PACKET_HEADER,
    PACKET_TRAILER, List.length_cons, List.length_nil]
  omega

end BigBox.Ymodem
