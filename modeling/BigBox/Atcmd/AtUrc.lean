import BigBox.Lib.Block
import BigBox.Lib.CInt
import BigBox.Lib.CString

namespace BigBox.Atcmd
set_option autoImplicit true

/-- `at_urc_t` without the function it calls. -/
structure AtUrc where
  cmdPrefix : Text
  cmdSuffix : Text

/-- `at_client_t` as far as lines are read, with the memory behind `recv_buffer`. -/
structure AtClient where
  endSign : UInt8
  recvBuffer : List UInt8
  recvBufsz : Nat
  curRecvLen : Nat
  urcTable : Option (List AtUrc)
  lt : recvBufsz < 4294967296

/-- The test of one entry. Both lengths are of type `uint32_t`. -/
def testUrc (buffer : List UInt8) (bufSz : Nat) (urc : AtUrc) : Option Bool :=
  let prefixLen := unsigned urc.cmdPrefix.1.length
  let suffixLen := unsigned urc.cmdSuffix.1.length
  if bufSz < unsigned (prefixLen + suffixLen) then some false
  else do
    let begins ← strncmp buffer (urc.cmdPrefix.1 ++ [0]) prefixLen
    if begins ≠ 0 then some false
    else if suffixLen = 0 then some true
    -- the place compared with lies in front of the buffer
    else if bufSz < suffixLen then none
    else do
      let ends ← strncmp (buffer.drop (bufSz - suffixLen)) (urc.cmdSuffix.1 ++ [0]) suffixLen
      some (ends = 0)

/-- The index of the first entry that passes a test, counted from `i`. -/
def scan (test : α → Option Bool) (i : Nat) : List α → Option (Option Nat)
  | [] => some none
  | a :: l => do
    if ← test a then some (some i) else scan test (i + 1) l

def AtClient.getUrcObj (client : AtClient) : Option (Option Nat) :=
  match client.urcTable with
  | none => some none
  | some table => scan (testUrc client.recvBuffer client.recvBufsz) 0 table

/-- The `memset` of the buffer. -/
def AtClient.clear (client : AtClient) : Option AtClient :=
  (Block.write client.recvBuffer 0 (List.replicate client.recvBufsz 0)).map fun recvBuffer =>
    { client with recvBuffer, curRecvLen := 0 }

/-- The variables of `at_recv_readline`. -/
structure ReadLine where
  client : AtClient
  readLen : Nat
  lastCh : UInt8
  isFull : Bool

/-- The next value of an `int32_t` that is not negative. An overflow has no result. -/
def succInt (n : Nat) : Option Nat := if n + 1 < 2147483648 then some (n + 1) else none

/-- A character is stored, if there is room for it. -/
def ReadLine.store (s : ReadLine) (ch : UInt8) : Option ReadLine :=
  if s.readLen < s.client.recvBufsz then do
    let recvBuffer ← Block.write s.client.recvBuffer s.readLen [ch]
    let readLen ← succInt s.readLen
    some { s with client := { s.client with recvBuffer, curRecvLen := readLen }, readLen }
  else some { s with isFull := true }

/-- A newline, the end sign or an unsolicited code. -/
def ReadLine.ends (s : ReadLine) (ch : UInt8) : Option Bool :=
  if ch = 10 ∧ s.lastCh = 13 ∨ s.client.endSign ≠ 0 ∧ ch = s.client.endSign then some true
  else s.client.getUrcObj.map Option.isSome

/-- The loop over the characters that `at_client_getchar` leaves in `ch`. With none of them to
end a line it still waits. -/
def readLoop (s : ReadLine) : List UInt8 → Option (Option (AtClient × Int × List UInt8))
  | [] => some none
  | ch :: chars => do
    let s ← s.store ch
    if ← s.ends ch then
      if s.isFull then s.client.clear.map fun client => some (client, -1, chars)
      else some (some (s.client, s.readLen, chars))
    else readLoop { s with lastCh := ch } chars

/-- A round of the loop that does not end it. -/
def ReadLine.push (s : ReadLine) (ch : UInt8) : Option ReadLine :=
  (s.store ch).map fun s => { s with lastCh := ch }

/-- The variables once the characters of a line are stored. -/
def received (client : AtClient) (line : List UInt8) : Option ReadLine := do
  let client ← client.clear
  line.foldlM ReadLine.push ⟨client, 0, 0, false⟩

/-- The line starts with the prefix of the entry and ends with its suffix. -/
def AtUrc.Matches (urc : AtUrc) (line : List UInt8) : Prop :=
  urc.cmdPrefix.1 <+: line ∧ urc.cmdSuffix.1 <:+ line

instance (urc : AtUrc) (line : List UInt8) : Decidable (urc.Matches line) :=
  inferInstanceAs (Decidable (_ ∧ _))

/-- What the buffer keeps of a line. A longer line is refused at its end. -/
def AtClient.kept (client : AtClient) (line : List UInt8) : List UInt8 :=
  line.take client.recvBufsz

/-- The memory behind `recv_buffer` with the bytes kept, zeros up to its size, and what was behind
them. -/
def AtClient.filled (client : AtClient) (kept : List UInt8) : List UInt8 :=
  kept ++ (List.replicate (client.recvBufsz - kept.length) 0 ++
    client.recvBuffer.drop client.recvBufsz)

def AtClient.holding (client : AtClient) (kept : List UInt8) : AtClient :=
  { client with recvBuffer := client.filled kept, curRecvLen := kept.length }

section Test
variable {client : AtClient} {kept : List UInt8} {urc : AtUrc}

end Test

section Received
variable {client : AtClient}

/-- The variables once a line is stored in memory that has the size of the buffer. -/
def ReadLine.after (client : AtClient) (line : List UInt8) : ReadLine :=
  ⟨client.holding (client.kept line), (client.kept line).length, line.getLastD 0,
    client.recvBufsz < line.length⟩

/-- The memory has the size of the buffer, and `int32_t` counts the bytes kept. -/
def AtClient.Fits (client : AtClient) (line : List UInt8) : Prop :=
  client.recvBufsz ≤ client.recvBuffer.length ∧ (client.kept line).length < 2147483648

end Received

section Witness

end Witness

end BigBox.Atcmd
