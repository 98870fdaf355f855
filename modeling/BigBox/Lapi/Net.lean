import BigBox.Lapi.Stringbuf
import BigBox.Lib.TryRun

namespace BigBox.Lapi
set_option autoImplicit true

/-- What the kernel answers to one `send`: it takes at most `n` bytes, or fails with
`EWOULDBLOCK` or another error. -/
inductive SendResult
  | takes (n : Nat)
  | wouldBlock
  | fails
deriving DecidableEq

inductive Ready
  | none | data | newSocket | connectOk | close | resend
deriving DecidableEq

/-- A TCP `sock_t`, with the bytes the kernel has taken from it. -/
structure Sock where
  txBuf : Strbuf
  kernel : List UInt8
  ready : Ready
  connected : Bool
  listening : Bool
  closeAsync : Bool

/-- A socket from `sock_tcp` that is connected. -/
def Sock.connectedTcp (bufsize : Nat) : Sock :=
  ⟨strbufInit bufsize, [], .connectOk, true, false, false⟩

namespace Sock

/-- One `send` of `data`: its return value, negative on an error. -/
def send (s : Sock) (data : List UInt8) : SendResult → Int × Sock
  | .takes n => ((min n data.length : Nat), { s with kernel := s.kernel ++ data.take n })
  | .wouldBlock => (-1, s)
  | .fails => (-1, s)

/-- `tcp_resend`; the kernel takes nothing from a null `buf`. -/
def tcpResend (s : Sock) (result : SendResult) : Sock :=
  if 0 < s.txBuf.len then
    let sent := s.send s.txBuf.content result
    if 0 < sent.1 then { sent.2 with txBuf := (s.txBuf.consume sent.1).2 } else sent.2
  else s

/-- What the calls below find: the answers to the two `send`s and whether memory is there. -/
structure Answers where
  resend : SendResult
  send : SendResult
  alloc : Bool

/-- `sock_send_internal` on the memory from `buf` on, whose first `len` bytes are to be sent. -/
def sendInternal (printf : Vsnprintf) (s : Sock) (buf : List UInt8) (len : Int) (async : Bool)
    (answers : Answers) : Option (Int × Sock) :=
  let s := if 0 < s.txBuf.len then s.tcpResend answers.resend else s
  if 0 < s.txBuf.len ∨ async then
    (s.txBuf.append printf buf len answers.alloc).map fun (r, txBuf) =>
      if r < 0 then (-1, { s with txBuf }) else (len, { s with txBuf })
  else
    let sent := s.send (buf.take len.toNat) answers.send
    if answers.send = .fails then some (-1, s)
    else
      let ret := if sent.1 < 0 then 0 else sent.1
      if ret < len then
        (s.txBuf.append printf (buf.drop ret.toNat) (len - ret) answers.alloc).map
          fun (r, txBuf) =>
            if r < 0 then (ret, { sent.2 with txBuf }) else (len, { sent.2 with txBuf })
      else some (len, sent.2)

def sockSend (printf : Vsnprintf) (s : Sock) (buf : List UInt8) (len : Int) (answers : Answers) :
    Option (Int × Sock) :=
  if len ≤ 0 then some (-1, s) else s.sendInternal printf buf len false answers

def sockSendAsync (printf : Vsnprintf) (s : Sock) (buf : List UInt8) (len : Int)
    (answers : Answers) : Option (Int × Sock) :=
  if len ≤ 0 then some (-1, s) else s.sendInternal printf buf len true answers

end Sock

/-- An event of the socket, with the bytes `FIONREAD` counts or the answer to `send`. -/
inductive Event
  | readable (avail : Int)
  | writeable (resend : SendResult)
  | exception

def Sock.checkEvent (s : Sock) : Event → Sock
  | .readable avail =>
    if s.listening then { s with ready := .newSocket }
    else if avail ≤ 0 then { s with ready := .close }
    else { s with ready := .data }
  | .writeable resend =>
    if s.closeAsync then { s with ready := .close }
    else if s.connected then { s with ready := .resend }.tcpResend resend
    else { s with ready := .connectOk, connected := true }
  | .exception => { s with ready := .close }

/-- A socket with the bytes its callers were told are accepted. -/
structure Stream where
  sock : Sock
  accepted : List UInt8

inductive Call
  | send (buf : List UInt8) (len : Int) (answers : Sock.Answers)
  | sendAsync (buf : List UInt8) (len : Int) (answers : Sock.Answers)
  | event (e : Event)

/-- One call; the value `sock_send` returns is the number of bytes it accepts. -/
def Stream.step (printf : Vsnprintf) (t : Stream) : Call → Option Stream
  | .send buf len answers =>
    (t.sock.sockSend printf buf len answers).map fun (r, sock) =>
      ⟨sock, t.accepted ++ buf.take r.toNat⟩
  | .sendAsync buf len answers =>
    (t.sock.sockSendAsync printf buf len answers).map fun (r, sock) =>
      ⟨sock, t.accepted ++ buf.take r.toNat⟩
  | .event e => some { t with sock := t.sock.checkEvent e }

/-- The caller's buffer has the `len` bytes it says. -/
def Call.Legal : Call → Prop
  | .send buf len _ => len ≤ buf.length
  | .sendAsync buf len _ => len ≤ buf.length
  | .event _ => True

/-- How many of `len` bytes a `send` takes. -/
def SendResult.taken (len : Nat) : SendResult → Nat
  | .takes n => min n len
  | .wouldBlock => 0
  | .fails => 0

/-- What the socket has to queue for a call, if anything, is queued faithfully. -/
def Sock.QueuesFaithfully (printf : Vsnprintf) (s : Sock) (buf : List UInt8) (len : Int)
    (async : Bool) (answers : Answers) : Prop :=
  let s := s.tcpResend answers.resend
  let data := buf.take len.toNat
  if 0 < s.txBuf.len ∨ async then s.txBuf.Faithful printf buf len answers.alloc data
  else
    let n := answers.send.taken data.length
    answers.send ≠ .fails → n < len →
      s.txBuf.Faithful printf (buf.drop n) (len - n) answers.alloc (data.drop n)

def Stream.Faithful (printf : Vsnprintf) (t : Stream) : Call → Prop
  | .send buf len answers => 0 < len → t.sock.QueuesFaithfully printf buf len false answers
  | .sendAsync buf len answers => 0 < len → t.sock.QueuesFaithfully printf buf len true answers
  | .event _ => True

/-- The states of the runs on a connected socket whose calls are legal and meet `C`. -/
def Stream.Possible (printf : Vsnprintf) (C : Stream → Call → Prop) : Stream → Prop :=
  Reachable (fun t => ∃ bufsize, t = ⟨.connectedTcp bufsize, []⟩)
    fun t t' => ∃ c : Call, c.Legal ∧ C t c ∧ t.step printf c = some t'

variable {printf : Vsnprintf} {s s' : Sock} {t t' : Stream}

namespace Sock

end Sock

namespace Stream

end Stream

end BigBox.Lapi
