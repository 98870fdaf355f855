import BigBox.Mqtt.NextPid
import BigBox.Mqtt.Response

namespace BigBox.Mqtt
set_option autoImplicit true

/-- The buffer of what is received. `bytes` are the ones in front of `curr`. -/
structure RecvBuffer where
  mem_size : Nat
  bytes : List UInt8

def RecvBuffer.curr_sz (b : RecvBuffer) : Nat := b.mem_size - b.bytes.length

/-- The client. Its error is `none` while it is `MQTT_OK`. -/
structure Client where
  pid_lfsr : BitVec 16
  keep_alive : BitVec 16
  time_of_last_send : Int
  error : Option Error
  response_timeout : Int
  recv_buffer : RecvBuffer
  mq : MessageQueue

/-- The result of a call: the client and the error that is returned, none for `MQTT_OK`. There is no
result when memory is written outside the buffer or a loop never ends. -/
abbrev Result := Option (Client × Option Error)

def Client.fail (client : Client) (e : Error) : Client × Option Error :=
  ({ client with error := some e }, some e)

/-- Registers what was packed behind `curr`. -/
def Client.register (client : Client) (packed : List UInt8) (slot : QueuedMessage) : Result :=
  if packed.length ≤ client.mq.curr_sz then
    some ({ client with mq := mqttMqRegister client.mq packed slot }, none)
  else
    none

/-- Packs into the queue, which is cleaned when it has no room. `slot` has what the memory holds and
what the caller sets in the message. -/
def mqttClientTryPack (client : Client) (pack : Nat → Except Error (List UInt8))
    (slot : QueuedMessage) : Result :=
  match client.error with
  | some e => some (client, some e)
  | none =>
    match pack client.mq.curr_sz with
    | .error e => some (client.fail e)
    | .ok [] =>
      let client := { client with mq := mqttMqClean client.mq }
      match pack client.mq.curr_sz with
      | .error e => some (client.fail e)
      | .ok [] => some (client.fail .sendBufferIsFull)
      | .ok (b :: packed) => client.register (b :: packed) slot
    | .ok (b :: packed) => client.register (b :: packed) slot

def mqttConnect (client : Client) (args : ConnectArgs) (slot : QueuedMessage) : Result :=
  let client := { client with keep_alive := args.keep_alive }
  let client := if client.error = some .connectNotCalled then { client with error := none }
    else client
  mqttClientTryPack client (mqttPackConnectionRequest · args) { slot with control_type := .connect }

/-- Packs a request with the next identifier. -/
def Client.packNext (client : Client) (pack : BitVec 16 → Nat → Except Error (List UInt8))
    (control_type : ControlType) (slot : QueuedMessage) : Result :=
  (mqttNextPid client.mq client.pid_lfsr).bind fun packet_id =>
    mqttClientTryPack { client with pid_lfsr := packet_id } (pack packet_id)
      { slot with control_type, packet_id }

def mqttPublish (client : Client) (args : PublishArgs) (slot : QueuedMessage) : Result :=
  client.packNext (fun packet_id bufsz => mqttPackPublishRequest bufsz args packet_id) .publish slot

/-- `__mqtt_puback`, `__mqtt_pubrec`, `__mqtt_pubrel` and `__mqtt_pubcomp`, by their type. -/
def mqttPubxxx (client : Client) (control_type : ControlType) (packet_id : BitVec 16)
    (slot : QueuedMessage) : Result :=
  mqttClientTryPack client (mqttPackPubxxxRequest · control_type packet_id)
    { slot with control_type, packet_id }

def mqttSubscribe (client : Client) (topic_name : List UInt8) (max_qos_level : UInt8)
    (slot : QueuedMessage) : Result :=
  client.packNext
    (fun packet_id bufsz => mqttPackSubscribeRequest bufsz packet_id [(topic_name, max_qos_level)])
    .subscribe slot

def mqttUnsubscribe (client : Client) (topic_name : List UInt8) (slot : QueuedMessage) : Result :=
  client.packNext
    (fun packet_id bufsz => mqttPackUnsubscribeRequest bufsz packet_id [topic_name])
    .unsubscribe slot

def mqttPing (client : Client) (slot : QueuedMessage) : Result :=
  mqttClientTryPack client mqttPackPingRequest { slot with control_type := .pingreq }

def mqttDisconnect (client : Client) (slot : QueuedMessage) : Result :=
  mqttClientTryPack client mqttPackDisconnect { slot with control_type := .disconnect }

/-- What the clock and the socket do while messages are sent, by the index of the message. -/
structure SendEvents where
  now : Nat → Int
  sendall : Nat → Bool
  time_sent : Nat → Int
  keep_alive_now : Int

/-- The loop over the messages, with the packets that went out and the error that ended it. -/
structure Sending where
  client : Client
  inflight_qos2 : Bool
  sent : List (List UInt8)
  error : Option Error

/-- The state of a message that was sent. A type that is never queued has none. -/
def stateWhenSent (control_type : ControlType) (qos : UInt8) : Option MessageState :=
  match control_type with
  | .puback => some .complete
  | .pubcomp => some .complete
  | .disconnect => some .complete
  | .publish => some (if qos = 0 then .complete else .awaitingAck)
  | .connect => some .awaitingAck
  | .pubrec => some .awaitingAck
  | .pubrel => some .awaitingAck
  | .subscribe => some .awaitingAck
  | .unsubscribe => some .awaitingAck
  | .pingreq => some .awaitingAck
  | _ => none

/-- Whether a message is to be sent, and whether a message of the highest level is in flight. -/
def resend (client : Client) (events : SendEvents) (i : Nat) (inflight_qos2 : Bool)
    (msg : QueuedMessage) (qos : UInt8) : Bool × Bool :=
  let resend := msg.state = .unsent || (msg.state = .awaitingAck &&
    msg.time_sent + client.response_timeout < events.now i)
  if msg.control_type = .publish && msg.state ≠ .complete && qos = 2 then
    (resend && !inflight_qos2, true)
  else
    (resend, inflight_qos2)

/-- A message that was sent. The flag of a duplicate is set in the second byte of the packet. -/
def Client.messageSent (client : Client) (events : SendEvents) (i : Nat) (msg : QueuedMessage)
    (qos : UInt8) : Client × Option Error :=
  let client := { client with
    time_of_last_send := events.time_sent i
    mq := client.mq.setTimeSent i (events.time_sent i) }
  match stateWhenSent msg.control_type qos with
  | none => client.fail .malformedRequest
  | some state =>
    let client := { client with mq := client.mq.setState i state }
    if msg.control_type = .publish && qos = 1 then
      ({ client with mq := client.mq.orByte i 1 mqttPublishDup }, none)
    else
      (client, none)

/-- The level of service in the first byte of a packet. -/
def firstByteQos (b : UInt8) : UInt8 := (b >>> 1) &&& 0x03

/-- The level of service of a message that is published. -/
def MessageQueue.qos (mq : MessageQueue) (msg : QueuedMessage) : Option UInt8 :=
  if msg.control_type = .publish then
    (mq.mem[msg.start]?).map firstByteQos
  else
    some 0

/-- A turn of the loop. -/
def sendTurn (events : SendEvents) (i : Nat) (s : Sending) : Option Sending :=
  (s.client.mq.queue[i]?).bind fun msg => (s.client.mq.qos msg).map fun qos =>
    let r := resend s.client events i s.inflight_qos2 msg qos
    if !r.1 then
      { s with inflight_qos2 := r.2 }
    else if !events.sendall i then
      { s with
        client := { s.client with error := some .socketError }
        inflight_qos2 := r.2
        error := some .socketError }
    else
      let sent := s.client.messageSent events i msg qos
      { client := sent.1, inflight_qos2 := r.2, sent := s.sent ++ [s.client.mq.bytes msg],
        error := sent.2 }

def sendLoop (events : SendEvents) : (left i : Nat) → Sending → Option Sending
  | 0, _, s => some s
  | left + 1, i, s => (sendTurn events i s).bind fun s =>
    if s.error.isSome then some s else sendLoop events left (i + 1) s

/-- The packets that were sent and the result. -/
def mqttSend (client : Client) (events : SendEvents) (slot : QueuedMessage) :
    Option (List (List UInt8) × Client × Option Error) :=
  match client.error.filter (· ≠ .sendBufferIsFull) with
  | some e => some ([], client, some e)
  | none =>
    (sendLoop events client.mq.queue.length 0 ⟨client, false, [], none⟩).bind fun s =>
      match s.error with
      | some e => some (s.sent, s.client, some e)
      | none =>
        if s.client.time_of_last_send + (3 * s.client.keep_alive.toNat / 4 : Nat) <
            events.keep_alive_now then
          (mqttPing s.client slot).map fun r => match r.2 with
            | some e => (s.sent, r.1.fail e)
            | none => (s.sent, r.1, none)
        else
          some (s.sent, s.client, none)

/-- What the application sees, and what lets go of a received message. -/
inductive Event where
  | delivered (response : PublishResponse)
  | released (packet_id : BitVec 16)
  deriving DecidableEq

/-- What becomes of a response: the client, the events and the error that ends the call. -/
abbrev Handled := Option (Client × List Event × Option Error)

/-- Finds the message that a response is about and completes it. -/
def Client.release (client : Client) (control_type : ControlType)
    (packet_id : Option (BitVec 16)) : Client × Option Error :=
  match mqttMqFind client.mq control_type packet_id with
  | none => client.fail .ackOfUnknown
  | some i => ({ client with mq := client.mq.setState i .complete }, none)

/-- Stages an answer, whose error becomes the one of the client. -/
def Client.stage (client : Client) (control_type : ControlType) (packet_id : BitVec 16)
    (slot : QueuedMessage) (events : List Event) : Handled :=
  (mqttPubxxx client control_type packet_id slot).map fun r => match r.2 with
    | some e => ((r.1.fail e).1, [], some e)
    | none => (r.1, events, none)

def handlePublish (client : Client) (response : PublishResponse) (slot : QueuedMessage) : Handled :=
  if response.qos_level = 1 then
    response.packet_id.bind fun packet_id =>
      client.stage .puback packet_id slot [.delivered response]
  else if response.qos_level = 2 then
    response.packet_id.bind fun packet_id =>
      if (mqttMqFind client.mq .pubrec (some packet_id)).isSome then
        some (client, [], none)
      else
        client.stage .pubrec packet_id slot [.delivered response]
  else
    some (client, [.delivered response], none)

/-- Lets go of a message and goes on with it. -/
def Client.releaseThen (client : Client) (control_type : ControlType)
    (packet_id : Option (BitVec 16)) (next : Client → Handled) : Handled :=
  let r := client.release control_type packet_id
  match r.2 with
  | some e => some (r.1, [], some e)
  | none => next r.1

def handled (client : Client) : Handled := some (client, [], none)

def handleResponse (client : Client) (slot : QueuedMessage) : Decoded → Handled
  | .connack _ return_code => client.releaseThen .connect none fun client =>
    if return_code ≠ 0 then
      some ((client.fail .connectionRefused).1, [], some .connectionRefused)
    else
      handled client
  | .publish response => handlePublish client response slot
  | .puback packet_id => client.releaseThen .publish (some packet_id) handled
  | .pubrec packet_id =>
    if (mqttMqFind client.mq .pubrel (some packet_id)).isSome then
      handled client
    else
      client.releaseThen .publish (some packet_id) fun client =>
        client.stage .pubrel packet_id slot []
  | .pubrel packet_id => client.releaseThen .pubrec (some packet_id) fun client =>
    (client.stage .pubcomp packet_id slot []).map fun r =>
      (r.1, .released packet_id :: r.2.1, r.2.2)
  | .pubcomp packet_id => client.releaseThen .pubrel (some packet_id) handled
  | .suback packet_id return_codes => client.releaseThen .subscribe (some packet_id) fun client =>
    return_codes.str.head?.bind fun return_code =>
      if return_code = 128 then
        some ((client.fail .subscribeFailed).1, [], some .subscribeFailed)
      else
        handled client
  | .unsuback packet_id => client.releaseThen .unsubscribe (some packet_id) handled
  | .pingresp => client.releaseThen .pingreq none handled
  | .connect _ => some ((client.fail .malformedResponse).1, [], some .malformedResponse)
  | .subscribe _ => some ((client.fail .malformedResponse).1, [], some .malformedResponse)

/-- A turn of the loop that receives: what it reads, none for an error of the socket. The flag says
that there is another turn. -/
def recvTurn (client : Client) (read : Option (List UInt8)) (slot : QueuedMessage) :
    Option (Client × List Event × Option Error × Bool) :=
  match read with
  | none => some ((client.fail .socketError).1, [], some .socketError, false)
  | some bytes =>
    let client := { client with recv_buffer :=
      { client.recv_buffer with
        bytes := client.recv_buffer.bytes ++ bytes.take client.recv_buffer.curr_sz } }
    (mqttUnpackResponse client.recv_buffer.bytes).bind fun
      | .error e => some ((client.fail e).1, [], some e, false)
      | .ok none =>
        if client.recv_buffer.curr_sz = 0 then
          some ((client.fail .recvBufferTooSmall).1, [], some .recvBufferTooSmall, false)
        else
          some (client, [], none, false)
      | .ok (some (_, consumed, decoded)) =>
        (handleResponse client slot decoded).bind fun r =>
          match r.2.2 with
          | some e => some (r.1, r.2.1, some e, false)
          | none =>
            if consumed ≤ r.1.recv_buffer.bytes.length then
              some ({ r.1 with recv_buffer :=
                { r.1.recv_buffer with bytes := r.1.recv_buffer.bytes.drop consumed } },
                r.2.1, none, true)
            else
              none

/-- The loop that receives, with what its turns read. The last turn is the one that ends it. -/
def mqttRecv (client : Client) : List (Option (List UInt8) × QueuedMessage) →
    Option (Client × List Event × Option Error)
  | [] => none
  | (read, slot) :: reads => (recvTurn client read slot).bind fun r =>
    if r.2.2.2 then
      (mqttRecv r.1 reads).map fun r' => (r'.1, r.2.1 ++ r'.2.1, r'.2.2)
    else
      some (r.1, r.2.1, r.2.2.1)

/-- A call of the client, with what the sockets and the clock do meanwhile and what the memory holds
behind the queue. -/
inductive Call where
  | connect (args : ConnectArgs) (slot : QueuedMessage)
  | publish (args : PublishArgs) (slot : QueuedMessage)
  | subscribe (topic_name : List UInt8) (max_qos_level : UInt8) (slot : QueuedMessage)
  | unsubscribe (topic_name : List UInt8) (slot : QueuedMessage)
  | ping (slot : QueuedMessage)
  | disconnect (slot : QueuedMessage)
  | send (events : SendEvents) (slot : QueuedMessage)
  | recv (reads : List (Option (List UInt8) × QueuedMessage))

/-- The packets that a call sends, the events that it brings and what it returns. -/
structure Output where
  sent : List (List UInt8)
  events : List Event
  error : Option Error

def Call.step (client : Client) : Call → Option (Client × Output)
  | connect args slot => (mqttConnect client args slot).map fun r => (r.1, ⟨[], [], r.2⟩)
  | publish args slot => (mqttPublish client args slot).map fun r => (r.1, ⟨[], [], r.2⟩)
  | subscribe topic_name max_qos_level slot =>
    (mqttSubscribe client topic_name max_qos_level slot).map fun r => (r.1, ⟨[], [], r.2⟩)
  | unsubscribe topic_name slot =>
    (mqttUnsubscribe client topic_name slot).map fun r => (r.1, ⟨[], [], r.2⟩)
  | ping slot => (mqttPing client slot).map fun r => (r.1, ⟨[], [], r.2⟩)
  | disconnect slot => (mqttDisconnect client slot).map fun r => (r.1, ⟨[], [], r.2⟩)
  | send events slot => (mqttSend client events slot).map fun r => (r.2.1, ⟨r.1, [], r.2.2⟩)
  | recv reads => (mqttRecv client reads).map fun r => (r.1, ⟨[], r.2.1, r.2.2⟩)

/-- A client behind `mqtt_init`, which leaves the register and the times as they are. -/
def Client.Initial (client : Client) : Prop :=
  ∃ bufsz, client.mq = mqttMqInit bufsz ∧ client.recv_buffer.bytes = [] ∧
    client.error = some .connectNotCalled

end BigBox.Mqtt
