import MqttServerTest.Client.Parser
import MqttServerTest.Machine.Basic

/-!
# The session of the MQTT client

What `AsyncMqttClient` does with the events of its parser, with the calls of its user and with the
polls of TCP.  One step is one of these; `millis()` has one value during a step.  The free space of
the send buffer may change at any time, so a step is given what the calls of `space()` answer, in
order; when there are no more answers, the connection is gone and the answer is 0.

`close(true)` calls `_onDisconnect` before it returns.

A packet is handed to TCP by several calls of `add`, which do not keep other tasks out and may fail;
what a step says is handed is what its calls of `add` are given, one after the other.  What TCP
gets of them is the subject of `Client.Tasks`.

* `Session.exec` : one step.
* `session` : the client from its construction on.
-/

namespace MqttServerTest

namespace AsyncMqtt

/-- What is set before the client connects. -/
structure Options where
  keepAlive : ℕ
  cleanSession : Bool
  clientId : List UInt8
  username : Option (List UInt8)
  password : Option (List UInt8)
  willTopic : Option (List UInt8)
  willPayload : Option (List UInt8)
  willPayloadLength : ℕ
  willQos : ℕ
  willRetain : Bool
  deriving DecidableEq, Repr

/-- What `AsyncMqttClient::AsyncMqttClient` sets. -/
def Options.initial (generatedClientId : List UInt8) : Options :=
  ⟨15, true, generatedClientId, none, none, none, none, 0, 0, false⟩

/-- What `connectToMqtt` sets in the end. -/
def Options.sensor : Options :=
  { Options.initial [] with keepAlive := 4, clientId := [], cleanSession := true }

/-- `PendingAck` -/
structure PendingAck where
  packetType : ℕ
  headerFlag : ℕ
  packetId : ℕ
  deriving DecidableEq, Repr

/-- `AsyncMqttClientDisconnectReason`, without TLS. -/
inductive DisconnectReason where
  | tcpDisconnected
  /-- The return code of the server. -/
  | refused (connectReturnCode : UInt8)
  | notEnoughSpace
  deriving DecidableEq, Repr

/-- What can be observed of a step. -/
inductive ClientOutput where
  /-- A packet has been handed to TCP, by these calls of `add`. -/
  | handed (adds : List (List UInt8))
  /-- An acknowledgement has been handed to TCP. -/
  | handedAck (ack : PendingAck)
  /-- `publish`, `subscribe` or `unsubscribe` has returned. -/
  | returned (packetId : ℕ)
  /-- TCP is to connect. -/
  | connects
  | onConnect (sessionPresent : Bool)
  | onDisconnect (reason : DisconnectReason)
  | onSubscribe (packetId : ℕ) (status : UInt8)
  | onUnsubscribe (packetId : ℕ)
  | onPublish (packetId : ℕ)
  | onMessage (topic payload : List UInt8) (qos : ℕ) (dup retain : Bool) (index total : ℕ)
  deriving DecidableEq, Repr

structure Session where
  connected : Bool
  connectPacketNotEnoughSpace : Bool
  disconnectFlagged : Bool
  lastClientActivity : ℕ
  lastServerActivity : ℕ
  lastPingRequestTime : ℕ
  pendingPubRels : List ℕ
  toSendAcks : List PendingAck
  nextPacketId : ℕ
  deriving DecidableEq, Repr

/-- The arguments of a call of `publish`.  `payload` is the memory behind the pointer. -/
structure PublishCall where
  topic : List UInt8
  qos : ℕ
  retain : Bool
  payload : Option (List UInt8)
  length : ℕ
  dup : Bool
  messageId : ℕ
  deriving DecidableEq, Repr

/-- What happens next. -/
inductive SessionLabel where
  /-- The parser calls. -/
  | event (e : ClientEvent) (now : ℕ) (spaces : List ℕ)
  /-- TCP polls. -/
  | poll (now : ℕ) (spaces : List ℕ)
  | publish (call : PublishCall) (now space : ℕ)
  | subscribe (topic : List UInt8) (qos : ℕ) (now space : ℕ)
  | unsubscribe (topic : List UInt8) (now space : ℕ)
  | connect
  /-- `isOpen` : there is a TCP connection. -/
  | disconnect (force isOpen : Bool) (space : ℕ)
  /-- TCP has connected. -/
  | tcpConnected (now space : ℕ)
  /-- The TCP connection is gone. -/
  | tcpDisconnected
  deriving DecidableEq, Repr

/-! ### Bytes -/

/-- The two bytes of a `uint16_t`. -/
def bytes16 (n : ℕ) : List UInt8 := [UInt8.ofNat (n >>> 8), UInt8.ofNat (n &&& 0xFF)]

/-- The calls of `add` for an acknowledgement. -/
def PendingAck.adds (a : PendingAck) : List (List UInt8) :=
  [[UInt8.ofNat (a.packetType <<< 4 ||| a.headerFlag), 2], bytes16 a.packetId]

/-- The four bytes of an acknowledgement. -/
def PendingAck.bytes (a : PendingAck) : List UInt8 := a.adds.flatten

/-- The calls of `add` for a length and a C string, cut at the length. -/
def stringAdds (length : ℕ) (s : List UInt8) : List (List UInt8) := [bytes16 length, s.take length]

/-- `strlen`, in a `uint16_t`. -/
def strlen16 (s : List UInt8) : ℕ := s.length % 2 ^ 16

namespace Options

variable (o : Options)

/-- `connectFlags` -/
def connectFlags : ℕ :=
  (if o.cleanSession then 0x02 else 0) ||| (if o.username.isSome then 0x80 else 0) |||
    (if o.password.isSome then 0x40 else 0) |||
    (if o.willTopic.isSome then
      0x04 ||| (if o.willRetain then 0x20 else 0) |||
        (match o.willQos with
          | 1 => 0x08
          | 2 => 0x10
          | _ => 0)
    else 0)

/-- `willPayloadLength` -/
def willLength : ℕ := match o.willPayload with
  | some payload =>
    if o.willPayloadLength % 2 ^ 16 = 0 then strlen16 (payload.takeWhile (· ≠ 0))
    else o.willPayloadLength % 2 ^ 16
  | none => o.willPayloadLength % 2 ^ 16

/-- `remainingLength` in `_onConnect`. -/
def remainingLength : ℕ :=
  2 + 4 + 1 + 1 + 2 + 2 + strlen16 o.clientId +
    (match o.willTopic with
      | some topic => 2 + strlen16 topic + 2 + o.willLength
      | none => 0) +
    (match o.username with
      | some name => 2 + strlen16 name
      | none => 0) +
    (match o.password with
      | some word => 2 + strlen16 word
      | none => 0)

/-- `neededSpace` in `_onConnect`. -/
def neededSpace : ℕ :=
  1 + (encodeRemainingLength o.remainingLength).length + 2 + 4 + 1 + 1 + 2 + 2 +
    strlen16 o.clientId +
    (match o.willTopic with
      | some topic => 2 + strlen16 topic + 2 + if o.willPayload.isSome then o.willLength else 0
      | none => 0) +
    (match o.username with
      | some name => 2 + strlen16 name
      | none => 0) +
    (match o.password with
      | some word => 2 + strlen16 word
      | none => 0)

/-- The calls of `add` in `_onConnect`. -/
def connectAdds : List (List UInt8) :=
  [0x10 :: encodeRemainingLength o.remainingLength, bytes16 4, [77, 81, 84, 84], [0x04],
      [UInt8.ofNat o.connectFlags], bytes16 o.keepAlive] ++
    stringAdds (strlen16 o.clientId) o.clientId ++
    (match o.willTopic with
      | some topic => stringAdds (strlen16 topic) topic ++ [bytes16 o.willLength] ++
        o.willPayload.toList.map (List.take o.willLength)
      | none => []) ++
    (match o.username with
      | some name => stringAdds (strlen16 name) name
      | none => []) ++
    (match o.password with
      | some word => stringAdds (strlen16 word) word
      | none => [])

end Options

namespace PublishCall

variable (c : PublishCall)

/-- `fixedHeader[0]` -/
def firstByte : UInt8 :=
  0x30 ||| (if c.dup then 0x08 else 0) ||| (if c.retain then 0x01 else 0) |||
    (match c.qos with
      | 1 => 0x02
      | 2 => 0x04
      | _ => 0)

/-- `payloadLength`; `length` has 32 bits. -/
def payloadLength : ℕ := match c.payload with
  | some payload => if c.length = 0 then (payload.takeWhile (· ≠ 0)).length else c.length
  | none => c.length

/-- `remainingLength` -/
def remainingLength : ℕ :=
  (2 + strlen16 c.topic + c.payloadLength + if c.qos ≠ 0 then 2 else 0) % 2 ^ 32

/-- `neededSpace` -/
def neededSpace : ℕ :=
  (1 + (encodeRemainingLength c.remainingLength).length + 2 + strlen16 c.topic +
    (if c.qos ≠ 0 then 2 else 0) + if c.payload.isSome then c.payloadLength else 0) % 2 ^ 32

/-- The calls of `add` in `publish`. -/
def adds (packetId : ℕ) : List (List UInt8) :=
  [c.firstByte :: encodeRemainingLength c.remainingLength] ++
    stringAdds (strlen16 c.topic) c.topic ++ (if c.qos ≠ 0 then [bytes16 packetId] else []) ++
    c.payload.toList.map (List.take c.payloadLength)

/-- What `publish` hands to TCP. -/
def bytes (packetId : ℕ) : List UInt8 := (c.adds packetId).flatten

end PublishCall

namespace Session

/-- `AsyncMqttClient::AsyncMqttClient` -/
def start : Session := ⟨false, false, false, 0, 0, 0, [], [], 1⟩

/-- `_clear`, but for the parser. -/
def clear (s : Session) : Session :=
  { s with
    lastPingRequestTime := 0
    connected := false
    disconnectFlagged := false
    connectPacketNotEnoughSpace := false
    pendingPubRels := []
    toSendAcks := []
    nextPacketId := 1 }

/-- `a - b` in 32 bits. -/
def elapsed (a b : ℕ) : ℕ := (a + 2 ^ 32 - b) % 2 ^ 32

/-- `_onDisconnect` -/
def onDisconnect (s : Session) : Session × List ClientOutput :=
  (s.clear, [.onDisconnect
    (if s.connectPacketNotEnoughSpace then .notEnoughSpace else .tcpDisconnected)])

/-- `_sendPing`, which finds this much space. -/
def sendPing (s : Session) (now space : ℕ) : Session × List ClientOutput :=
  if space < 2 then (s, [])
  else ({ s with lastClientActivity := now, lastPingRequestTime := now }, [.handed [[0xC0, 0]]])

/-- The loop of `_sendAcks` from index `i` on: what is handed to TCP, what stays in the queue, and
the answers of `space()` that have not been asked for.  The element behind an erased one takes its
index, and is passed over. -/
def sendAcksLoop : List ℕ → ℕ → List PendingAck →
    List PendingAck × List PendingAck × List ℕ
  | [], _, acks => ([], acks, [])
  | space :: spaces, i, acks =>
    if h : i < acks.length then
      if space < 4 then ([], acks, spaces)
      else
        let r := sendAcksLoop spaces (i + 1) (acks.eraseIdx i)
        (acks[i] :: r.1, r.2)
    else ([], acks, space :: spaces)

/-- `_sendAcks` -/
def sendAcks (s : Session) (now : ℕ) (spaces : List ℕ) : Session × List ClientOutput :=
  let r := sendAcksLoop spaces 0 s.toSendAcks
  ({ s with
      toSendAcks := r.2.1
      lastClientActivity := if r.1 = [] then s.lastClientActivity else now },
    r.1.map .handedAck)

/-- The answers of `space()` that `_sendAcks` leaves. -/
def spacesAfterAcks (s : Session) (spaces : List ℕ) : List ℕ :=
  (sendAcksLoop spaces 0 s.toSendAcks).2.2

/-- `_sendDisconnect` -/
def sendDisconnect (s : Session) (space : ℕ) : Session × List ClientOutput :=
  if space < 2 then (s, [])
  else ({ s.onDisconnect.1 with disconnectFlagged := false },
    .handed [[0xE0, 0]] :: s.onDisconnect.2)

/-- `disconnect` -/
def disconnect (s : Session) (force isOpen : Bool) (space : ℕ) : Session × List ClientOutput :=
  if ¬ s.connected then (s, [])
  else if force then if isOpen then s.onDisconnect else (s, [])
  else { s with disconnectFlagged := true }.sendDisconnect space

/-- Nobody has answered the last ping. -/
def pingExpired (o : Options) (s : Session) (now : ℕ) : Prop :=
  s.lastPingRequestTime ≠ 0 ∧ o.keepAlive * 1000 * 2 ≤ elapsed now s.lastPingRequestTime

/-- A ping is to be sent.  With `keepAlive` below `2 ^ 16`, a time in milliseconds is at least
`keepAlive * 1000 * 0.7` in floating point exactly if it is at least `keepAlive * 700`. -/
def pingDue (o : Options) (s : Session) (now : ℕ) : Prop :=
  (s.lastPingRequestTime = 0 ∧ o.keepAlive * 700 ≤ elapsed now s.lastClientActivity) ∨
    (s.connected ∧ s.lastPingRequestTime = 0 ∧
      o.keepAlive * 700 ≤ elapsed now s.lastServerActivity)

instance (o : Options) (s : Session) (now : ℕ) : Decidable (pingExpired o s now) :=
  inferInstanceAs (Decidable (_ ∧ _))

instance (o : Options) (s : Session) (now : ℕ) : Decidable (pingDue o s now) :=
  inferInstanceAs (Decidable (_ ∨ _))

/-- `_onPoll` from the call of `_sendAcks` on. -/
def finishPoll (s : Session) (now : ℕ) (spaces : List ℕ) : Session × List ClientOutput :=
  let acks := s.sendAcks now spaces
  if acks.1.disconnectFlagged then
    let last := acks.1.sendDisconnect ((s.spacesAfterAcks spaces).headD 0)
    (last.1, acks.2 ++ last.2)
  else acks

/-- `_onPoll` -/
def onPoll (o : Options) (s : Session) (now : ℕ) (spaces : List ℕ) :
    Session × List ClientOutput :=
  if ¬ s.connected then (s, [])
  else if pingExpired o s now then s.disconnect false true (spaces.headD 0)
  else if pingDue o s now then
    let ping := s.sendPing now (spaces.headD 0)
    let last := ping.1.finishPoll now spaces.tail
    (last.1, ping.2 ++ last.2)
  else s.finishPoll now spaces

/-- The loop of `_onPubRel` from index `i` on, `n` being the length of what it has to look at. -/
def eraseLoop (packetId : ℕ) : ℕ → ℕ → List ℕ → List ℕ
  | 0, _, ids => ids
  | n + 1, i, ids =>
    if i < ids.length then
      eraseLoop packetId n (i + 1) (if ids[i]? = some packetId then ids.eraseIdx i else ids)
    else ids

/-- An acknowledgement is to be sent. -/
def push (s : Session) (packetType headerFlag packetId : ℕ) : Session :=
  { s with toSendAcks := s.toSendAcks ++ [⟨packetType, headerFlag, packetId⟩] }

/-- The functions that the parser calls. -/
def handle (s : Session) (now : ℕ) (spaces : List ℕ) : ClientEvent → Session × List ClientOutput
  | .begins => ({ s with lastServerActivity := now }, [])
  | .pingResp => ({ s with lastPingRequestTime := 0 }, [])
  | .connAck sessionPresent connectReturnCode =>
    if connectReturnCode = 0 then ({ s with connected := true }, [.onConnect sessionPresent])
    else (s.clear, [.onDisconnect (.refused connectReturnCode)])
  | .subAck packetId status => (s, [.onSubscribe packetId status])
  | .ack .unsubAck packetId => (s, [.onUnsubscribe packetId])
  | .ack .pubAck packetId => (s, [.onPublish packetId])
  | .ack .pubComp packetId => (s, [.onPublish packetId])
  | .ack .pubRec packetId => (s.push 6 2 packetId).sendAcks now spaces
  | .ack .pubRel packetId =>
    { s.push 7 0 packetId with
      pendingPubRels :=
        eraseLoop packetId s.pendingPubRels.length 0 s.pendingPubRels }.sendAcks now spaces
  | .message topic payload qos dup retain index total packetId =>
    (s, if qos = 2 ∧ packetId ∈ s.pendingPubRels then []
      else [.onMessage topic payload qos dup retain index total])
  | .publish packetId qos => match qos with
    | 1 => (s.push 4 0 packetId, [])
    | 2 =>
      { s.push 5 0 packetId with
        pendingPubRels :=
          if packetId ∈ s.pendingPubRels then s.pendingPubRels
          else s.pendingPubRels ++ [packetId] }.sendAcks now spaces
    | _ => (s, [])

/-- `_getNextPacketId` -/
def getNextPacketId (s : Session) : ℕ × Session :=
  (s.nextPacketId, { s with
    nextPacketId := (if s.nextPacketId = 65535 then 0 else s.nextPacketId) + 1 })

/-- `publish` -/
def publish (s : Session) (c : PublishCall) (now space : ℕ) : Session × List ClientOutput :=
  if ¬ s.connected then (s, [.returned 0])
  else if space < c.neededSpace then (s, [.returned 0])
  else if c.qos ≠ 0 then
    let r := if c.dup ∧ c.messageId > 0 then (c.messageId, s) else s.getNextPacketId
    ({ r.2 with lastClientActivity := now }, [.handed (c.adds r.1), .returned r.1])
  else ({ s with lastClientActivity := now }, [.handed (c.adds 0), .returned 1])

/-- `subscribe` -/
def subscribe (s : Session) (topic : List UInt8) (qos now space : ℕ) :
    Session × List ClientOutput :=
  let length := encodeRemainingLength (2 + 2 + strlen16 topic + 1)
  if ¬ s.connected then (s, [.returned 0])
  else if space < 1 + length.length + 2 + 2 + strlen16 topic + 1 then (s, [.returned 0])
  else
    ({ s.getNextPacketId.2 with lastClientActivity := now },
      [.handed ([0x82 :: length, bytes16 s.getNextPacketId.1] ++
        stringAdds (strlen16 topic) topic ++ [[UInt8.ofNat qos]]), .returned s.getNextPacketId.1])

/-- `unsubscribe` -/
def unsubscribe (s : Session) (topic : List UInt8) (now space : ℕ) :
    Session × List ClientOutput :=
  let length := encodeRemainingLength (2 + 2 + strlen16 topic)
  if ¬ s.connected then (s, [.returned 0])
  else if space < 1 + length.length + 2 + 2 + strlen16 topic then (s, [.returned 0])
  else
    ({ s.getNextPacketId.2 with lastClientActivity := now },
      [.handed ([0xA2 :: length, bytes16 s.getNextPacketId.1] ++ stringAdds (strlen16 topic) topic),
        .returned s.getNextPacketId.1])

/-- `_onConnect` -/
def onConnect (o : Options) (s : Session) (now space : ℕ) : Session × List ClientOutput :=
  if space < o.neededSpace then { s with connectPacketNotEnoughSpace := true }.onDisconnect
  else ({ s with lastClientActivity := now }, [.handed o.connectAdds])

/-- **One step.** -/
def exec (o : Options) (s : Session) : SessionLabel → Option (Session × List ClientOutput)
  | .event e now spaces => some (s.handle now spaces e)
  | .poll now spaces => some (s.onPoll o now spaces)
  | .publish c now space => some (s.publish c now space)
  | .subscribe topic qos now space => some (s.subscribe topic qos now space)
  | .unsubscribe topic now space => some (s.unsubscribe topic now space)
  | .connect => some (s, if s.connected then [] else [.connects])
  | .disconnect force isOpen space => some (s.disconnect force isOpen space)
  | .tcpConnected now space => some (s.onConnect o now space)
  | .tcpDisconnected => some s.onDisconnect

end Session

/-- The client. -/
def session (o : Options) : Machine Session SessionLabel :=
  Machine.ofExec Session.start (Session.exec o)

/-- What has been observed of the run `ls`. -/
def session.outputs (o : Options) (ls : List SessionLabel) : List ClientOutput :=
  Machine.emitted Session.start (Session.exec o) ls

end AsyncMqtt

end MqttServerTest
