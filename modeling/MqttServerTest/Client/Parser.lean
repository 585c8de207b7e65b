import MqttServerTest.Client.Helpers
import MqttServerTest.Data.Chunks

/-!
# The parser of the MQTT client

`AsyncMqttClient::_onData` with the classes of `Packets/`.  TCP hands over the incoming bytes in
chunks; the loop of `_onData` takes a turn after the other until a chunk is used up, and what it has
read of a packet stays in the parser until the next chunk.

The callbacks into the client are the outputs.  What the language does not define, or what does not
end, is a `Fault`.  `char` is unsigned on the device; `size_t` has 32 bits.

* `Parser.turn` : one turn of the loop.
* `Parser.onData` : what one chunk does.
-/

namespace MqttServerTest

namespace AsyncMqtt

open Chunked

inductive BufferState where
  | none
  | remainingLength
  | variableHeader
  | payload
  deriving DecidableEq, Repr

/-- The packets that consist of a packet id. -/
inductive AckType where
  | pubAck
  | pubRec
  | pubRel
  | pubComp
  | unsubAck
  deriving DecidableEq, Repr

/-- `PublishPacket` -/
structure PublishPacket where
  dup : Bool
  qos : ℕ
  retain : Bool
  /-- 8 bits -/
  bytePosition : ℕ
  topicLengthMsb : UInt8
  topicLength : ℕ
  ignore : Bool
  packetIdMsb : UInt8
  packetId : ℕ
  payloadLength : ℕ
  payloadBytesRead : ℕ
  deriving DecidableEq, Repr

/-- What `_currentParsedPacket` points to. -/
inductive ParsedPacket where
  | connAck (bytePosition : ℕ) (sessionPresent : Bool)
  | pingResp
  | subAck (bytePosition : ℕ) (packetIdMsb : UInt8) (packetId : ℕ)
  /-- `PubAckPacket` and the four classes that differ from it in their name. -/
  | ack (type : AckType) (bytePosition : ℕ) (packetIdMsb : UInt8)
  | publish (packet : PublishPacket)
  deriving DecidableEq, Repr

/-- A call into the client. -/
inductive ClientEvent where
  /-- A packet begins: `_lastServerActivity = millis()`. -/
  | begins
  | connAck (sessionPresent : Bool) (connectReturnCode : UInt8)
  | pingResp
  | subAck (packetId : ℕ) (status : UInt8)
  | ack (type : AckType) (packetId : ℕ)
  /-- A part of a message; `topic` is what a reader of the C string sees. -/
  | message (topic payload : List UInt8) (qos : ℕ) (dup retain : Bool) (index total packetId : ℕ)
  /-- A message is complete. -/
  | publish (packetId qos : ℕ)
  deriving DecidableEq, Repr

inductive Fault where
  /-- Reads behind the chunk. -/
  | data
  /-- Writes behind `_remainingLengthBuffer`. -/
  | remainingLengthBuffer
  /-- Writes behind `topicBuffer`. -/
  | topicBuffer
  /-- Calls a method of the null pointer. -/
  | nullPacket
  /-- Writes to a packet that it has freed. -/
  | freedPacket
  /-- Sets `currentBytePosition` back. -/
  | setsBack
  /-- The loop does not end. -/
  | hangs
  deriving DecidableEq, Repr

/-- `_parsingInformation`, `_currentParsedPacket` and the used part of `_remainingLengthBuffer`. -/
structure Parser where
  bufferState : BufferState
  maxTopicLength : ℕ
  topicBuffer : List UInt8
  packetType : ℕ
  packetFlags : ℕ
  remainingLength : ℕ
  currentParsedPacket : Option ParsedPacket
  remainingLengthBuffer : List UInt8
  deriving DecidableEq, Repr

/-- `msb << 8 | lsb` -/
def uint16 (msb lsb : UInt8) : ℕ := msb.toNat <<< 8 ||| lsb.toNat

/-- The constructor of `PublishPacket`. -/
def PublishPacket.new (packetFlags : ℕ) : PublishPacket where
  dup := packetFlags &&& 0x08 != 0
  qos := match packetFlags &&& 0x06 with
    | 0x02 => 1
    | 0x04 => 2
    | _ => 0
  retain := packetFlags &&& 0x01 != 0
  bytePosition := 0
  topicLengthMsb := 0
  topicLength := 0
  ignore := false
  packetIdMsb := 0
  packetId := 0
  payloadLength := 0
  payloadBytesRead := 0

/-- The object that `_onData` creates for a packet type; none for those that a client does not
receive. -/
def ParsedPacket.new? (packetType packetFlags : ℕ) : Option ParsedPacket :=
  match packetType with
  | 2 => some (.connAck 0 false)
  | 13 => some .pingResp
  | 9 => some (.subAck 0 0 0)
  | 11 => some (.ack .unsubAck 0 0)
  | 3 => some (.publish (.new packetFlags))
  | 6 => some (.ack .pubRel 0 0)
  | 4 => some (.ack .pubAck 0 0)
  | 5 => some (.ack .pubRec 0 0)
  | 7 => some (.ack .pubComp 0 0)
  | _ => none

namespace Parser

/-- The parser of a new client after `setMaxTopicLength`. -/
def start (maxTopicLength : ℕ) : Parser :=
  ⟨.none, maxTopicLength, List.replicate (maxTopicLength + 1) 0, 0, 0, 0, none, []⟩

/-- `BufferState::NONE`.  A packet of another type leaves `_currentParsedPacket` as it is. -/
def headerByte (p : Parser) (b : UInt8) : Parser × List ClientEvent :=
  ({ p with
      packetType := (b >>> 4).toNat
      -- the shifts are done in `int`, so they keep the upper bits
      packetFlags := b.toNat
      bufferState := .remainingLength
      currentParsedPacket :=
        (ParsedPacket.new? (b >>> 4).toNat b.toNat).or p.currentParsedPacket }, [.begins])

/-- `BufferState::REMAINING_LENGTH` -/
def lengthByte (p : Parser) (b : UInt8) : Except Fault (Parser × List ClientEvent) :=
  if 4 ≤ p.remainingLengthBuffer.length then .error .remainingLengthBuffer
  else if b >>> 7 = 0 then
    match decodeRemainingLength (p.remainingLengthBuffer ++ [b]) with
    | none => .error .remainingLengthBuffer
    | some n =>
      let p := { p with remainingLength := n, remainingLengthBuffer := [] }
      if n > 0 then .ok ({ p with bufferState := .variableHeader }, [])
      -- `_onPingResp` frees the packet
      else .ok ({ p with bufferState := .none, currentParsedPacket := none }, [.pingResp])
  else .ok ({ p with remainingLengthBuffer := p.remainingLengthBuffer ++ [b] }, [])

/-- `packet` is the current one. -/
def set (p : Parser) (packet : ParsedPacket) : Parser := { p with currentParsedPacket := packet }

/-- The callback at the end of a packet has freed it. -/
def finish (p : Parser) : Parser := { p with bufferState := .none, currentParsedPacket := none }

/-- `_clear`, but for the session.  The used part of `_remainingLengthBuffer` stays. -/
def clear (p : Parser) : Parser := { p with bufferState := .none, currentParsedPacket := none }

/-- `topicBuffer[i] = b` -/
def storeTopic (p : Parser) (i : ℕ) (b : UInt8) : Except Fault Parser :=
  if i < p.topicBuffer.length then .ok { p with topicBuffer := p.topicBuffer.set i b }
  else .error .topicBuffer

/-- `topicBuffer` as a C string. -/
def topic (p : Parser) : List UInt8 := p.topicBuffer.takeWhile (· ≠ 0)

/-- `_dataCallback` -/
def message (p : Parser) (k : PublishPacket) (payload : List UInt8) (index total : ℕ) :
    ClientEvent :=
  .message p.topic payload k.qos k.dup k.retain index total k.packetId

/-- `PublishPacket::_preparePayloadHandling` -/
def preparePayloadHandling (p : Parser) (k : PublishPacket) (payloadLength : ℕ) :
    Parser × List ClientEvent :=
  let k := { k with payloadLength }
  if payloadLength = 0 then
    if k.ignore then ({ p.set (.publish k) with bufferState := .none }, [])
    else (p.finish, [p.message k [] 0 0, .publish k.packetId k.qos])
  else ({ p.set (.publish k) with bufferState := .payload }, [])

/-- `PublishPacket::parseVariableHeader` -/
def publishHeaderByte (p : Parser) (k : PublishPacket) (b : UInt8) :
    Except Fault (Parser × List ClientEvent) :=
  let next := (k.bytePosition + 1) % 2 ^ 8
  let payloadLength := (p.remainingLength + 2 ^ 32 - (k.bytePosition + 1)) % 2 ^ 32
  if k.bytePosition = 0 then
    .ok (p.set (.publish { k with topicLengthMsb := b, bytePosition := next }), [])
  else if k.bytePosition = 1 then do
    let k := { k with topicLength := uint16 k.topicLengthMsb b, bytePosition := next }
    if k.topicLength > p.maxTopicLength then
      return (p.set (.publish { k with ignore := true }), [])
    else
      return ((← p.storeTopic k.topicLength 0).set (.publish k), [])
  else if k.bytePosition < 2 + k.topicLength then do
    let p ← if k.ignore then pure p else p.storeTopic (k.bytePosition - 2) b
    if k.bytePosition = 2 + k.topicLength - 1 ∧ k.qos = 0 then
      return p.preparePayloadHandling k payloadLength
    else
      return (p.set (.publish { k with bytePosition := next }), [])
  else if k.bytePosition = 2 + k.topicLength then
    .ok (p.set (.publish { k with packetIdMsb := b, bytePosition := next }), [])
  else
    let r := p.preparePayloadHandling
      { k with packetId := uint16 k.packetIdMsb b, bytePosition := next } payloadLength
    -- `_bytePosition++` is behind the callbacks, and these may have freed the packet
    if r.1.currentParsedPacket = none then .error .freedPacket else .ok r

/-- `parseVariableHeader` of a packet, on a byte. -/
def variableHeaderByte (p : Parser) (packet : ParsedPacket) (b : UInt8) :
    Except Fault (Parser × List ClientEvent) :=
  match packet with
  | .connAck i sessionPresent =>
    -- `(currentByte << 7) >> 7` keeps every bit too
    if i = 0 then .ok (p.set (.connAck (i + 1) (b != 0)), [])
    else .ok (p.finish, [.connAck sessionPresent b])
  | .pingResp => .ok (p, [])
  | .subAck i msb packetId =>
    if i = 0 then .ok (p.set (.subAck (i + 1) b packetId), [])
    else .ok ({ p.set (.subAck (i + 1) msb (uint16 msb b)) with bufferState := .payload }, [])
  | .ack type i msb =>
    if i = 0 then .ok (p.set (.ack type (i + 1) b), [])
    else .ok (p.finish, [.ack type (uint16 msb b)])
  | .publish k => p.publishHeaderByte k b

/-- `PublishPacket::parsePayload`, on what is left of the chunk. -/
def publishPayload (p : Parser) (k : PublishPacket) (data : List UInt8) :
    Except Fault (Parser × List ClientEvent × List UInt8) :=
  let cut := (k.payloadBytesRead + data.length) % 2 ^ 32 > k.payloadLength
  if cut ∧ k.payloadBytesRead > k.payloadLength then .error .setsBack
  else
    let remainToRead := if cut then k.payloadLength - k.payloadBytesRead else data.length
    let parts :=
      if k.ignore then []
      else [p.message k (data.take remainToRead) k.payloadBytesRead k.payloadLength]
    let k := { k with payloadBytesRead := (k.payloadBytesRead + remainToRead) % 2 ^ 32 }
    if k.payloadBytesRead = k.payloadLength then
      if k.ignore then
        .ok ({ p.set (.publish k) with bufferState := .none }, parts, data.drop remainToRead)
      else .ok (p.finish, parts ++ [.publish k.packetId k.qos], data.drop remainToRead)
    else .ok (p.set (.publish k), parts, data.drop remainToRead)

/-- `f` reads the next byte. -/
def readByte (f : UInt8 → Except Fault (Parser × List ClientEvent)) (data : List UInt8) :
    Except Fault (Parser × List ClientEvent × List UInt8) :=
  match data with
  | [] => .error .data
  | b :: rest => (f b).map fun r => (r.1, r.2, rest)

/-- **One turn** of the loop in `_onData`, on what is left of the chunk. -/
def turn (p : Parser) (data : List UInt8) :
    Except Fault (Parser × List ClientEvent × List UInt8) :=
  match p.bufferState with
  | .none => readByte (fun b => .ok (p.headerByte b)) data
  | .remainingLength => readByte p.lengthByte data
  | .variableHeader => match p.currentParsedPacket with
    | none => .error .nullPacket
    -- it does not read
    | some .pingResp => .ok (p, [], data)
    | some packet => readByte (p.variableHeaderByte packet) data
  | .payload => match p.currentParsedPacket with
    | none => .error .nullPacket
    | some (.publish k) => p.publishPayload k data
    | some (.subAck _ _ packetId) =>
      readByte (fun status => .ok (p.finish, [.subAck packetId status])) data
    | some _ => .ok (p, [], data)

/-- Twice the bytes that are left; a payload may end without reading any. -/
def turnsLeft (p : Parser) (data : List UInt8) : ℕ :=
  2 * data.length + if p.bufferState = .payload then 1 else 0

/-- **`_onData`** -/
def onData : Parser → List UInt8 → Except Fault (Parser × List ClientEvent) :=
  call turn turnsLeft .hangs

/-- `_onData` for one chunk after the other. -/
def onChunks : Parser → List (List UInt8) → Except Fault (Parser × List ClientEvent) :=
  calls turn turnsLeft .hangs

end Parser

end AsyncMqtt

end MqttServerTest
