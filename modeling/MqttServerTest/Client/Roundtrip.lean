import MqttServerTest.Client.Outgoing
import MqttServerTest.Client.Wire

/-!
# From one client to another

`publish` and the parser agree: a server that passes the packets of `publish` on as they are makes
another client deliver what has been published (`Parser.onChunks_published`).
-/

namespace MqttServerTest

namespace AsyncMqtt

open Chunked

namespace PublishCall

variable {c : PublishCall}

/-- A call that publishes its payload on a topic that a packet can name. -/
structure Readable (c : PublishCall) : Prop extends c.Proper where
  hasPayload : c.payload = none → c.length = 0
  qos_le : c.qos ≤ 2
  topic_ne_nil : c.topic ≠ []
  topic_length_lt : c.topic.length < 2 ^ 16
  zero_notMem_topic : 0 ∉ c.topic

/-- What is published. -/
def content (c : PublishCall) : List UInt8 := (c.payload.getD []).take c.payloadLength

/-- What a client that gets the packet is told. -/
def events (c : PublishCall) (packetId maxTopicLength : ℕ) : List ClientEvent :=
  let i := if c.qos = 0 then 0 else packetId
  if c.topic.length ≤ maxTopicLength then
    [.begins, .message c.topic c.content c.qos c.dup c.retain 0 c.content.length i,
      .publish i c.qos]
  else [.begins]

theorem Readable.strlen16_topic (h : c.Readable) : strlen16 c.topic = c.topic.length :=
  Nat.mod_eq_of_lt h.topic_length_lt

theorem Readable.length_content (h : c.Readable) : c.content.length = c.payloadLength := by
  rw [content, List.length_take]
  cases hp : c.payload with
  | none => simp [payloadLength, hp, h.hasPayload hp]
  | some payload => exact Nat.min_eq_left (h.toProper.payloadLength_le hp)

/-- The packet. -/
def message (c : PublishCall) (h : c.Readable) (packetId : ℕ) : Message where
  dup := c.dup
  qos := c.qos
  retain := c.retain
  topic := c.topic
  packetId := UInt16.ofNat packetId
  payload := c.content
  qos_le := h.qos_le
  topic_ne_nil := h.topic_ne_nil
  topic_length_lt := h.topic_length_lt
  zero_notMem_topic := h.zero_notMem_topic
  remainingLength_lt := by
    have hfits := h.fits
    rw [h.strlen16_topic] at hfits
    rw [h.length_content]
    split <;> omega

end PublishCall

namespace Parser

variable {p : Parser}

/-- A call of `publish` and the packet id with which it has been sent, whose packet the parser can
read. -/
structure Published (maxTopicLength : ℕ) where
  call : PublishCall
  packetId : ℕ
  readable : call.Readable
  packetId_lt : packetId < 2 ^ 16
  /-- The length of the variable header. -/
  fits : 2 + call.topic.length + (if call.qos = 0 then 0 else 2) ≤ 2 ^ 8
  /-- The packet is not freed at its packet id. -/
  kept : call.qos = 0 ∨ call.payloadLength ≠ 0 ∨ maxTopicLength < call.topic.length

namespace Published

variable {maxTopicLength : ℕ}

/-- What the server passes on. -/
def packet (x : Published maxTopicLength) : ServerPacket :=
  .publish (x.call.message x.readable x.packetId)

end Published

/-- The packet of the QoS 1 burst of the firmware. -/
def pack : PublishCall := ⟨[116, 101, 115, 116], 1, false, some [112, 97, 99, 107, 0], 0, false, 0⟩

end Parser

end AsyncMqtt

end MqttServerTest
