import MqttServerTest.Client.Stream

/-!
# What a server sends

The packets that a server sends to the client, their bytes, and that the parser reads them back:
any packets, one after the other, however TCP cuts them (`onChunks_stream`).  The parser counts the
bytes of a variable header in 8 bits, so the header of a publish packet has to be of at most 256
bytes; and it uses the packet after it has freed it if nothing follows the packet id.

A connection may end within the length of a packet, and `_clear` does not forget what has been read
of it.  The next connection begins with a CONNACK packet, of which the parser does not use the
length, and nothing is left of the other one behind it (`Arrives.onChunks`).
-/

namespace MqttServerTest

namespace AsyncMqtt

open Chunked

/-- A number of 16 bits, most significant byte first. -/
def uint16Bytes (n : UInt16) : List UInt8 :=
  [UInt8.ofNat (n.toNat / 256), UInt8.ofNat (n.toNat % 256)]

/-- A publish packet.  One of QoS 0 has no packet id. -/
structure Message where
  dup : Bool
  qos : ℕ
  retain : Bool
  topic : List UInt8
  packetId : UInt16
  payload : List UInt8
  qos_le : qos ≤ 2
  topic_ne_nil : topic ≠ []
  topic_length_lt : topic.length < 2 ^ 16
  zero_notMem_topic : 0 ∉ topic
  remainingLength_lt :
    2 + topic.length + (if qos = 0 then 0 else 2) + payload.length < 2 ^ 28

namespace Message

variable (m : Message)

/-- The length of the variable header. -/
def headerLength : ℕ := 2 + m.topic.length + if m.qos = 0 then 0 else 2

def remainingLength : ℕ := m.headerLength + m.payload.length

/-- The first byte. -/
def firstByte : UInt8 :=
  UInt8.ofNat (3 * 16 + (if m.dup then 8 else 0) + 2 * m.qos + if m.retain then 1 else 0)

/-- The bytes of the packet id. -/
def idBytes : List UInt8 := if m.qos = 0 then [] else uint16Bytes m.packetId

def variableHeader : List UInt8 :=
  uint16Bytes (UInt16.ofNat m.topic.length) ++ m.topic ++ m.idBytes

def bytes : List UInt8 :=
  m.firstByte :: (Varint.encode m.remainingLength ++ (m.variableHeader ++ m.payload))

/-- The header fits the 8 bits in which the parser counts its bytes; and the packet is not freed
while the parser is still in the header, which ends with the packet id: there is no packet id, or a
payload follows, or the message is ignored for its topic. -/
def Fits (maxTopicLength : ℕ) : Prop :=
  m.headerLength ≤ 2 ^ 8 ∧ (m.qos = 0 ∨ m.payload ≠ [] ∨ maxTopicLength < m.topic.length)

instance (maxTopicLength : ℕ) : Decidable (m.Fits maxTopicLength) :=
  inferInstanceAs (Decidable (_ ∧ _))

/-- The packet id that the client is told. -/
def id : ℕ := if m.qos = 0 then 0 else m.packetId.toNat

end Message

/-- The first byte of a packet that consists of a packet id. -/
def AckType.firstByte : AckType → UInt8
  | .pubAck => 0x40
  | .pubRec => 0x50
  | .pubRel => 0x62
  | .pubComp => 0x70
  | .unsubAck => 0xB0

/-- A packet that a server sends. -/
inductive ServerPacket where
  | connAck (sessionPresent : Bool) (connectReturnCode : UInt8)
  | pingResp
  | subAck (packetId : UInt16) (status : UInt8)
  | ack (type : AckType) (packetId : UInt16)
  | publish (message : Message)

namespace ServerPacket

def bytes : ServerPacket → List UInt8
  | .connAck sessionPresent code => [0x20, 2, if sessionPresent then 1 else 0, code]
  | .pingResp => [0xD0, 0]
  | .subAck packetId status => 0x90 :: 3 :: (uint16Bytes packetId ++ [status])
  | .ack type packetId => type.firstByte :: 2 :: uint16Bytes packetId
  | .publish m => m.bytes

/-- What the client is told of a packet: of a message, nothing but that it begins if its topic is
too long. -/
def events (maxTopicLength : ℕ) : ServerPacket → List ClientEvent
  | .connAck sessionPresent code => [.begins, .connAck sessionPresent code]
  | .pingResp => [.begins, .pingResp]
  | .subAck packetId status => [.begins, .subAck packetId.toNat status]
  | .ack type packetId => [.begins, .ack type packetId.toNat]
  | .publish m =>
    if m.topic.length ≤ maxTopicLength then
      [.begins, .message m.topic m.payload m.qos m.dup m.retain 0 m.payload.length m.id,
        .publish m.id m.qos]
    else [.begins]

/-- The parser can read the packet. -/
def Fits (maxTopicLength : ℕ) : ServerPacket → Prop
  | .publish m => m.Fits maxTopicLength
  | _ => True

end ServerPacket

/-- The packet at the beginning of the header. -/
def Message.fresh (m : Message) : PublishPacket :=
  ⟨m.dup, m.qos, m.retain, 0, 0, 0, false, 0, 0, 0, 0⟩

theorem new?_firstByte (m : Message) :
    ParsedPacket.new? (m.firstByte >>> 4).toNat m.firstByte.toNat = some (.publish m.fresh) := by
  have hq := m.qos_le
  have hcases : m.qos = 0 ∨ m.qos = 1 ∨ m.qos = 2 := by omega
  simp only [Message.firstByte, Message.fresh]
  rcases hcases with hq | hq | hq <;> rw [hq] <;> cases m.dup <;> cases m.retain <;> rfl

theorem uint16_uint16Bytes (i : UInt16) :
    uint16 (UInt8.ofNat (i.toNat / 256)) (UInt8.ofNat (i.toNat % 256)) = i.toNat := by
  have hlt := i.toNat_lt
  rw [Parser.uint16_eq, Varint.toNat_ofNat (by omega), Varint.toNat_ofNat (by omega)]
  omega

namespace Parser

variable {p p' : Parser} {k : PublishPacket} {b : UInt8} {es : List ClientEvent} {n : ℕ}

/-- Between two packets. -/
structure Idle (p : Parser) : Prop where
  bufferState : p.bufferState = .none
  remainingLengthBuffer : p.remainingLengthBuffer = []
  consistent : p.Consistent

/-- At the beginning of a connection, with what the last one has left of a length. -/
structure Cleared (p : Parser) : Prop where
  bufferState : p.bufferState = .none
  length_remainingLengthBuffer : p.remainingLengthBuffer.length ≤ 3
  consistent : p.Consistent

theorem Idle.cleared (h : p.Idle) : p.Cleared :=
  ⟨h.bufferState, by rw [h.remainingLengthBuffer]; exact Nat.zero_le 3, h.consistent⟩

theorem Consistent.cleared (h : p.Consistent) (hlen : p.remainingLengthBuffer.length ≤ 3) :
    p.clear.Cleared :=
  ⟨rfl, hlen, h.finish⟩

/-! ### Bytes -/

theorem takes_byte {f : UInt8 → Except Fault (Parser × List ClientEvent)}
    (hf : ∀ data, p.turn data = readByte f data) (hb : f b = .ok (p', es)) :
    Takes turn n p [b] p' es := by
  refine .single (by simp) fun rest _ => ?_
  rw [hf, List.singleton_append, readByte, hb]
  rfl

theorem turn_none (h : p.bufferState = .none) (data : List UInt8) :
    p.turn data = readByte (fun b => .ok (p.headerByte b)) data := by
  rw [turn, h]

theorem turn_remainingLength (h : p.bufferState = .remainingLength) (data : List UInt8) :
    p.turn data = readByte p.lengthByte data := by
  rw [turn, h]

theorem turn_variableHeader {packet : ParsedPacket} (h : p.bufferState = .variableHeader)
    (hc : p.currentParsedPacket = some packet) (hp : packet ≠ .pingResp) (data : List UInt8) :
    p.turn data = readByte (p.variableHeaderByte packet) data := by
  rw [turn, h, hc]
  cases packet <;> first | rfl | exact absurd rfl hp

/-- The bytes of a length but the last. -/
theorem takes_lengthBytes {bs : List UInt8} (h : p.bufferState = .remainingLength)
    (hbs : ∀ b ∈ bs, 128 ≤ b.toNat) (hlen : p.remainingLengthBuffer.length + bs.length ≤ 4) :
    Takes turn n p bs { p with remainingLengthBuffer := p.remainingLengthBuffer ++ bs } [] := by
  induction bs generalizing p with
  | nil =>
    rw [List.append_nil]
    exact .nil
  | cons b bs ih =>
    rw [List.length_cons] at hlen
    have hb := hbs b List.mem_cons_self
    have hstep : p.lengthByte b =
        .ok ({ p with remainingLengthBuffer := p.remainingLengthBuffer ++ [b] }, []) := by
      rw [lengthByte, if_neg (by omega), if_neg (by rw [shiftRight_7_eq_zero_iff]; omega)]
    have hrest := ih (p := { p with remainingLengthBuffer := p.remainingLengthBuffer ++ [b] }) h
      (fun c hc => hbs c (List.mem_cons_of_mem b hc)) (by
        simp only [List.length_append, List.length_singleton]
        omega)
    have := (takes_byte (turn_remainingLength h) hstep).trans hrest
    simpa using this

/-- **A length.** -/
theorem takes_length {l : ℕ} (h : p.bufferState = .remainingLength)
    (hbuf : p.remainingLengthBuffer = []) (hl : l < 2 ^ 28) (hpos : 0 < l) :
    Takes turn n p (Varint.encode l)
      { p with
        remainingLength := l, bufferState := .variableHeader, remainingLengthBuffer := [] } [] := by
  obtain ⟨init, last, heq, hinit, hlast⟩ := Varint.encode_spec l
  have hlen : (Varint.encode l).length ≤ 4 := Varint.length_encode_le_iff.2 hl
  have hdec : decodeRemainingLength (init ++ [last]) = some l := by
    have := Varint.decode_encode l []
    rw [List.append_nil, heq] at this
    rw [decodeRemainingLength_eq, this, Option.map_some, Nat.mod_eq_of_lt (by omega)]
  rw [heq, List.length_append, List.length_singleton] at hlen
  rw [heq]
  have hstep : { p with remainingLengthBuffer := p.remainingLengthBuffer ++ init }.lengthByte last =
      .ok ({ p with
        remainingLength := l
        bufferState := .variableHeader
        remainingLengthBuffer := [] }, []) := by
    have hshort : ¬ 4 ≤ init.length := by omega
    rw [lengthByte, hbuf, List.nil_append, if_neg hshort,
      if_pos ((shiftRight_7_eq_zero_iff last).2 hlast), hdec]
    simp only [gt_iff_lt, if_pos hpos]
  have := (takes_lengthBytes (n := n) h hinit (by rw [hbuf, List.length_nil]; omega)).trans
    (takes_byte (turn_remainingLength h) hstep)
  simpa using this

/-! ### The variable header of a publish packet -/

/-- A byte of the topic has been stored, unless the packet is ignored. -/
def store (p : Parser) (k : PublishPacket) (i : ℕ) (b : UInt8) : Parser :=
  if k.ignore then p else { p with topicBuffer := p.topicBuffer.set i b }

/-- The byte `i` of the topic. -/
theorem publishHeaderByte_topic {i : ℕ} (hpos : k.bytePosition = 2 + i) (hi : i < k.topicLength)
    (hbuf : k.ignore = false → i < p.topicBuffer.length) (b : UInt8) :
    p.publishHeaderByte k b = .ok (
      if i + 1 = k.topicLength ∧ k.qos = 0 then
        (p.store k i b).preparePayloadHandling k
          ((p.remainingLength + 2 ^ 32 - (k.bytePosition + 1)) % 2 ^ 32)
      else
        ((p.store k i b).set
          (.publish { k with bytePosition := (k.bytePosition + 1) % 2 ^ 8 }), [])) := by
  have hlast : k.bytePosition = 2 + k.topicLength - 1 ↔ i + 1 = k.topicLength := by omega
  rw [publishHeaderByte]
  simp only [hlast]
  rw [if_neg (by omega), if_neg (by omega), if_pos (by omega)]
  by_cases hig : k.ignore = true
  · rw [store, if_pos hig, if_pos hig]
    split_ifs <;> rfl
  · have hstore : p.storeTopic (k.bytePosition - 2) b = .ok (p.store k i b) := by
      rw [storeTopic, hpos, Nat.add_sub_cancel_left, if_pos (hbuf (by simpa using hig)), store,
        if_neg hig]
    rw [if_neg hig, hstore]
    split_ifs <;> rfl

/-- The parser when it has read the bytes `done` of a topic. -/
def atTopic (p : Parser) (k : PublishPacket) (done : List UInt8) : Parser :=
  (if k.ignore then p
    else { p with topicBuffer := done ++ p.topicBuffer.drop done.length }).set
      (.publish { k with bytePosition := 2 + done.length })

theorem store_atTopic {done : List UInt8}
    (hdone : k.ignore = false → done.length < p.topicBuffer.length) :
    ((p.atTopic k done).store k done.length b).set
      (.publish { k with bytePosition := 2 + (done ++ [b]).length }) =
      p.atTopic k (done ++ [b]) := by
  rw [atTopic, atTopic, store]
  split_ifs with hig
  · rfl
  · have hset : (done ++ p.topicBuffer.drop done.length).set done.length b =
        done ++ [b] ++ p.topicBuffer.drop (done ++ [b]).length := by
      rw [List.set_append_right _ _ le_rfl, Nat.sub_self,
        List.drop_eq_getElem_cons (hdone (by simpa using hig)), List.set_cons_zero,
        List.append_assoc, List.length_append]
      rfl
    simp only [Parser.set, hset]

/-- Bytes of the topic, but for the one that ends the header. -/
theorem takes_topic {done todo : List UInt8} (h : p.bufferState = .variableHeader)
    (hbuf : k.ignore = false → k.topicLength < p.topicBuffer.length)
    (hlen : (done ++ todo).length ≤ k.topicLength) (hqos : k.qos = 0 →
      (done ++ todo).length < k.topicLength) (h256 : 2 + (done ++ todo).length < 2 ^ 8) :
    Takes turn n (p.atTopic k done) todo (p.atTopic k (done ++ todo)) [] := by
  induction todo generalizing done with
  | nil =>
    rw [List.append_nil]
    exact .nil
  | cons b todo ih =>
    simp only [List.length_append, List.length_cons] at hlen hqos h256
    have hstate : (p.atTopic k done).bufferState = .variableHeader := by
      rw [atTopic]
      split_ifs <;> exact h
    have hbytes : k.ignore = false → done.length < (p.atTopic k done).topicBuffer.length := by
      intro hig
      have := hbuf hig
      simp only [atTopic, hig, Bool.false_eq_true, if_false, set_topicBuffer, List.length_append,
        List.length_drop]
      omega
    have hnotlast : ¬ (done.length + 1 = k.topicLength ∧ k.qos = 0) := by
      rintro ⟨heq, hq⟩
      have := hqos hq
      omega
    have hstep : (p.atTopic k done).publishHeaderByte { k with bytePosition := 2 + done.length } b =
        .ok (p.atTopic k (done ++ [b]), []) := by
      have hpos : (2 + done.length + 1) % 2 ^ 8 = 2 + (done ++ [b]).length := by
        rw [List.length_append, List.length_singleton]
        omega
      have hi : done.length < k.topicLength := by omega
      rw [publishHeaderByte_topic (k := { k with bytePosition := 2 + done.length }) rfl hi hbytes,
        if_neg hnotlast, ← store_atTopic fun hig => by have := hbuf hig; omega]
      simp only [hpos]
      rfl
    have hrest := @ih (done ++ [b]) (by simp; omega) (fun hq => by
      have := hqos hq
      simp
      omega) (by simp; omega)
    rw [List.append_assoc, List.singleton_append] at hrest
    exact (takes_byte (turn_variableHeader hstate rfl (by simp)) hstep).trans hrest

theorem topic_atTopic {done : List UInt8} (hig : k.ignore = false) (h0 : 0 ∉ done)
    (hend : p.topicBuffer[done.length]? = some 0) : (p.atTopic k done).topic = done := by
  obtain ⟨hlt, hget⟩ := List.getElem?_eq_some_iff.1 hend
  simp only [topic, atTopic, hig, Bool.false_eq_true, if_false, set_topicBuffer]
  rw [List.drop_eq_getElem_cons hlt, hget,
    List.takeWhile_append_of_pos fun b hb => by
      simp only [ne_eq, decide_not, Bool.not_eq_eq_eq_not, Bool.not_true, decide_eq_false_iff_not]
      rintro rfl
      exact h0 hb]
  simp

/-- What the parser knows of the message `m` when it has read the header, from `p`. -/
structure HeaderRead (m : Message) (p p' : Parser) (k : PublishPacket) : Prop where
  consistent : p'.Consistent
  maxTopicLength : p'.maxTopicLength = p.maxTopicLength
  remainingLengthBuffer : p'.remainingLengthBuffer = p.remainingLengthBuffer
  dup : k.dup = m.dup
  qos : k.qos = m.qos
  retain : k.retain = m.retain
  packetId : k.packetId = m.id
  topicLength : k.topicLength = m.topic.length
  ignore : k.ignore = decide (p.maxTopicLength < m.topic.length)
  topic : k.ignore = false → p'.topic = m.topic
  payloadBytesRead : k.payloadBytesRead = 0

/-- The topic buffer has been prepared for the topic of `m`. -/
def ready (p : Parser) (m : Message) : Parser :=
  if p.maxTopicLength < m.topic.length then p
  else { p with topicBuffer := p.topicBuffer.set m.topic.length 0 }

/-- The packet when the topic length is known. -/
def header (p : Parser) (m : Message) : PublishPacket :=
  { m.fresh with
    topicLengthMsb := UInt8.ofNat (m.topic.length / 256)
    topicLength := m.topic.length
    ignore := decide (p.maxTopicLength < m.topic.length) }

variable {m : Message}

theorem ready_bufferState : (p.ready m).bufferState = p.bufferState := by
  rw [ready]
  split_ifs <;> rfl

theorem ready_maxTopicLength : (p.ready m).maxTopicLength = p.maxTopicLength := by
  rw [ready]
  split_ifs <;> rfl

theorem ready_remainingLength : (p.ready m).remainingLength = p.remainingLength := by
  rw [ready]
  split_ifs <;> rfl

theorem ready_remainingLengthBuffer :
    (p.ready m).remainingLengthBuffer = p.remainingLengthBuffer := by
  rw [ready]
  split_ifs <;> rfl

theorem ready_length : (p.ready m).topicBuffer.length = p.topicBuffer.length := by
  rw [ready]
  split_ifs <;> simp

theorem ready_topicBuffer (hc : p.Consistent) (h : (p.header m).ignore = false) :
    (p.ready m).topicBuffer[m.topic.length]? = some 0 := by
  have hle : ¬ p.maxTopicLength < m.topic.length := of_decide_eq_false h
  have hlt : m.topic.length < p.topicBuffer.length := by
    rw [hc.topicBuffer]
    omega
  rw [ready, if_neg hle]
  simp [hlt]

/-- The two bytes of the topic length. -/
theorem takes_topicLength (h : p.bufferState = .variableHeader)
    (hk : p.currentParsedPacket = some (.publish m.fresh)) (hc : p.Consistent) :
    Takes turn n p (uint16Bytes (UInt16.ofNat m.topic.length))
      ((p.ready m).atTopic (p.header m) []) [] := by
  have hlen : (UInt16.ofNat m.topic.length).toNat = m.topic.length :=
    Nat.mod_eq_of_lt m.topic_length_lt
  have huint := uint16_uint16Bytes (UInt16.ofNat m.topic.length)
  rw [uint16Bytes]
  rw [hlen] at huint ⊢
  generalize hmsb : UInt8.ofNat (m.topic.length / 256) = msb at huint
  generalize UInt8.ofNat (m.topic.length % 256) = lsb at huint
  set k : PublishPacket := { m.fresh with topicLengthMsb := msb, bytePosition := 1 } with hk₁
  have hfirst : p.publishHeaderByte m.fresh msb = .ok (p.set (.publish k), []) := rfl
  have hsecond : (p.set (.publish k)).publishHeaderByte k lsb =
      .ok ((p.ready m).atTopic (p.header m) [], []) := by
    have hlong : uint16 msb lsb > p.maxTopicLength ↔ p.maxTopicLength < m.topic.length := by
      rw [huint]
    rw [publishHeaderByte]
    simp only [hk₁, one_ne_zero, if_false, if_true, set_maxTopicLength, hlong]
    split_ifs with hlt
    · rw [atTopic, ready, header, if_pos hlt, hmsb]
      simp [hlt, huint]
      rfl
    · have hstore : ∀ packet, (p.set packet).storeTopic (uint16 msb lsb) 0 =
          .ok ({ p with topicBuffer := p.topicBuffer.set m.topic.length 0 }.set packet) := by
        intro packet
        have hbuf : m.topic.length < p.topicBuffer.length := by
          rw [hc.topicBuffer]
          omega
        rw [storeTopic, huint, set_topicBuffer, if_pos hbuf]
        rfl
      rw [hstore, atTopic, ready, header, if_neg hlt, hmsb]
      simp [hlt, huint]
      rfl
  exact (takes_byte (turn_variableHeader h hk (by simp)) hfirst).trans
    (takes_byte (turn_variableHeader h rfl (by simp)) hsecond)

theorem preparePayloadHandling_set {packet : ParsedPacket} :
    (p.set packet).preparePayloadHandling k n = p.preparePayloadHandling k n := by
  rw [preparePayloadHandling, preparePayloadHandling]
  split_ifs <;> rfl

/-- The part of a packet that is behind the header. -/
theorem payloadLength_eq (hl : p.remainingLength = m.remainingLength) :
    (p.remainingLength + 2 ^ 32 - m.headerLength) % 2 ^ 32 = m.payload.length := by
  have := m.remainingLength_lt
  rw [hl, Message.remainingLength]
  omega

theorem atTopic_maxTopicLength {done : List UInt8} :
    (p.atTopic k done).maxTopicLength = p.maxTopicLength := by
  rw [atTopic]
  split_ifs <;> rfl

theorem atTopic_remainingLength {done : List UInt8} :
    (p.atTopic k done).remainingLength = p.remainingLength := by
  rw [atTopic]
  split_ifs <;> rfl

theorem atTopic_remainingLengthBuffer {done : List UInt8} :
    (p.atTopic k done).remainingLengthBuffer = p.remainingLengthBuffer := by
  rw [atTopic]
  split_ifs <;> rfl

theorem atTopic_length {done : List UInt8}
    (h : k.ignore = false → done.length ≤ p.topicBuffer.length) :
    (p.atTopic k done).topicBuffer.length = p.topicBuffer.length := by
  rw [atTopic]
  split_ifs with hig
  · rfl
  · have := h (by simpa using hig)
    simp only [set_topicBuffer, List.length_append, List.length_drop]
    omega

/-- When the topic has been read, the parser knows the message. -/
theorem headerRead_atTopic (hc : p.Consistent) (hdup : k.dup = m.dup) (hqos : k.qos = m.qos)
    (hretain : k.retain = m.retain) (hid : k.packetId = m.id)
    (hlen : k.topicLength = m.topic.length)
    (hignore : k.ignore = decide (p.maxTopicLength < m.topic.length))
    (hread : k.payloadBytesRead = 0) :
    HeaderRead m p ((p.ready m).atTopic (p.header m) m.topic) k where
  consistent := by
    refine hc.keep ?_ ?_ ?_ fun k' hk' hig => ?_
    · rw [atTopic_length, ready_length]
      intro hig
      have hle : ¬ p.maxTopicLength < m.topic.length := of_decide_eq_false hig
      rw [ready_length, hc.topicBuffer]
      omega
    · rw [atTopic_maxTopicLength, ready_maxTopicLength]
    · rw [atTopic_remainingLengthBuffer, ready_remainingLengthBuffer]
    · cases hk'
      exact Nat.le_of_not_lt (of_decide_eq_false hig)
  maxTopicLength := by rw [atTopic_maxTopicLength, ready_maxTopicLength]
  remainingLengthBuffer := by rw [atTopic_remainingLengthBuffer, ready_remainingLengthBuffer]
  dup := hdup
  qos := hqos
  retain := hretain
  packetId := hid
  topicLength := hlen
  ignore := hignore
  topic hig := by
    have hig' : (p.header m).ignore = false := hignore.symm.trans hig
    exact topic_atTopic hig' m.zero_notMem_topic (ready_topicBuffer hc hig')
  payloadBytesRead := hread

theorem header_topicLength : (p.header m).topicLength = m.topic.length := rfl

theorem header_ignore (hc : p.Consistent) (h : (p.header m).ignore = false) :
    m.topic.length < (p.ready m).topicBuffer.length := by
  have hle : ¬ p.maxTopicLength < m.topic.length := of_decide_eq_false h
  rw [ready_length, hc.topicBuffer]
  omega

theorem atTopic_bufferState {done : List UInt8} (h : p.bufferState = .variableHeader) :
    ((p.ready m).atTopic k done).bufferState = .variableHeader := by
  rw [atTopic]
  split_ifs <;> exact ready_bufferState.trans h

/-- The last byte of a header that ends with the topic. -/
theorem publishHeaderByte_last {init : List UInt8} {last : UInt8} (hc : p.Consistent)
    (hl : p.remainingLength = m.remainingLength) (htopic : m.topic = init ++ [last])
    (hqos : m.qos = 0) :
    ((p.ready m).atTopic (p.header m) init).publishHeaderByte
        { p.header m with bytePosition := 2 + init.length } last =
      .ok (((p.ready m).atTopic (p.header m) m.topic).preparePayloadHandling
        { p.header m with bytePosition := 2 + init.length } m.payload.length) := by
  have hlen : m.topic.length = init.length + 1 := by rw [htopic]; simp
  have hhead : 2 + init.length + 1 = m.headerLength := by
    rw [Message.headerLength, if_pos hqos]
    omega
  have hbuf : (p.header m).ignore = false →
      init.length < ((p.ready m).atTopic (p.header m) init).topicBuffer.length := by
    intro hig
    have hlt := header_ignore hc hig
    rw [atTopic_length fun _ => by omega]
    omega
  have hrl : ((p.ready m).atTopic (p.header m) init).remainingLength = m.remainingLength := by
    rw [atTopic_remainingLength, ready_remainingLength, hl]
  have hi : init.length < (p.header m).topicLength := by
    rw [header_topicLength]
    omega
  rw [publishHeaderByte_topic (k := { p.header m with bytePosition := 2 + init.length }) rfl hi
      hbuf,
    if_pos ⟨hlen.symm, hqos⟩]
  simp only [hhead, payloadLength_eq hrl]
  rw [htopic, ← store_atTopic fun hig => by have := header_ignore hc hig; omega,
    preparePayloadHandling_set]
  rfl

theorem takes_variableHeader_of_eq_zero (h : p.bufferState = .variableHeader)
    (hk : p.currentParsedPacket = some (.publish m.fresh)) (hc : p.Consistent)
    (hl : p.remainingLength = m.remainingLength) (h256 : m.headerLength ≤ 2 ^ 8)
    (hqos : m.qos = 0) : ∃ p' k, HeaderRead m p p' k ∧ Takes turn n p m.variableHeader
      (p'.preparePayloadHandling k m.payload.length).1
      (p'.preparePayloadHandling k m.payload.length).2 := by
  obtain ⟨init, last, htopic⟩ : ∃ init last, m.topic = init ++ [last] :=
    ⟨_, _, (List.dropLast_concat_getLast m.topic_ne_nil).symm⟩
  have hlen : m.topic.length = init.length + 1 := by rw [htopic]; simp
  rw [Message.headerLength, if_pos hqos] at h256
  have htake := @takes_topic _ (p.header m) n [] init ((ready_bufferState (m := m)).trans h)
    (header_ignore hc) (by rw [List.nil_append, header_topicLength]; omega)
    (fun _ => by rw [List.nil_append, header_topicLength]; omega)
    (by rw [List.nil_append]; omega)
  have hlast := takes_byte (n := n) (turn_variableHeader (atTopic_bufferState h) rfl (by simp))
    (publishHeaderByte_last hc hl htopic hqos)
  have hid : (p.header m).packetId = m.id := by
    rw [Message.id, if_pos hqos]
    rfl
  refine ⟨_, { p.header m with bytePosition := 2 + init.length },
    headerRead_atTopic hc rfl rfl rfl hid rfl rfl rfl, ?_⟩
  rw [Message.variableHeader, Message.idBytes, if_pos hqos, List.append_nil]
  have hall := (takes_topicLength h hk hc).trans (htake.trans hlast)
  rw [← htopic] at hall
  exact hall

/-- The packet when its id is known. -/
def withId (k : PublishPacket) (i : UInt16) : PublishPacket :=
  { k with
    packetIdMsb := UInt8.ofNat (i.toNat / 256)
    packetId := i.toNat
    bytePosition := (4 + k.topicLength) % 2 ^ 8 }

/-- The two bytes of the packet id.  The packet is freed if it ends with them. -/
theorem publishHeaderByte_packetId {done : List UInt8} {l : ℕ}
    (hdone : done.length = k.topicLength) (hpos : 4 + k.topicLength ≤ 2 ^ 8)
    (hl : (p.remainingLength + 2 ^ 32 - (4 + k.topicLength)) % 2 ^ 32 = l) (i : UInt16) :
    ∃ k₁ : PublishPacket,
      (p.atTopic k done).publishHeaderByte { k with bytePosition := 2 + done.length }
        (UInt8.ofNat (i.toNat / 256)) = .ok ((p.atTopic k done).set (.publish k₁), []) ∧
      ((p.atTopic k done).set (.publish k₁)).publishHeaderByte k₁ (UInt8.ofNat (i.toNat % 256)) =
        if l = 0 ∧ k.ignore = false then .error .freedPacket
        else .ok ((p.atTopic k done).preparePayloadHandling (withId k i) l) := by
  have huint := uint16_uint16Bytes i
  obtain ⟨k₁, hk₁⟩ : ∃ k₁ : PublishPacket, k₁ = { k with
    bytePosition := 3 + k.topicLength, packetIdMsb := UInt8.ofNat (i.toNat / 256) } := ⟨_, rfl⟩
  refine ⟨k₁, ?_, ?_⟩
  · have hnext : (2 + k.topicLength + 1) % 2 ^ 8 = 3 + k.topicLength := by omega
    rw [publishHeaderByte, hdone, hk₁]
    simp only [hnext]
    rw [if_neg (by omega), if_neg (by omega), if_neg (by omega), if_pos trivial]
  · have hnext : 3 + k.topicLength + 1 = 4 + k.topicLength := by omega
    have hrl : ((p.atTopic k done).set (.publish k₁)).remainingLength = p.remainingLength :=
      atTopic_remainingLength
    rw [publishHeaderByte, hrl, hk₁]
    simp only [huint, hnext, hl, preparePayloadHandling_currentParsedPacket]
    rw [if_neg (by omega), if_neg (by omega), if_neg (by omega), if_neg (by omega),
      preparePayloadHandling_set]
    rfl

/-- The two bytes of the packet id of a packet that is kept. -/
theorem takes_packetId {done : List UInt8} {l : ℕ} (h : (p.atTopic k done).bufferState =
      .variableHeader) (hdone : done.length = k.topicLength) (hpos : 4 + k.topicLength ≤ 2 ^ 8)
    (hl : (p.remainingLength + 2 ^ 32 - (4 + k.topicLength)) % 2 ^ 32 = l)
    (hkept : ¬ (l = 0 ∧ k.ignore = false)) (i : UInt16) :
    Takes turn n (p.atTopic k done) (uint16Bytes i)
      ((p.atTopic k done).preparePayloadHandling (withId k i) l).1
      ((p.atTopic k done).preparePayloadHandling (withId k i) l).2 := by
  obtain ⟨k₁, hfirst, hsecond⟩ := publishHeaderByte_packetId hdone hpos hl i
  rw [if_neg hkept] at hsecond
  rw [uint16Bytes]
  exact (takes_byte (turn_variableHeader h rfl (by simp)) hfirst).trans
    (takes_byte (turn_variableHeader h rfl (by simp)) hsecond)

theorem Message.headerLength_of_ne (hqos : m.qos ≠ 0) : m.headerLength = 4 + m.topic.length := by
  rw [Message.headerLength, if_neg hqos]
  omega

/-- A header that goes on with a packet id, up to there. -/
theorem takes_untilId (h : p.bufferState = .variableHeader)
    (hk : p.currentParsedPacket = some (.publish m.fresh)) (hc : p.Consistent)
    (h256 : m.headerLength ≤ 2 ^ 8) (hqos : m.qos ≠ 0) :
    Takes turn n p (uint16Bytes (UInt16.ofNat m.topic.length) ++ m.topic)
      ((p.ready m).atTopic (p.header m) m.topic) [] := by
  have hhead := Message.headerLength_of_ne hqos
  have htake := @takes_topic _ (p.header m) n [] m.topic ((ready_bufferState (m := m)).trans h)
    (header_ignore hc) le_rfl (fun hq => absurd hq hqos) (by rw [List.nil_append]; omega)
  exact (takes_topicLength h hk hc).trans htake

/-- What follows the packet id. -/
theorem payloadLength_of_ne (hl : p.remainingLength = m.remainingLength) (hqos : m.qos ≠ 0) :
    ((p.ready m).remainingLength + 2 ^ 32 - (4 + (p.header m).topicLength)) % 2 ^ 32 =
      m.payload.length := by
  have hlen := payloadLength_eq (ready_remainingLength.trans hl : (p.ready m).remainingLength = _)
  rwa [Message.headerLength_of_ne hqos] at hlen

/-- **The variable header** of a publish packet that the parser can read. -/
theorem takes_variableHeader (h : p.bufferState = .variableHeader)
    (hk : p.currentParsedPacket = some (.publish m.fresh)) (hc : p.Consistent)
    (hl : p.remainingLength = m.remainingLength) (hfits : m.Fits p.maxTopicLength) :
    ∃ p' k, HeaderRead m p p' k ∧ Takes turn n p m.variableHeader
      (p'.preparePayloadHandling k m.payload.length).1
      (p'.preparePayloadHandling k m.payload.length).2 := by
  obtain ⟨h256, hkept⟩ := hfits
  by_cases hqos : m.qos = 0
  · exact takes_variableHeader_of_eq_zero h hk hc hl h256 hqos
  · have hhead := Message.headerLength_of_ne hqos
    have hkept' : ¬ (m.payload.length = 0 ∧ (p.header m).ignore = false) := by
      rintro ⟨hnil, hig⟩
      have hlong : ¬ p.maxTopicLength < m.topic.length := of_decide_eq_false hig
      exact hkept.elim hqos fun h => h.elim (fun hne => hne (List.length_eq_zero_iff.1 hnil)) hlong
    have hid := takes_packetId (n := n) (atTopic_bufferState (k := p.header m) h)
      (header_topicLength (p := p)).symm (by rw [header_topicLength]; omega)
      (payloadLength_of_ne hl hqos) hkept' m.packetId
    have hm : m.packetId.toNat = m.id := by rw [Message.id, if_neg hqos]
    refine ⟨_, withId (p.header m) m.packetId,
      headerRead_atTopic hc rfl rfl rfl hm rfl rfl rfl, ?_⟩
    rw [Message.variableHeader, Message.idBytes, if_neg hqos]
    exact (takes_untilId h hk hc h256 hqos).trans hid

/-! ### Packets -/

/-- The first byte and the length of a packet that has a variable header. -/
theorem takes_fixedHeader {l : ℕ} {packet : ParsedPacket} (hp : p.Idle)
    (hnew : ParsedPacket.new? (b >>> 4).toNat b.toNat = some packet) (hl : l < 2 ^ 28)
    (hpos : 0 < l) : ∃ p', Takes turn n p (b :: Varint.encode l) p' [.begins] ∧
      p'.bufferState = .variableHeader ∧ p'.currentParsedPacket = some packet ∧
      p'.remainingLength = l ∧ p'.remainingLengthBuffer = [] ∧ p'.Consistent ∧
      p'.maxTopicLength = p.maxTopicLength := by
  have hc := (headerByte_spec hp.consistent b).1
  have hcur : (p.headerByte b).1.currentParsedPacket = some packet := by
    rw [headerByte_currentParsedPacket, hnew, Option.some_or]
  have hfirst : Takes turn n p [b] (p.headerByte b).1 [.begins] :=
    takes_byte (turn_none hp.bufferState) rfl
  have hlength := takes_length (n := n) (p := (p.headerByte b).1) rfl hp.remainingLengthBuffer hl
    hpos
  exact ⟨_, hfirst.trans hlength, rfl, hcur, rfl, rfl, ⟨hc.topicBuffer, hc.topicLength, by simp⟩,
    rfl⟩

theorem Idle.finish (h : p.Consistent) (hbuf : p.remainingLengthBuffer = []) : p.finish.Idle :=
  ⟨rfl, hbuf, h.finish⟩

theorem takes_ack {type : AckType} {i : UInt16} (hp : p.Idle) :
    ∃ p', Takes turn n p (ServerPacket.ack type i).bytes p' [.begins, .ack type i.toNat] ∧
      p'.Idle ∧ p'.maxTopicLength = p.maxTopicLength := by
  have hnew : ParsedPacket.new? (type.firstByte >>> 4).toNat type.firstByte.toNat =
      some (.ack type 0 0) := by
    cases type <;> rfl
  obtain ⟨p', htake, hs, hcur, -, hbuf, hc, hmax⟩ :=
    takes_fixedHeader (n := n) hp hnew (show 2 < 2 ^ 28 by omega) (by omega)
  have hfirst : p'.variableHeaderByte (.ack type 0 0) (UInt8.ofNat (i.toNat / 256)) =
      .ok (p'.set (.ack type 1 (UInt8.ofNat (i.toNat / 256))), []) := rfl
  have hsecond : (p'.set (.ack type 1 (UInt8.ofNat (i.toNat / 256)))).variableHeaderByte
      (.ack type 1 (UInt8.ofNat (i.toNat / 256))) (UInt8.ofNat (i.toNat % 256)) =
        .ok (p'.finish, [.ack type i.toNat]) := by
    rw [variableHeaderByte, if_neg one_ne_zero, uint16_uint16Bytes]
    rfl
  have hbytes := (takes_byte (n := n) (turn_variableHeader hs hcur (by simp)) hfirst).trans
    (takes_byte (turn_variableHeader hs rfl (by simp)) hsecond)
  have hall := htake.trans hbytes
  rw [Varint.encode_of_lt (by omega)] at hall
  exact ⟨_, hall, .finish hc hbuf, hmax⟩

/-- The last byte of a length, whatever has been read of it. -/
theorem lengthByte_last (hc : p.Consistent) (hlen : p.remainingLengthBuffer.length ≤ 3)
    (hb : b.toNat < 128) (hpos : 0 < b.toNat) : ∃ l, p.lengthByte b = .ok ({ p with
      remainingLength := l, bufferState := .variableHeader, remainingLengthBuffer := [] }, []) := by
  obtain ⟨l, hl, hlt, hle⟩ := Varint.decode_snoc hc.remainingLengthBuffer hb
  have hpow : 128 ^ (p.remainingLengthBuffer.length + 1) ≤ 128 ^ 4 :=
    Nat.pow_le_pow_right (by omega) (by omega)
  have hdec : decodeRemainingLength (p.remainingLengthBuffer ++ [b]) = some l := by
    rw [decodeRemainingLength_eq, hl, Option.map_some, Nat.mod_eq_of_lt (by omega)]
  refine ⟨l, ?_⟩
  rw [lengthByte, if_neg (by omega), if_pos ((shiftRight_7_eq_zero_iff b).2 hb), hdec]
  simp only [gt_iff_lt, if_pos (Nat.lt_of_lt_of_le hpos hle)]

theorem takes_connAck {sessionPresent : Bool} {code : UInt8} (hp : p.Cleared) :
    ∃ p', Takes turn n p (ServerPacket.connAck sessionPresent code).bytes p'
        [.begins, .connAck sessionPresent code] ∧
      p'.Idle ∧ p'.maxTopicLength = p.maxTopicLength := by
  have hc := (headerByte_spec hp.consistent 0x20).1
  have hcur : (p.headerByte 0x20).1.currentParsedPacket = some (.connAck 0 false) := rfl
  obtain ⟨l, hl⟩ := lengthByte_last (b := 2) hc hp.length_remainingLengthBuffer (by decide)
    (by decide)
  obtain ⟨p', hp'⟩ : ∃ p', p' = { (p.headerByte 0x20).1 with
    remainingLength := l, bufferState := .variableHeader, remainingLengthBuffer := [] } := ⟨_, rfl⟩
  rw [← hp'] at hl
  have hs : p'.bufferState = .variableHeader := by rw [hp']
  have hfirst : p'.variableHeaderByte (.connAck 0 false) (if sessionPresent then 1 else 0) =
      .ok (p'.set (.connAck 1 sessionPresent), []) := by
    cases sessionPresent <;> rfl
  have hsecond : (p'.set (.connAck 1 sessionPresent)).variableHeaderByte
      (.connAck 1 sessionPresent) code = .ok (p'.finish, [.connAck sessionPresent code]) := rfl
  have hlength : Takes turn n p [0x20, 2] p' [.begins] :=
    (takes_byte (turn_none hp.bufferState) rfl).trans
      (takes_byte (turn_remainingLength rfl) hl)
  have hbytes := (takes_byte (n := n) (turn_variableHeader hs (by rw [hp']; exact hcur) (by simp))
    hfirst).trans (takes_byte (turn_variableHeader hs rfl (by simp)) hsecond)
  have hidle : p'.finish.Idle := by
    rw [hp']
    exact .finish ⟨hc.topicBuffer, hc.topicLength, by simp⟩ rfl
  exact ⟨p'.finish, hlength.trans hbytes, hidle, by rw [hp']; rfl⟩

theorem takes_subAck {i : UInt16} {status : UInt8} (hp : p.Idle) :
    ∃ p', Takes turn n p (ServerPacket.subAck i status).bytes p'
        [.begins, .subAck i.toNat status] ∧
      p'.Idle ∧ p'.maxTopicLength = p.maxTopicLength := by
  obtain ⟨p', htake, hs, hcur, -, hbuf, hc, hmax⟩ :=
    @takes_fixedHeader p 0x90 n 3 (.subAck 0 0 0) hp rfl (by omega) (by omega)
  generalize hmsb : UInt8.ofNat (i.toNat / 256) = msb
  have hfirst : p'.variableHeaderByte (.subAck 0 0 0) msb =
      .ok (p'.set (.subAck 1 msb 0), []) := rfl
  obtain ⟨q, hq⟩ : ∃ q, q =
    { p'.set (.subAck 2 msb i.toNat) with bufferState := .payload } := ⟨_, rfl⟩
  have hsecond : (p'.set (.subAck 1 msb 0)).variableHeaderByte (.subAck 1 msb 0)
      (UInt8.ofNat (i.toNat % 256)) = .ok (q, []) := by
    rw [variableHeaderByte, if_neg one_ne_zero, ← hmsb, uint16_uint16Bytes, hq, hmsb]
    rfl
  have hturn : ∀ data, q.turn data =
      readByte (fun status => .ok (p'.finish, [.subAck i.toNat status])) data := by
    intro data
    rw [turn, hq]
    rfl
  have hbytes := ((takes_byte (n := n) (turn_variableHeader hs hcur (by simp)) hfirst).trans
    (takes_byte (turn_variableHeader hs rfl (by simp)) hsecond)).trans
      (takes_byte (b := status) hturn rfl)
  have hall := htake.trans hbytes
  rw [Varint.encode_of_lt (by omega)] at hall
  refine ⟨_, ?_, .finish hc hbuf, hmax⟩
  rw [ServerPacket.bytes, uint16Bytes, hmsb]
  exact hall

theorem takes_pingResp (hp : p.Idle) :
    ∃ p', Takes turn n p ServerPacket.pingResp.bytes p' [.begins, .pingResp] ∧
      p'.Idle ∧ p'.maxTopicLength = p.maxTopicLength := by
  have hc := (headerByte_spec hp.consistent 0xD0).1
  have hfirst : Takes turn n p [0xD0] (p.headerByte 0xD0).1 [.begins] :=
    takes_byte (turn_none hp.bufferState) rfl
  have hlength : (p.headerByte 0xD0).1.lengthByte 0 =
      .ok ({ (p.headerByte 0xD0).1.finish with
        remainingLength := 0, remainingLengthBuffer := [] }, [.pingResp]) := by
    have hbuf : (p.headerByte 0xD0).1.remainingLengthBuffer = [] := hp.remainingLengthBuffer
    rw [lengthByte, hbuf]
    rfl
  exact ⟨_, hfirst.trans (takes_byte (turn_remainingLength rfl) hlength),
    ⟨rfl, rfl, hc.finish.topicBuffer, by simp, by simp⟩, rfl⟩

section Payload

variable {p₀ : Parser} (h : HeaderRead m p₀ p k)
include h

theorem HeaderRead.length_le_iff : m.topic.length ≤ p₀.maxTopicLength ↔ k.ignore = false := by
  rw [h.ignore, decide_eq_false_iff_not, Nat.not_lt]

theorem HeaderRead.message_eq (hig : k.ignore = false) {q : Parser} {k' : PublishPacket}
    (hq : q.topicBuffer = p.topicBuffer) (hk : k' = { k with payloadLength := m.payload.length }) :
    q.message k' m.payload 0 m.payload.length =
      .message m.topic m.payload m.qos m.dup m.retain 0 m.payload.length m.id := by
  have htopic : q.topic = m.topic := by
    rw [← h.topic hig, Parser.topic, Parser.topic, hq]
  simp only [message, htopic, hk, h.qos, h.dup, h.retain, h.packetId]

theorem HeaderRead.idle (hbuf : p₀.remainingLengthBuffer = []) {k' : PublishPacket}
    (hlen : k'.topicLength = k.topicLength) (hig : k'.ignore = k.ignore) :
    { p.set (.publish k') with bufferState := .none }.Idle := by
  refine ⟨rfl, h.remainingLengthBuffer.trans hbuf, h.consistent.keep rfl rfl rfl ?_⟩
  intro k'' hk'' hig'
  cases hk''
  rw [hlen, h.topicLength, h.maxTopicLength, h.length_le_iff, ← hig, hig']

/-- What is behind the variable header: nothing. -/
theorem HeaderRead.nothing (hbuf : p₀.remainingLengthBuffer = []) (hnil : m.payload.length = 0) :
    .begins :: (p.preparePayloadHandling k m.payload.length).2 =
        (ServerPacket.publish m).events p₀.maxTopicLength ∧
      (p.preparePayloadHandling k m.payload.length).1.Idle ∧
      (p.preparePayloadHandling k m.payload.length).1.maxTopicLength = p₀.maxTopicLength := by
  have hempty : m.payload = [] := List.length_eq_zero_iff.1 hnil
  rw [preparePayloadHandling, if_pos hnil, ServerPacket.events]
  by_cases hig : k.ignore = true
  · have hnot : ¬ m.topic.length ≤ p₀.maxTopicLength := by simp [h.length_le_iff, hig]
    rw [if_pos hig, if_neg hnot]
    exact ⟨rfl, h.idle hbuf rfl rfl, h.maxTopicLength⟩
  · have hig' : k.ignore = false := by simpa using hig
    have hev := h.message_eq hig' (q := p) rfl rfl
    rw [hnil, hempty] at hev
    rw [if_neg hig, if_pos (h.length_le_iff.2 hig'), hnil, hempty]
    refine ⟨?_, .finish h.consistent (h.remainingLengthBuffer.trans hbuf), h.maxTopicLength⟩
    rw [hev, h.packetId, h.qos]

/-- What is behind the variable header: a payload. -/
theorem HeaderRead.payload (hbuf : p₀.remainingLengthBuffer = []) (hne : m.payload.length ≠ 0) :
    ∃ p' es, Takes turn (2 ^ 32) (p.preparePayloadHandling k m.payload.length).1 m.payload p' es ∧
      .begins :: (p.preparePayloadHandling k m.payload.length).2 ++ es =
        (ServerPacket.publish m).events p₀.maxTopicLength ∧
      p'.Idle ∧ p'.maxTopicLength = p₀.maxTopicLength := by
  rw [preparePayloadHandling, if_neg hne, ServerPacket.events]
  obtain ⟨k', hk'⟩ : ∃ k', k' = { k with payloadLength := m.payload.length } := ⟨_, rfl⟩
  obtain ⟨q, hq⟩ : ∃ q : Parser, q = { p.set (.publish k') with bufferState := .payload } :=
    ⟨_, rfl⟩
  have hread : k'.payloadBytesRead = 0 := by rw [hk', h.payloadBytesRead]
  have hlen : k'.payloadLength = m.payload.length := by rw [hk']
  have hignore : k'.ignore = k.ignore := by rw [hk']
  have hturn : ∀ data, q.turn data = q.publishPayload k' data := by
    intro data
    rw [turn, hq]
    rfl
  have htake : Takes turn (2 ^ 32) q m.payload
      (if k'.ignore then
        { q.set (.publish { k' with payloadBytesRead := k'.payloadLength }) with
          bufferState := .none }
      else q.finish)
      (if k'.ignore then []
      else [q.message k' m.payload k'.payloadBytesRead k'.payloadLength,
        .publish k'.packetId k'.qos]) := by
    refine .single (fun hempty => hne (List.length_eq_zero_iff.2 hempty)) fun rest hrest => ?_
    have hstep := publishPayload_step q k' (m.payload ++ rest) (by omega)
    rw [← hturn] at hstep
    generalize q.turn (m.payload ++ rest) = r at hstep ⊢
    cases hstep with
    | setsBack hback => omega
    | goesOn hlt _ _ => rw [List.length_append] at hlt; omega
    | @ends n p' es rest' hsum hle hrest' hes hp =>
      obtain rfl : n = m.payload.length := by omega
      rw [List.take_left] at hes
      rw [List.drop_left] at hrest'
      rw [hes, hp, hrest']
  rw [hignore, hread, hlen] at htake
  rw [← hk', ← hq]
  by_cases hig : k.ignore = true
  · have hnot : ¬ m.topic.length ≤ p₀.maxTopicLength := by simp [h.length_le_iff, hig]
    rw [if_pos hig, if_pos hig] at htake
    rw [if_neg hnot]
    refine ⟨_, [], htake, rfl, ?_⟩
    rw [hq, hk']
    exact ⟨h.idle hbuf rfl rfl, h.maxTopicLength⟩
  · have hig' : k.ignore = false := by simpa using hig
    have hev := h.message_eq hig' (q := q) (by rw [hq]; rfl) hk'
    rw [if_neg hig, if_neg hig, hev, hk', h.packetId, h.qos] at htake
    rw [if_pos (h.length_le_iff.2 hig')]
    refine ⟨_, _, htake, rfl, ?_⟩
    rw [hq]
    refine ⟨⟨rfl, h.remainingLengthBuffer.trans hbuf, ?_⟩, h.maxTopicLength⟩
    exact h.consistent.keep rfl rfl rfl (by simp)

end Payload

/-- **A publish packet.** -/
theorem takes_publish (hp : p.Idle) (hfits : m.Fits p.maxTopicLength) :
    ∃ p', Takes turn (2 ^ 32) p m.bytes p' ((ServerPacket.publish m).events p.maxTopicLength) ∧
      p'.Idle ∧ p'.maxTopicLength = p.maxTopicLength := by
  have hlt : m.remainingLength < 2 ^ 28 := m.remainingLength_lt
  have hpos : 0 < m.remainingLength := by
    rw [Message.remainingLength, Message.headerLength]
    omega
  obtain ⟨p₀, htake, hs, hcur, hl, hbuf, hc, hmax⟩ :=
    takes_fixedHeader (n := 2 ^ 32) hp (new?_firstByte m) hlt hpos
  obtain ⟨p₁, k, hread, hheader⟩ := takes_variableHeader (n := 2 ^ 32) hs hcur hc hl (hmax ▸ hfits)
  by_cases hnil : m.payload.length = 0
  · obtain ⟨hes, hidle, hmax'⟩ := hread.nothing hbuf hnil
    refine ⟨_, ?_, hidle, hmax'.trans hmax⟩
    have hbytes : m.bytes = m.firstByte :: Varint.encode m.remainingLength ++ m.variableHeader := by
      rw [Message.bytes, List.length_eq_zero_iff.1 hnil, List.append_nil]
      rfl
    rw [← hmax, ← hes, hbytes]
    exact htake.trans hheader
  · obtain ⟨p', es, hpayload, hes, hidle, hmax'⟩ := hread.payload hbuf hnil
    refine ⟨p', ?_, hidle, hmax'.trans hmax⟩
    rw [← hmax, ← hes]
    exact htake.trans (hheader.trans hpayload)

theorem takes_packet {packet : ServerPacket} (hp : p.Idle) (h : packet.Fits p.maxTopicLength) :
    ∃ p', Takes turn (2 ^ 32) p packet.bytes p' (packet.events p.maxTopicLength) ∧ p'.Idle ∧
      p'.maxTopicLength = p.maxTopicLength := by
  cases packet with
  | connAck sessionPresent code => exact takes_connAck hp.cleared
  | pingResp => exact takes_pingResp hp
  | subAck i status => exact takes_subAck hp
  | ack type i => exact takes_ack hp
  | publish m => exact takes_publish hp h

/-- One packet after the other. -/
theorem takes_stream {packets : List ServerPacket} (hp : p.Idle)
    (h : ∀ x ∈ packets, x.Fits p.maxTopicLength) :
    ∃ p', Takes turn (2 ^ 32) p (packets.flatMap ServerPacket.bytes) p'
      (packets.flatMap (ServerPacket.events p.maxTopicLength)) ∧ p'.Idle := by
  induction packets generalizing p with
  | nil => exact ⟨p, .nil, hp⟩
  | cons x packets ih =>
    obtain ⟨p₁, htake, hidle, hmax⟩ := takes_packet hp (h x List.mem_cons_self)
    obtain ⟨p', hrest, hidle'⟩ := ih hidle fun y hy => hmax ▸ h y (List.mem_cons_of_mem x hy)
    rw [hmax] at hrest
    exact ⟨p', htake.trans hrest, hidle'⟩

theorem start_idle (maxTopicLength : ℕ) : (start maxTopicLength).Idle :=
  ⟨rfl, rfl, start_consistent maxTopicLength⟩

/-- The packets arrive in these chunks. -/
structure Arrives (p : Parser) (packets : List ServerPacket) (chunks : List (List UInt8)) :
    Prop where
  /-- The parser is between two packets, or these are all the packets of a connection. -/
  starts : p.Idle ∨ p.Cleared ∧ ∃ sessionPresent code rest,
    packets = .connAck sessionPresent code :: rest
  fits : ∀ x ∈ packets, x.Fits p.maxTopicLength
  ne_nil : ∀ c ∈ chunks, c ≠ []
  flatten_eq : chunks.flatten = packets.flatMap ServerPacket.bytes
  length_lt : p.bytesRead + chunks.flatten.length < 2 ^ 32

theorem Arrives.takes {packets : List ServerPacket} {chunks : List (List UInt8)}
    (h : Arrives p packets chunks) :
    ∃ p', Takes turn (2 ^ 32) p (packets.flatMap ServerPacket.bytes) p'
      (packets.flatMap (ServerPacket.events p.maxTopicLength)) ∧ p'.Idle := by
  obtain hp | ⟨hp, sessionPresent, code, rest, rfl⟩ := h.starts
  · exact takes_stream hp h.fits
  · obtain ⟨p₁, hfirst, hidle, hmax⟩ := takes_connAck hp
    obtain ⟨p', hrest, hidle'⟩ := takes_stream hidle fun x hx =>
      hmax ▸ h.fits x (List.mem_cons_of_mem _ hx)
    rw [hmax] at hrest
    exact ⟨p', hfirst.trans hrest, hidle'⟩

theorem Arrives.consistent {packets : List ServerPacket} {chunks : List (List UInt8)}
    (h : Arrives p packets chunks) : p.Consistent :=
  h.starts.elim Idle.consistent fun hp => hp.1.consistent

theorem Arrives.onChunks {packets : List ServerPacket} {chunks : List (List UInt8)}
    (h : Arrives p packets chunks) :
    ∃ p' es, p.onChunks chunks = .ok (p', es) ∧ p'.Idle ∧
      es.flatMap ClientEvent.divide =
        (packets.flatMap (ServerPacket.events p.maxTopicLength)).flatMap ClientEvent.divide := by
  obtain ⟨p', htake, hidle⟩ := h.takes
  have hlen := h.length_lt
  rw [← h.flatten_eq] at htake
  obtain ⟨es, hes, hnorm⟩ :=
    splits.calls_of_takes turn_bounded htake h.ne_nil (by omega) ⟨h.consistent, hlen⟩
  exact ⟨p', es, hes, hidle, hnorm⟩

/-- **What the server sends is what the client is told**: any packets, one after the other, and
wherever TCP cuts them, up to the parts of the payloads. -/
theorem onChunks_stream {packets : List ServerPacket} {chunks : List (List UInt8)} (hp : p.Idle)
    (hfits : ∀ x ∈ packets, x.Fits p.maxTopicLength) (hne : ∀ c ∈ chunks, c ≠ [])
    (hchunks : chunks.flatten = packets.flatMap ServerPacket.bytes)
    (hlen : p.bytesRead + chunks.flatten.length < 2 ^ 32) :
    ∃ p' es, p.onChunks chunks = .ok (p', es) ∧ p'.Idle ∧
      es.flatMap ClientEvent.divide =
        (packets.flatMap (ServerPacket.events p.maxTopicLength)).flatMap ClientEvent.divide :=
  Arrives.onChunks ⟨.inl hp, hfits, hne, hchunks, hlen⟩

/-- The message `"hi"` on the topic `"a"`. -/
def hi : Message where
  dup := false
  qos := 1
  retain := false
  topic := [97]
  packetId := 5
  payload := [104, 105]
  qos_le := by decide
  topic_ne_nil := by decide
  topic_length_lt := by decide
  zero_notMem_topic := by decide
  remainingLength_lt := by decide

theorem bytes_hi : hi.bytes = [0x32, 7, 0, 1, 97, 0, 5, 104, 105] := by
  rw [Message.bytes, Varint.encode_of_lt (by decide)]
  rfl

theorem onChunks_stream_hi : ∃ p' es,
    (start 128).onChunks [[0x20, 2], [0, 0, 0x32, 7, 0, 1, 97, 0, 5, 104], [105]] = .ok (p', es) ∧
      p'.Idle ∧ es.flatMap ClientEvent.divide =
        ([.connAck false 0, .publish hi].flatMap (ServerPacket.events 128)).flatMap
          ClientEvent.divide :=
  onChunks_stream (start_idle 128) (by simp [ServerPacket.Fits]; decide) (by decide)
    (by simp [ServerPacket.bytes, bytes_hi]) (by decide)

end Parser

end AsyncMqtt

end MqttServerTest
