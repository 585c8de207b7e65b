import MqttServerTest.Client.Wire

/-!
# Headers that the parser can not read

`PublishPacket` counts the bytes of the variable header in 8 bits.  When the header is longer than
256 bytes the count starts over, and the parser takes bytes of the topic for a new topic length.  It
has then read 256 bytes for nothing, so it is still waiting when the packet has ended, and reads on
in the packets behind it.

When nothing follows the packet id of a message, its last byte completes the message; the client
frees the packet, and `parseVariableHeader` then advances the count in it.

* `Parser.onData_message_iff` : which messages are read back.
-/

namespace MqttServerTest

namespace AsyncMqtt

open Chunked

namespace Parser

variable {p p' : Parser} {k : PublishPacket} {b : UInt8} {m : Message} {n : ℕ}

/-- The header goes on, at the next position. -/
structure Advances (p : Parser) (k : PublishPacket) (p' : Parser) : Prop where
  bufferState : p'.bufferState = p.bufferState
  remainingLength : p'.remainingLength = p.remainingLength
  packet : ∃ k', p'.currentParsedPacket = some (.publish k') ∧
    k'.bytePosition = (k.bytePosition + 1) % 2 ^ 8 ∧ k'.payloadBytesRead = k.payloadBytesRead

/-- A byte of the header advances the count, or begins the payload. -/
theorem publishHeaderByte_cases {r : Parser × List ClientEvent}
    (h : p.publishHeaderByte k b = .ok r) : Advances p k r.1 ∧ r.2 = [] ∨
      ∃ (q : Parser) (k' : PublishPacket), k'.payloadBytesRead = k.payloadBytesRead ∧
        r = q.preparePayloadHandling k'
          ((p.remainingLength + 2 ^ 32 - (k.bytePosition + 1)) % 2 ^ 32) := by
  have hstore : ∀ {i c q}, p.storeTopic i c = .ok q → q.bufferState = p.bufferState ∧
      q.remainingLength = p.remainingLength := by
    intro i c q hq
    obtain ⟨-, rfl⟩ := storeTopic_ok hq
    exact ⟨rfl, rfl⟩
  rw [publishHeaderByte] at h
  generalize hl : (p.remainingLength + 2 ^ 32 - (k.bytePosition + 1)) % 2 ^ 32 = l at h ⊢
  simp only at h
  split_ifs at h with h₀ h₁ hlong htopic hignore hlast hlast hid hfreed
  · cases h
    exact .inl ⟨⟨rfl, rfl, _, rfl, rfl, rfl⟩, rfl⟩
  · cases h
    exact .inl ⟨⟨rfl, rfl, _, rfl, rfl, rfl⟩, rfl⟩
  · cases hs : p.storeTopic (uint16 k.topicLengthMsb b) 0 with
    | error e => rw [hs] at h; cases h
    | ok q =>
      rw [hs] at h
      cases h
      exact .inl ⟨⟨(hstore hs).1, (hstore hs).2, _, rfl, rfl, rfl⟩, rfl⟩
  · cases h
    exact .inr ⟨_, _, rfl, rfl⟩
  · cases h
    exact .inl ⟨⟨rfl, rfl, _, rfl, rfl, rfl⟩, rfl⟩
  · cases hs : p.storeTopic (k.bytePosition - 2) b with
    | error e => rw [hs] at h; cases h
    | ok q =>
      rw [hs] at h
      cases h
      exact .inr ⟨_, _, rfl, rfl⟩
  · cases hs : p.storeTopic (k.bytePosition - 2) b with
    | error e => rw [hs] at h; cases h
    | ok q =>
      rw [hs] at h
      cases h
      exact .inl ⟨⟨(hstore hs).1, (hstore hs).2, _, rfl, rfl, rfl⟩, rfl⟩
  · cases h
    exact .inl ⟨⟨rfl, rfl, _, rfl, rfl, rfl⟩, rfl⟩
  · cases h
    exact .inr ⟨p, { k with
      packetId := uint16 k.packetIdMsb b, bytePosition := (k.bytePosition + 1) % 2 ^ 8 }, rfl, rfl⟩

/-- **A packet that is waited for**: if fewer bytes come than the header and the payload still need,
the parser does not finish. -/
theorem returns_waiting {data : List UInt8} (hs : p.bufferState = .variableHeader)
    (hk : p.currentParsedPacket = some (.publish k)) (hc : p.Consistent)
    (hread : k.payloadBytesRead = 0) (hrl : p.remainingLength < 2 ^ 32)
    (hlen : data.length + k.bytePosition < p.remainingLength) (hne : data ≠ []) :
    ∃ p' es, Returns turn p data (.ok (p', es)) ∧ p'.bufferState ≠ .none := by
  induction data generalizing p k with
  | nil => exact absurd rfl hne
  | cons b data ih =>
    rw [List.length_cons] at hlen
    obtain ⟨r, hr, hcr, -⟩ :=
      (publishHeaderByte_spec hc (hc.topicLength k hk) b).resolve_left fun hfreed => by omega
    have hturn : ∀ rest, p.turn (b :: rest) = .ok (r.1, r.2, rest) := by
      intro rest
      rw [turn_variableHeader hs hk (by simp)]
      exact congrArg (Except.map fun r => (r.1, r.2, rest)) hr
    rcases publishHeaderByte_cases hr with ⟨hadv, hes⟩ | ⟨q, k', hread', hq⟩
    · obtain ⟨k', hk', hpos, hread'⟩ := hadv.packet
      have hs' : r.1.bufferState = .variableHeader := hadv.bufferState.trans hs
      by_cases hnil : data = []
      · subst hnil
        exact ⟨r.1, r.2, .last (hturn []), by rw [hs']; simp⟩
      · have hle : k'.bytePosition ≤ k.bytePosition + 1 := by rw [hpos]; exact Nat.mod_le _ _
        obtain ⟨p', es, hret, hstate⟩ := ih hs' hk' hcr (hread'.trans hread)
          (by rw [hadv.remainingLength]; exact hrl)
          (by rw [hadv.remainingLength]; omega) hnil
        exact ⟨p', _, .next (hturn data) hnil hret, hstate⟩
    · have hl : (p.remainingLength + 2 ^ 32 - (k.bytePosition + 1)) % 2 ^ 32 =
          p.remainingLength - (k.bytePosition + 1) := by omega
      generalize hl' : p.remainingLength - (k.bytePosition + 1) = l at hl
      rw [hl, preparePayloadHandling, if_neg (by omega)] at hq
      obtain ⟨k₁, hk₁⟩ : ∃ k₁, k₁ = { k' with payloadLength := l } := ⟨_, rfl⟩
      rw [← hk₁] at hq
      have hs' : r.1.bufferState = .payload := by rw [hq]
      by_cases hnil : data = []
      · subst hnil
        exact ⟨r.1, r.2, .last (hturn []), by rw [hs']; simp⟩
      · have hturn₁ : r.1.turn data = r.1.publishPayload k₁ data := by
          rw [turn, hs', hq]
          rfl
        have hread₁ : k₁.payloadBytesRead = 0 := by rw [hk₁, hread', hread]
        have hlen₁ : k₁.payloadLength = l := by rw [hk₁]
        have hstep := publishPayload_step r.1 k₁ data (by omega)
        rw [← hturn₁] at hstep
        generalize hres : r.1.turn data = res at hstep
        cases hstep with
        | setsBack _ => omega
        | ends _ _ _ _ _ => omega
        | goesOn _ _ hp' =>
          refine ⟨_, _, .next (hturn data) hnil (.last hres), ?_⟩
          rw [hp', hq]
          simp [Parser.set]

theorem store_bufferState {i : ℕ} : (p.store k i b).bufferState = p.bufferState := by
  rw [store]
  split_ifs <;> rfl

theorem store_remainingLength {i : ℕ} : (p.store k i b).remainingLength = p.remainingLength := by
  rw [store]
  split_ifs <;> rfl

/-- The last position that the parser can count, in a header that is longer. -/
theorem publishHeaderByte_255 {done : List UInt8} (h : p.bufferState = .variableHeader)
    (hc : p.Consistent) (hdone : done.length = 253) (hlong : 2 ^ 8 < m.headerLength) (b : UInt8) :
    ∃ (q : Parser) (k : PublishPacket),
      ((p.ready m).atTopic (p.header m) done).publishHeaderByte
        { p.header m with bytePosition := 2 + done.length } b = .ok (q, []) ∧
      q.bufferState = .variableHeader ∧ q.remainingLength = p.remainingLength ∧
      q.currentParsedPacket = some (.publish k) ∧ k.bytePosition = 0 ∧ k.payloadBytesRead = 0 := by
  have hs := @atTopic_bufferState p (p.header m) m done h
  have hrl : ((p.ready m).atTopic (p.header m) done).remainingLength = p.remainingLength := by
    rw [atTopic_remainingLength, ready_remainingLength]
  have hzero : (2 + done.length + 1) % 2 ^ 8 = 0 := by omega
  rw [Message.headerLength] at hlong
  by_cases h254 : 254 ≤ m.topic.length
  · -- it is a byte of the topic, and not the last one of a header
    have hi : done.length < (p.header m).topicLength := by
      rw [header_topicLength]
      omega
    have hbuf : (p.header m).ignore = false →
        done.length < ((p.ready m).atTopic (p.header m) done).topicBuffer.length := by
      intro hig
      have hlt := header_ignore hc hig
      rw [atTopic_length fun _ => by omega]
      omega
    have hnotlast : ¬ (done.length + 1 = (p.header m).topicLength ∧ (p.header m).qos = 0) := by
      rintro ⟨heq, hqos⟩
      have hqos' : m.qos = 0 := hqos
      rw [header_topicLength] at heq
      rw [if_pos hqos'] at hlong
      omega
    rw [publishHeaderByte_topic (k := { p.header m with bytePosition := 2 + done.length }) rfl hi
      hbuf, if_neg hnotlast]
    refine ⟨_, _, rfl, ?_, ?_, rfl, hzero, rfl⟩
    · exact store_bufferState.trans hs
    · exact store_remainingLength.trans hrl
  · -- it is the first byte of the packet id
    have hqos : m.qos ≠ 0 := by
      intro hqos
      rw [if_pos hqos] at hlong
      omega
    rw [if_neg hqos] at hlong
    have hend : done.length = (p.header m).topicLength := by
      rw [header_topicLength]
      omega
    rw [publishHeaderByte]
    simp only [hzero]
    rw [if_neg (by omega), if_neg (by omega), if_neg (by omega), if_pos (by omega)]
    exact ⟨_, _, rfl, hs, hrl, rfl, rfl, rfl⟩

/-- The first 256 bytes of a longer header. -/
theorem takes_first256 (h : p.bufferState = .variableHeader)
    (hk : p.currentParsedPacket = some (.publish m.fresh)) (hc : p.Consistent)
    (hlong : 2 ^ 8 < m.headerLength) : ∃ (p' : Parser) (k : PublishPacket),
      Takes turn n p (m.variableHeader.take (2 ^ 8)) p' [] ∧ p'.bufferState = .variableHeader ∧
      p'.remainingLength = p.remainingLength ∧ p'.currentParsedPacket = some (.publish k) ∧
      k.bytePosition = 0 ∧ k.payloadBytesRead = 0 := by
  have hhead : m.headerLength = 2 + m.topic.length + m.idBytes.length := by
    rw [Message.headerLength, Message.idBytes]
    split_ifs <;> rfl
  have hlt : 253 ≤ m.topic.length := by
    rw [Message.headerLength] at hlong
    split_ifs at hlong <;> omega
  obtain ⟨b, rest, hrest⟩ : ∃ b rest, m.topic.drop 253 ++ m.idBytes = b :: rest := by
    refine List.exists_cons_of_ne_nil fun hnil => ?_
    have := congrArg List.length hnil
    rw [List.length_append, List.length_drop, List.length_nil] at this
    omega
  have hdone : (m.topic.take 253).length = 253 := by
    rw [List.length_take]
    omega
  have hbytes : m.variableHeader.take (2 ^ 8) =
      uint16Bytes (UInt16.ofNat m.topic.length) ++ (m.topic.take 253 ++ [b]) := by
    have hsplit : m.topic ++ m.idBytes = (m.topic.take 253 ++ [b]) ++ rest := by
      rw [List.append_assoc, List.singleton_append, ← hrest, ← List.append_assoc,
        List.take_append_drop]
    rw [Message.variableHeader, List.append_assoc, hsplit, ← List.append_assoc]
    refine List.take_left' ?_
    rw [List.length_append, List.length_append, hdone]
    rfl
  obtain ⟨q, k, hstep, hs, hrl, hcur, hpos, hread⟩ := publishHeaderByte_255 h hc hdone hlong b
  have htopic := @takes_topic _ (p.header m) n [] (m.topic.take 253)
    ((ready_bufferState (m := m)).trans h) (header_ignore hc)
    (by rw [List.nil_append, header_topicLength]; omega)
    (fun hqos => by
      have hqos' : m.qos = 0 := hqos
      rw [Message.headerLength, if_pos hqos'] at hlong
      rw [List.nil_append, header_topicLength]
      omega) (by rw [List.nil_append]; omega)
  have hbyte := takes_byte (n := n) (turn_variableHeader (atTopic_bufferState h) rfl (by simp))
    hstep
  refine ⟨q, k, ?_, hs, hrl, hcur, hpos, hread⟩
  rw [hbytes]
  exact (takes_topicLength h hk hc).trans (htopic.trans hbyte)

theorem length_variableHeader (m : Message) : m.variableHeader.length = m.headerLength := by
  rw [Message.variableHeader, Message.idBytes, Message.headerLength]
  split_ifs <;> simp [uint16Bytes] <;> omega

/-- A message with a longer header is not finished when its packet ends. -/
theorem onData_overlong (hp : p.Idle) (hlong : 2 ^ 8 < m.headerLength) :
    ∃ p' es, p.onData m.bytes = .ok (p', es) ∧ p'.bufferState ≠ .none := by
  have hlt : m.remainingLength < 2 ^ 28 := m.remainingLength_lt
  have hle : m.headerLength ≤ m.remainingLength := Nat.le_add_right _ _
  obtain ⟨p₀, hfixed, hs, hcur, hl, -, hc, -⟩ :=
    takes_fixedHeader (n := 2 ^ 32) hp (new?_firstByte m) hlt (by omega)
  obtain ⟨p₁, k, hfirst, hs₁, hl₁, hcur₁, hpos, hread⟩ :=
    takes_first256 (n := 2 ^ 32) hs hcur hc hlong
  have hlen : (m.variableHeader.take (2 ^ 8)).length = 2 ^ 8 := by
    rw [List.length_take, length_variableHeader]
    omega
  have hgood : p₀.Good ((m.variableHeader.take (2 ^ 8)).length + 0) := by
    refine ⟨hc, ?_⟩
    have hzero : p₀.bytesRead = 0 := by
      rw [bytesRead, hcur]
      rfl
    omega
  have hc₁ := (splits.good_of_takes hfirst (by omega) hgood).1
  generalize hrest : m.variableHeader.drop (2 ^ 8) ++ m.payload = rest
  have hrestlen : rest.length + 2 ^ 8 = m.remainingLength := by
    rw [← hrest, List.length_append, List.length_drop, length_variableHeader,
      Message.remainingLength]
    omega
  have hne : rest ≠ [] := by
    rintro rfl
    rw [List.length_nil] at hrestlen
    omega
  obtain ⟨p', es, hret, hstate⟩ := returns_waiting hs₁ hcur₁ hc₁ hread (by omega) (by omega) hne
  have hbytes : m.bytes = (m.firstByte :: Varint.encode m.remainingLength ++
      m.variableHeader.take (2 ^ 8)) ++ rest := by
    rw [← hrest, ← List.append_assoc, List.append_assoc _ (m.variableHeader.take _),
      List.take_append_drop, Message.bytes, List.append_assoc]
    rfl
  have hencode : (Varint.encode m.remainingLength).length ≤ 4 := Varint.length_encode_le_iff.2 hlt
  have hall := (hfixed.trans hfirst).returns_append hne (by
    simp only [List.length_append, List.length_cons, hlen]
    omega) hret
  rw [← hbytes] at hall
  exact ⟨p', _, call_eq turn_bounded hall, hstate⟩

/-- A message that ends with its packet id is freed before the parser has done with it. -/
theorem onData_freed (hp : p.Idle) (h256 : m.headerLength ≤ 2 ^ 8) (hqos : m.qos ≠ 0)
    (hnil : m.payload = []) (hle : m.topic.length ≤ p.maxTopicLength) :
    p.onData m.bytes = .error .freedPacket := by
  have hlt : m.remainingLength < 2 ^ 28 := m.remainingLength_lt
  have hhead := Message.headerLength_of_ne hqos
  obtain ⟨p₀, hfixed, hs, hcur, hl, -, hc, hmax⟩ := takes_fixedHeader (n := 2 ^ 32) hp
    (new?_firstByte m) hlt (by rw [Message.remainingLength]; omega)
  have hig : (p₀.header m).ignore = false := decide_eq_false (by rw [hmax]; omega)
  have hs' : ((p₀.ready m).atTopic (p₀.header m) m.topic).bufferState = .variableHeader :=
    atTopic_bufferState hs
  obtain ⟨k, hfirst, hsecond⟩ := publishHeaderByte_packetId header_topicLength.symm
    (by rw [header_topicLength]; omega) (payloadLength_of_ne hl hqos) m.packetId
  rw [if_pos ⟨by rw [hnil]; rfl, hig⟩] at hsecond
  have htakes := hfixed.trans ((takes_untilId hs hcur hc h256 hqos).trans
    (takes_byte (turn_variableHeader hs' rfl (by simp)) hfirst))
  have hfault : Returns turn (((p₀.ready m).atTopic (p₀.header m) m.topic).set (.publish k))
      [UInt8.ofNat (m.packetId.toNat % 256)] (.error .freedPacket) := by
    have hs₁ : (((p₀.ready m).atTopic (p₀.header m) m.topic).set (.publish k)).bufferState =
        .variableHeader := hs'
    refine .fault ((turn_variableHeader hs₁ rfl (by simp) _).trans ?_)
    exact congrArg (Except.map _) hsecond
  have hbytes : m.bytes = (m.firstByte :: Varint.encode m.remainingLength ++
      (uint16Bytes (UInt16.ofNat m.topic.length) ++ m.topic ++
        [UInt8.ofNat (m.packetId.toNat / 256)])) ++ [UInt8.ofNat (m.packetId.toNat % 256)] := by
    simp [Message.bytes, Message.variableHeader, Message.idBytes, hqos, hnil, uint16Bytes]
  have hencode : (Varint.encode m.remainingLength).length ≤ 4 := Varint.length_encode_le_iff.2 hlt
  rw [hbytes]
  refine call_eq turn_bounded (htakes.returns_append (by simp) ?_ hfault)
  simp only [List.length_append, List.length_cons, List.length_nil, uint16Bytes]
  omega

/-- A QoS 1 message of no bytes on the topic `"a"`. -/
example : (start 128).onData [0x32, 5, 0, 1, 97, 0, 5] = .error .freedPacket := by decide +kernel

/-- **Which messages are read back**: those whose header is of at most 256 bytes, and ends with the
topic, or is followed by a payload, or has too long a topic. -/
theorem onData_message_iff (m : Message) (hp : p.Idle) :
    (∃ p', p.onData m.bytes = .ok (p', (ServerPacket.publish m).events p.maxTopicLength) ∧
      p'.Idle) ↔ m.headerLength ≤ 2 ^ 8 ∧
        (m.qos = 0 ∨ m.payload ≠ [] ∨ p.maxTopicLength < m.topic.length) := by
  constructor
  · rintro ⟨p', hp', hidle⟩
    have h256 : m.headerLength ≤ 2 ^ 8 := by
      by_contra hlong
      obtain ⟨p'', es, hover, hstate⟩ := onData_overlong hp (Nat.lt_of_not_le hlong)
      rw [hp'] at hover
      cases hover
      exact hstate hidle.bufferState
    refine ⟨h256, ?_⟩
    by_contra hfreed
    simp only [not_or, not_not, Nat.not_lt] at hfreed
    rw [onData_freed hp h256 hfreed.1 hfreed.2.1 hfreed.2.2] at hp'
    cases hp'
  · intro hfits
    obtain ⟨p', htake, hidle, -⟩ := takes_publish hp hfits
    have hlt : m.remainingLength < 2 ^ 28 := m.remainingLength_lt
    have hencode : (Varint.encode m.remainingLength).length ≤ 4 :=
      Varint.length_encode_le_iff.2 hlt
    have hlen : m.bytes.length < 2 ^ 32 := by
      simp only [Message.bytes, List.length_cons, List.length_append, length_variableHeader]
      rw [Message.remainingLength] at hlt
      omega
    exact ⟨p', call_eq turn_bounded (htake.returns (List.cons_ne_nil _ _) hlen), hidle⟩

/-- A topic of 255 bytes. -/
def overlong : Message where
  dup := false
  qos := 0
  retain := false
  topic := List.replicate 255 97
  packetId := 0
  payload := []
  qos_le := by decide
  topic_ne_nil := by decide
  topic_length_lt := by decide +kernel
  zero_notMem_topic := by decide +kernel
  remainingLength_lt := by decide +kernel

theorem onData_message_iff_overlong :
    ¬ ∃ p', (start 128).onData overlong.bytes =
      .ok (p', (ServerPacket.publish overlong).events 128) ∧ p'.Idle :=
  (onData_message_iff overlong (start_idle 128)).not.2 (by decide +kernel)

end Parser

end AsyncMqtt

end MqttServerTest
