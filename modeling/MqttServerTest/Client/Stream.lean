import MqttServerTest.Client.Parser

/-!
# The parser on a stream

Where TCP cuts the stream makes no difference to the client, but for the division of a payload
into parts, and no stream makes the parser write behind its topic buffer.

* `Parser.onChunks_flatten` : the cuts change no outcome.
* `Parser.onChunks_safe` : the faults that no stream provokes.
-/

namespace MqttServerTest

namespace AsyncMqtt

open Chunked

/-- Every part of a payload is divided into its bytes. -/
def ClientEvent.divide : ClientEvent → List ClientEvent
  | .message topic payload qos dup retain index total packetId =>
    if payload = [] then [.message topic [] qos dup retain index total packetId]
    else payload.mapIdx fun i b => .message topic [b] qos dup retain (index + i) total packetId
  | e => [e]

namespace Parser

/-- How much of a payload has been read. -/
def bytesRead (p : Parser) : ℕ := match p.currentParsedPacket with
  | some (.publish k) => k.payloadBytesRead
  | _ => 0

variable {p p' : Parser} {k : PublishPacket} {b : UInt8} {es : List ClientEvent}
  {data rest : List UInt8}

/-! ### What a byte can do -/

@[simp] theorem set_currentParsedPacket {packet : ParsedPacket} :
    (p.set packet).currentParsedPacket = some packet := rfl

@[simp] theorem set_topicBuffer {packet : ParsedPacket} :
    (p.set packet).topicBuffer = p.topicBuffer := rfl

@[simp] theorem set_maxTopicLength {packet : ParsedPacket} :
    (p.set packet).maxTopicLength = p.maxTopicLength := rfl

@[simp] theorem set_remainingLengthBuffer {packet : ParsedPacket} :
    (p.set packet).remainingLengthBuffer = p.remainingLengthBuffer := rfl

@[simp] theorem finish_currentParsedPacket : p.finish.currentParsedPacket = none := rfl

@[simp] theorem finish_topicBuffer : p.finish.topicBuffer = p.topicBuffer := rfl

@[simp] theorem finish_maxTopicLength : p.finish.maxTopicLength = p.maxTopicLength := rfl

@[simp] theorem finish_remainingLengthBuffer :
    p.finish.remainingLengthBuffer = p.remainingLengthBuffer := rfl

theorem storeTopic_ok {i : ℕ} (h : p.storeTopic i b = .ok p') :
    i < p.topicBuffer.length ∧ p' = { p with topicBuffer := p.topicBuffer.set i b } := by
  rw [storeTopic] at h
  split_ifs at h with hi
  cases h
  exact ⟨hi, rfl⟩

/-- What the parser keeps of a publish packet is consistent with its buffers. -/
structure Consistent (p : Parser) : Prop where
  topicBuffer : p.topicBuffer.length = p.maxTopicLength + 1
  topicLength : ∀ k, p.currentParsedPacket = some (.publish k) → k.ignore = false →
    k.topicLength ≤ p.maxTopicLength
  /-- Only unfinished lengths are kept. -/
  remainingLengthBuffer : ∀ b ∈ p.remainingLengthBuffer, 128 ≤ b.toNat

theorem Consistent.keep (h : p.Consistent) (hb : p'.topicBuffer.length = p.topicBuffer.length)
    (hm : p'.maxTopicLength = p.maxTopicLength)
    (hl : p'.remainingLengthBuffer = p.remainingLengthBuffer)
    (hk : ∀ k, p'.currentParsedPacket = some (.publish k) → k.ignore = false →
      k.topicLength ≤ p.maxTopicLength) : p'.Consistent where
  topicBuffer := by rw [hb, hm, h.topicBuffer]
  topicLength := by rw [hm]; exact hk
  remainingLengthBuffer := by rw [hl]; exact h.remainingLengthBuffer

theorem Consistent.finish (h : p.Consistent) : p.finish.Consistent :=
  h.keep rfl rfl rfl (by simp)

theorem Consistent.set_publish (h : p.Consistent)
    (hk : k.ignore = false → k.topicLength ≤ p.maxTopicLength) :
    (p.set (.publish k)).Consistent := by
  refine h.keep rfl rfl rfl fun k' hk' => ?_
  cases hk'
  exact hk

theorem Consistent.preparePayloadHandling (h : p.Consistent) {n : ℕ}
    (hk : k.ignore = false → k.topicLength ≤ p.maxTopicLength) :
    (p.preparePayloadHandling k n).1.Consistent := by
  rw [Parser.preparePayloadHandling]
  split_ifs with hn hig
  · refine h.keep rfl rfl rfl fun k' hk' => ?_
    cases hk'
    exact hk
  · exact h.finish
  · refine h.keep rfl rfl rfl fun k' hk' => ?_
    cases hk'
    exact hk

theorem Consistent.storeTopic {i : ℕ} (h : p.Consistent) (hs : p.storeTopic i b = .ok p') :
    p'.Consistent := by
  obtain ⟨-, rfl⟩ := storeTopic_ok hs
  exact h.keep (by simp) rfl rfl h.topicLength

/-- The callbacks free the packet if there is no payload. -/
theorem preparePayloadHandling_currentParsedPacket {n : ℕ} :
    (p.preparePayloadHandling k n).1.currentParsedPacket = none ↔ n = 0 ∧ k.ignore = false := by
  rw [preparePayloadHandling]
  split_ifs with hn hig
  · simpa using fun _ => hig
  · simpa [hn] using hig
  · simp [hn]

theorem bytesRead_finish : p.finish.bytesRead = 0 := rfl

theorem bytesRead_set_publish : (p.set (.publish k)).bytesRead = k.payloadBytesRead := rfl

theorem bytesRead_preparePayloadHandling {n : ℕ} :
    (p.preparePayloadHandling k n).1.bytesRead ≤ k.payloadBytesRead := by
  rw [preparePayloadHandling]
  split_ifs
  · exact le_rfl
  · exact Nat.zero_le _
  · exact le_rfl

theorem uint16_eq (msb lsb : UInt8) : uint16 msb lsb = 256 * msb.toNat + lsb.toNat := by
  have h := Nat.two_pow_add_eq_or_of_lt lsb.toNat_lt msb.toNat
  rw [uint16, Nat.shiftLeft_eq, Nat.mul_comm]
  exact h.symm

theorem shiftRight_7_eq_zero_iff (b : UInt8) : b >>> 7 = 0 ↔ b.toNat < 128 := by
  rw [← UInt8.toNat_inj, UInt8.toNat_shiftRight]
  simp only [UInt8.reduceToNat, Nat.reduceMod, Nat.shiftRight_eq_div_pow]
  omega

theorem new?_publish {type flags : ℕ} (h : ParsedPacket.new? type flags = some (.publish k)) :
    k = .new flags := by
  unfold ParsedPacket.new? at h
  split at h <;> cases h
  rfl

theorem headerByte_currentParsedPacket : (p.headerByte b).1.currentParsedPacket =
    (ParsedPacket.new? (b >>> 4).toNat b.toNat).or p.currentParsedPacket := rfl

theorem headerByte_spec (h : p.Consistent) (b : UInt8) :
    (p.headerByte b).1.Consistent ∧ (p.headerByte b).1.bytesRead ≤ p.bytesRead := by
  have hcur := headerByte_currentParsedPacket (p := p) (b := b)
  cases hn : ParsedPacket.new? (b >>> 4).toNat b.toNat with
  | none =>
    rw [hn, Option.none_or] at hcur
    refine ⟨h.keep rfl rfl rfl fun k hk => h.topicLength k (hcur ▸ hk), ?_⟩
    rw [bytesRead, hcur]
    exact le_rfl
  | some packet =>
    rw [hn, Option.some_or] at hcur
    have hnew : ∀ k, packet = .publish k → k = .new b.toNat :=
      fun k hk => new?_publish (hn.trans (congrArg some hk))
    refine ⟨h.keep rfl rfl rfl fun k hk _ => ?_, ?_⟩
    · rw [hnew k (Option.some.inj (hcur.symm.trans hk))]
      exact Nat.zero_le _
    · rw [bytesRead, hcur]
      cases packet with
      | publish k =>
        rw [hnew k rfl]
        exact Nat.zero_le _
      | _ => exact Nat.zero_le _

/-- A byte has been read, or has led to one of two faults. -/
inductive ByteRead (p : Parser) : Except Fault (Parser × List ClientEvent) → Prop
  /-- It is the fifth one of a length. -/
  | remainingLengthBuffer : ByteRead p (.error .remainingLengthBuffer)
  /-- It is the last one of a message without a payload. -/
  | freedPacket : ByteRead p (.error .freedPacket)
  | ok {r : Parser × List ClientEvent} (hc : r.1.Consistent) (hread : r.1.bytesRead ≤ p.bytesRead) :
      ByteRead p (.ok r)

/-- A byte of the length: it ends the length, or is kept, or is the fifth one. -/
theorem lengthByte_spec (h : p.Consistent) (b : UInt8) : p.ByteRead (p.lengthByte b) := by
  rw [lengthByte]
  by_cases hlen : 4 ≤ p.remainingLengthBuffer.length
  · rw [if_pos hlen]
    exact .remainingLengthBuffer
  · rw [if_neg hlen]
    by_cases hb : b.toNat < 128
    · obtain ⟨n, hn, -⟩ := Varint.decode_snoc h.remainingLengthBuffer hb
      rw [if_pos ((shiftRight_7_eq_zero_iff b).2 hb), decodeRemainingLength_eq, hn]
      simp only [Option.map_some]
      split_ifs
      · exact .ok ⟨h.topicBuffer, h.topicLength, by simp⟩ le_rfl
      · exact .ok ⟨h.topicBuffer, by simp, by simp⟩ (Nat.zero_le _)
    · rw [if_neg (by rwa [shiftRight_7_eq_zero_iff])]
      refine .ok ⟨h.topicBuffer, h.topicLength, fun c hc => ?_⟩ le_rfl
      rcases List.mem_append.1 hc with hc | hc
      · exact h.remainingLengthBuffer c hc
      · rw [List.mem_singleton.1 hc]
        omega

/-- A byte of the variable header of a publish packet: the topic fits the buffer, and the packet is
freed too early only if no payload follows. -/
theorem publishHeaderByte_spec (h : p.Consistent)
    (hk : k.ignore = false → k.topicLength ≤ p.maxTopicLength) (b : UInt8) :
    p.publishHeaderByte k b = .error .freedPacket ∧
        (p.remainingLength + 2 ^ 32 - (k.bytePosition + 1)) % 2 ^ 32 = 0 ∨
      ∃ r, p.publishHeaderByte k b = .ok r ∧ r.1.Consistent ∧
        r.1.bytesRead ≤ k.payloadBytesRead := by
  have hstore : ∀ i c, i ≤ p.maxTopicLength → ∃ p', p.storeTopic i c = .ok p' ∧ p'.Consistent ∧
      p'.maxTopicLength = p.maxTopicLength := by
    intro i c hi
    have hlt : i < p.topicBuffer.length := by
      rw [h.topicBuffer]
      omega
    refine ⟨_, if_pos hlt, h.storeTopic (if_pos hlt), rfl⟩
  rw [publishHeaderByte]
  simp only
  split_ifs with h₀ h₁ hlong htopic hignore hlast hlast hid hfreed
  · exact .inr ⟨_, rfl, h.set_publish hk, le_rfl⟩
  · exact .inr ⟨_, rfl, h.set_publish (by simp), le_rfl⟩
  · obtain ⟨p', hp', hc, hm⟩ := hstore (uint16 k.topicLengthMsb b) 0 (by omega)
    rw [hp']
    exact .inr ⟨_, rfl, hc.set_publish fun _ => hm ▸ Nat.le_of_not_lt hlong, le_rfl⟩
  · exact .inr ⟨_, rfl, h.preparePayloadHandling hk, bytesRead_preparePayloadHandling⟩
  · exact .inr ⟨_, rfl, h.set_publish hk, le_rfl⟩
  · obtain ⟨p', hp', hc, hm⟩ := hstore (k.bytePosition - 2) b (by
      have := hk (by simpa using hignore)
      omega)
    rw [hp']
    exact .inr ⟨_, rfl, hc.preparePayloadHandling (by rwa [hm]), bytesRead_preparePayloadHandling⟩
  · obtain ⟨p', hp', hc, hm⟩ := hstore (k.bytePosition - 2) b (by
      have := hk (by simpa using hignore)
      omega)
    rw [hp']
    exact .inr ⟨_, rfl, hc.set_publish (by rwa [hm]), le_rfl⟩
  · exact .inr ⟨_, rfl, h.set_publish hk, le_rfl⟩
  · exact .inl ⟨rfl, (preparePayloadHandling_currentParsedPacket.1 hfreed).1⟩
  · exact .inr ⟨_, rfl, h.preparePayloadHandling hk, bytesRead_preparePayloadHandling⟩

theorem Consistent.set (h : p.Consistent) {packet : ParsedPacket}
    (hp : ∀ k, packet ≠ .publish k) : (p.set packet).Consistent :=
  h.keep rfl rfl rfl fun k hk => absurd (Option.some.inj hk) (hp k)

theorem variableHeaderByte_spec (h : p.Consistent) {packet : ParsedPacket}
    (hp : p.currentParsedPacket = some packet) (b : UInt8) :
    p.ByteRead (p.variableHeaderByte packet b) := by
  cases packet with
  | connAck i sessionPresent =>
    simp only [variableHeaderByte]
    split_ifs
    · exact .ok (h.set (by simp)) (Nat.zero_le _)
    · exact .ok h.finish (Nat.zero_le _)
  | pingResp => exact .ok h le_rfl
  | subAck i msb packetId =>
    simp only [variableHeaderByte]
    split_ifs
    · exact .ok (h.set (by simp)) (Nat.zero_le _)
    · exact .ok (h.keep rfl rfl rfl (by simp)) (Nat.zero_le _)
  | ack type i msb =>
    simp only [variableHeaderByte]
    split_ifs
    · exact .ok (h.set (by simp)) (Nat.zero_le _)
    · exact .ok h.finish (Nat.zero_le _)
  | publish k =>
    have hread : p.bytesRead = k.payloadBytesRead := by rw [bytesRead, hp]
    rw [variableHeaderByte]
    rcases publishHeaderByte_spec h (h.topicLength k hp) b with ⟨hb, -⟩ | ⟨r, hb, hc, hle⟩
    · rw [hb]
      exact .freedPacket
    · rw [hb]
      exact .ok hc (hread ▸ hle)

/-! ### What a turn can do -/

/-- A payload is read up to its end or to that of the chunk. -/
inductive PayloadStep (p : Parser) (k : PublishPacket) (data : List UInt8) :
    Except Fault (Parser × List ClientEvent × List UInt8) → Prop
  /-- More has been read than there is. -/
  | setsBack : k.payloadLength < k.payloadBytesRead → PayloadStep p k data (.error .setsBack)
  /-- The payload ends. -/
  | ends {n : ℕ} {p' : Parser} {es : List ClientEvent} {rest : List UInt8} :
      k.payloadBytesRead + n = k.payloadLength → n ≤ data.length → rest = data.drop n →
      es = (if k.ignore then []
        else [p.message k (data.take n) k.payloadBytesRead k.payloadLength,
          .publish k.packetId k.qos]) →
      p' = (if k.ignore then
          { p.set (.publish { k with payloadBytesRead := k.payloadLength }) with
            bufferState := .none }
        else p.finish) →
      PayloadStep p k data (.ok (p', es, rest))
  /-- It goes on. -/
  | goesOn {p' : Parser} {es : List ClientEvent} :
      k.payloadBytesRead + data.length < k.payloadLength →
      es = (if k.ignore then []
        else [p.message k data k.payloadBytesRead k.payloadLength]) →
      p' = p.set (.publish { k with payloadBytesRead := k.payloadBytesRead + data.length }) →
      PayloadStep p k data (.ok (p', es, []))

theorem publishPayload_step (p : Parser) (k : PublishPacket) (data : List UInt8)
    (hlen : k.payloadBytesRead + data.length < 2 ^ 32) :
    PayloadStep p k data (p.publishPayload k data) := by
  have hmod := Nat.mod_eq_of_lt hlen
  rw [publishPayload]
  simp only [hmod]
  by_cases hcut : k.payloadLength < k.payloadBytesRead + data.length
  · by_cases hback : k.payloadLength < k.payloadBytesRead
    · rw [if_pos ⟨hcut, hback⟩]
      exact .setsBack hback
    · rw [if_neg (by simp [hback])]
      have hsum : k.payloadBytesRead + (k.payloadLength - k.payloadBytesRead) =
          k.payloadLength := by
        omega
      have hmod' : k.payloadLength % 2 ^ 32 = k.payloadLength := Nat.mod_eq_of_lt (by omega)
      simp only [gt_iff_lt, if_pos hcut, hsum, hmod', if_true]
      split_ifs with hig
      · exact .ends hsum (by omega) rfl (by simp [hig]) (by simp [hig])
      · exact .ends hsum (by omega) rfl (by simp [hig]) (by simp [hig])
  · rw [if_neg (by simp [hcut])]
    simp only [gt_iff_lt, if_neg hcut, hmod, List.take_length, List.drop_length]
    split_ifs with heq hig hig
    · exact .ends heq le_rfl (by simp) (by simp [hig]) (by simp [hig, heq])
    · exact .ends heq le_rfl (by simp) (by simp [hig]) (by simp [hig])
    · exact .goesOn (by omega) (by simp [hig]) rfl
    · exact .goesOn (by omega) (by simp [hig]) rfl

/-- The kinds of turns. -/
inductive TurnKind (p : Parser) : Prop
  /-- It reads a byte. -/
  | reads (f : UInt8 → Except Fault (Parser × List ClientEvent)) :
      (∀ data, p.turn data = readByte f data) →
      (∀ b, p.ByteRead (f b)) → TurnKind p
  /-- It does nothing. -/
  | stalls : (∀ data, p.turn data = .ok (p, [], data)) → TurnKind p
  /-- There is no packet. -/
  | nullPacket : (∀ data, p.turn data = .error .nullPacket) → TurnKind p
  /-- It reads as much of a payload as it can. -/
  | payload (k : PublishPacket) : p.bufferState = .payload →
      p.currentParsedPacket = some (.publish k) →
      (∀ data, p.turn data = p.publishPayload k data) → TurnKind p

theorem Consistent.turnKind (h : p.Consistent) : p.TurnKind := by
  cases hs : p.bufferState with
  | none =>
    have hspec := headerByte_spec h
    exact .reads (fun b => .ok (p.headerByte b)) (fun data => by rw [turn, hs])
      fun b => .ok (hspec b).1 (hspec b).2
  | remainingLength =>
    exact .reads p.lengthByte (fun data => by rw [turn, hs]) (lengthByte_spec h)
  | variableHeader =>
    cases hc : p.currentParsedPacket with
    | none => exact .nullPacket fun data => by rw [turn, hs, hc]
    | some packet =>
      by_cases hping : packet = .pingResp
      · exact .stalls fun data => by rw [turn, hs, hc, hping]
      · refine .reads (p.variableHeaderByte packet) (fun data => ?_)
          (variableHeaderByte_spec h hc)
        rw [turn, hs, hc]
        cases packet <;> first | rfl | exact absurd rfl hping
  | payload =>
    cases hc : p.currentParsedPacket with
    | none => exact .nullPacket fun data => by rw [turn, hs, hc]
    | some packet =>
      cases packet with
      | publish k => exact .payload k hs hc fun data => by rw [turn, hs, hc]
      | subAck i msb packetId =>
        exact .reads (fun status => .ok (p.finish, [.subAck packetId status]))
          (fun data => by rw [turn, hs, hc]) fun _ => .ok h.finish (Nat.zero_le _)
      | connAck _ _ | pingResp | ack _ _ _ => exact .stalls fun data => by rw [turn, hs, hc]

theorem readByte_ok {f : UInt8 → Except Fault (Parser × List ClientEvent)}
    (h : readByte f data = .ok (p', es, rest)) : ∃ b, data = b :: rest ∧ f b = .ok (p', es) := by
  cases data with
  | nil => cases h
  | cons b data =>
    simp only [readByte] at h
    cases hf : f b with
    | error e => rw [hf] at h; cases h
    | ok r => rw [hf] at h; cases h; exact ⟨b, rfl, hf⟩

theorem turnsLeft_readByte {f : UInt8 → Except Fault (Parser × List ClientEvent)}
    (h : readByte f data = .ok (p', es, rest)) : p'.turnsLeft rest < p.turnsLeft data := by
  obtain ⟨b, rfl, -⟩ := readByte_ok h
  simp only [turnsLeft, List.length_cons]
  split_ifs <;> omega

/-- If the chunk is not used up, the payload has ended. -/
theorem publishPayload_left (h : p.publishPayload k data = .ok (p', es, rest)) (hne : rest ≠ []) :
    rest.length ≤ data.length ∧ p'.bufferState = .none := by
  rw [publishPayload] at h
  simp only at h
  by_cases hcut : k.payloadLength < (k.payloadBytesRead + data.length) % 2 ^ 32
  · have hlt : (k.payloadBytesRead + data.length) % 2 ^ 32 < 2 ^ 32 := Nat.mod_lt _ (by omega)
    have hmod : k.payloadLength % 2 ^ 32 = k.payloadLength := Nat.mod_eq_of_lt (by omega)
    by_cases hback : k.payloadLength < k.payloadBytesRead
    · rw [if_pos ⟨hcut, hback⟩] at h
      cases h
    · have hsum : k.payloadBytesRead + (k.payloadLength - k.payloadBytesRead) =
          k.payloadLength := by
        omega
      rw [if_neg (by simp [hback])] at h
      simp only [gt_iff_lt, if_pos hcut, hsum, hmod, if_true] at h
      split_ifs at h <;> cases h <;> exact ⟨by simp, rfl⟩
  · simp only [gt_iff_lt, if_neg hcut, List.drop_length] at h
    split_ifs at h <;> cases h <;> exact absurd rfl hne

theorem turn_bounded : Bounded turn turnsLeft := by
  intro p data p' es rest h hne
  rw [turn] at h
  split at h
  · exact .inl (turnsLeft_readByte h)
  · exact .inl (turnsLeft_readByte h)
  · split at h
    · cases h
    · cases h
      exact .inr ⟨rfl, rfl, rfl⟩
    · exact .inl (turnsLeft_readByte h)
  · rename_i hs
    split at h
    · cases h
    · obtain ⟨hle, hstate⟩ := publishPayload_left h hne
      refine .inl ?_
      simp only [turnsLeft, hs, hstate, if_true, reduceCtorEq, if_false]
      omega
    · exact .inl (turnsLeft_readByte h)
    · cases h
      exact .inr ⟨rfl, rfl, rfl⟩

/-! ### Cuts -/

theorem divide_append (topic : List UInt8) (qos : ℕ) (dup retain : Bool) (index total id : ℕ)
    {a b : List UInt8} (ha : a ≠ []) (hb : b ≠ []) :
    (ClientEvent.message topic (a ++ b) qos dup retain index total id).divide =
      (ClientEvent.message topic a qos dup retain index total id).divide ++
        (ClientEvent.message topic b qos dup retain (index + a.length) total id).divide := by
  simp only [ClientEvent.divide, List.append_eq_nil_iff, ha, hb, and_false, if_false,
    List.mapIdx_append]
  refine congrArg _ (congrArg (fun f => List.mapIdx f b) ?_)
  funext i c
  rw [Nat.add_assoc, Nat.add_comm a.length]

/-- The parser is consistent, and reads at most `n` more bytes, fewer than 32 bits can count. -/
def Good (p : Parser) (n : ℕ) : Prop := p.Consistent ∧ p.bytesRead + n < 2 ^ 32

theorem Good.bytesRead_eq {n : ℕ} (h : p.Good n)
    (hk : p.currentParsedPacket = some (.publish k)) : k.payloadBytesRead + n < 2 ^ 32 := by
  have := h.2
  rwa [bytesRead, hk] at this

theorem split_of_reads {f : UInt8 → Except Fault (Parser × List ClientEvent)}
    (hf : ∀ data, p.turn data = readByte f data) {a b : List UInt8} (ha : a ≠ []) :
    Split turn ClientEvent.divide p a b := by
  obtain ⟨x, a, rfl⟩ := List.exists_cons_of_ne_nil ha
  cases hx : f x with
  | error e =>
    refine .fault (e := e) ?_ ?_ <;> rw [hf] <;> simp [readByte, hx, Except.map]
  | ok r =>
    have hturn : ∀ d, p.turn (x :: d) = .ok (r.1, r.2, d) := fun d => by
      rw [hf]
      simp [readByte, hx, Except.map]
    by_cases hnil : a = []
    · subst hnil
      exact .at_cut (hturn []) (hturn b)
    · exact .before (hturn a) hnil (hturn (a ++ b))

/-- A payload that is cut is the payload, in two parts. -/
theorem split_publishPayload {a b : List UInt8} (ha : a ≠ []) (hb : b ≠ [])
    (hs : p.bufferState = .payload) (hturn : ∀ data, p.turn data = p.publishPayload k data)
    (hlen : k.payloadBytesRead + (a ++ b).length < 2 ^ 32) :
    Split turn ClientEvent.divide p a b := by
  rw [List.length_append] at hlen
  have hwhole := publishPayload_step p k (a ++ b) (by rwa [List.length_append])
  have hfirst := publishPayload_step p k a (by omega)
  rw [← hturn] at hwhole hfirst
  generalize hra : p.turn a = ra at hfirst
  generalize hrw : p.turn (a ++ b) = rw at hwhole
  cases hfirst with
  | setsBack hback =>
    cases hwhole with
    | setsBack _ => exact .fault hra hrw
    | ends _ _ _ _ _ => omega
    | goesOn _ _ _ => omega
  | @ends n p₁ es₁ rest₁ hsum hle hrest hes hp =>
    cases hwhole with
    | setsBack _ => omega
    | goesOn hlt _ _ => rw [List.length_append] at hlt; omega
    | @ends m p₂ es₂ rest₂ hsum' hle' hrest' hes' hp' =>
      obtain rfl : m = n := by omega
      rw [List.take_append_of_le_length hle, ← hes] at hes'
      rw [List.drop_append_of_le_length hle, ← hrest] at hrest'
      rw [← hp] at hp'
      rw [hes', hrest', hp'] at hrw
      by_cases hnil : rest₁ = []
      · rw [hnil] at hra hrw
        exact .at_cut hra hrw
      · exact .before hra hnil hrw
  | @goesOn p₁ es₁ hlt hes hp =>
    -- the second part is read into the packet that the first one leaves
    obtain ⟨k₁, hk₁⟩ : ∃ k₁ : PublishPacket,
      k₁ = { k with payloadBytesRead := k.payloadBytesRead + a.length } := ⟨_, rfl⟩
    have hread₁ : k₁.payloadBytesRead = k.payloadBytesRead + a.length := by rw [hk₁]
    have hlen₁ : k₁.payloadLength = k.payloadLength := by rw [hk₁]
    have hignore₁ : k₁.ignore = k.ignore := by rw [hk₁]
    have hid₁ : k₁.packetId = k.packetId ∧ k₁.qos = k.qos := by rw [hk₁]; exact ⟨rfl, rfl⟩
    rw [← hk₁] at hp
    have hsecond := publishPayload_step p₁ k₁ b (by omega)
    have hturn₁ : p₁.turn b = p₁.publishPayload k₁ b := by
      rw [turn, hp]
      simp only [Parser.set, hs]
    rw [← hturn₁] at hsecond
    generalize hrb : p₁.turn b = rb at hsecond
    have hnorm : ∀ c, c ≠ [] → (p.message k (a ++ c) k.payloadBytesRead k.payloadLength).divide =
        (p.message k a k.payloadBytesRead k.payloadLength).divide ++
          (p₁.message k₁ c k₁.payloadBytesRead k₁.payloadLength).divide := by
      intro c hc
      rw [hp, hk₁]
      exact divide_append _ _ _ _ _ _ _ ha hc
    cases hsecond with
    | setsBack _ => omega
    | @ends n p₂ es₂ rest₂ hsum hle hrest hes₂ hp₂ =>
      cases hwhole with
      | setsBack _ => omega
      | goesOn hlt' _ _ => rw [List.length_append] at hlt'; omega
      | @ends m p₃ es₃ rest₃ hsum' hle' hrest' hes₃ hp₃ =>
        obtain rfl : m = a.length + n := by omega
        have hn : b.take n ≠ [] := by
          simp only [ne_eq, List.take_eq_nil_iff, hb, or_false]
          omega
        rw [List.drop_append, Nat.add_sub_cancel_left, List.drop_eq_nil_of_le (by omega),
          List.nil_append, ← hrest] at hrest'
        rw [List.take_append, Nat.add_sub_cancel_left, List.take_of_length_le (by omega)] at hes₃
        have hp₃₂ : p₃ = p₂ := by
          rw [hp₃, hp₂, hp, hk₁]
          rfl
        rw [hrest', hp₃₂] at hrw
        refine .within hra hrb hrw ?_
        rw [hes, hes₂, hes₃, hignore₁, hid₁.1, hid₁.2]
        split_ifs
        · rfl
        · simp [hnorm _ hn]
    | @goesOn p₂ es₂ hlt₂ hes₂ hp₂ =>
      cases hwhole with
      | setsBack _ => omega
      | ends hsum' hle' _ _ _ => rw [List.length_append] at hle'; omega
      | @goesOn p₃ es₃ hlt' hes₃ hp₃ =>
        have hp₃₂ : p₃ = p₂ := by
          rw [hp₃, hp₂, hp, hread₁, hk₁, List.length_append, ← Nat.add_assoc]
          rfl
        rw [hp₃₂] at hrw
        refine .within hra hrb hrw ?_
        rw [hes, hes₂, hes₃, hignore₁]
        split_ifs
        · rfl
        · simp [hnorm _ hb]

theorem splits : Splits turn ClientEvent.divide Good where
  split {p a b} ha hb hgood := by
    cases hgood.1.turnKind with
    | reads f hf _ => exact split_of_reads hf ha
    | stalls hturn => exact .before (hturn a) ha (hturn (a ++ b))
    | nullPacket hturn => exact .fault (hturn a) (hturn (a ++ b))
    | payload k hs hk hturn =>
      exact split_publishPayload ha hb hs hturn (hgood.bytesRead_eq hk)
  good {p data p' es rest n} hgood h := by
    cases hgood.1.turnKind with
    | reads f hf hspec =>
      rw [hf] at h
      obtain ⟨b, rfl, hb⟩ := readByte_ok h
      have hlt := hgood.2
      rw [List.length_cons] at hlt
      have hspec := hspec b
      rw [hb] at hspec
      cases hspec with
      | ok hc hread =>
        have hle : p'.bytesRead ≤ p.bytesRead := hread
        exact ⟨hc, by omega⟩
    | stalls hturn =>
      rw [hturn] at h
      cases h
      exact hgood
    | nullPacket hturn =>
      rw [hturn] at h
      cases h
    | payload k hs hk hturn =>
      have hlen := Good.bytesRead_eq hgood hk
      have hstep := publishPayload_step p k data (by omega)
      rw [← hturn, h] at hstep
      have hset : ∀ m, (p.set (.publish { k with payloadBytesRead := m })).Consistent :=
        fun m => hgood.1.set_publish (hgood.1.topicLength k hk)
      cases hstep with
      | ends hsum hle hrest _ hp =>
        rw [hrest, List.length_drop]
        split_ifs at hp with hig
        · have hbytes : p'.bytesRead = k.payloadLength := by rw [hp]; rfl
          rw [Good, hbytes, hp]
          exact ⟨(hset _).keep rfl rfl rfl (hset _).topicLength, by omega⟩
        · rw [hp]
          exact ⟨hgood.1.finish, by rw [bytesRead_finish]; omega⟩
      | goesOn hlt _ hp =>
        rw [hp]
        exact ⟨hset _, by rw [bytesRead_set_publish]; simp only [List.length_nil]; omega⟩
  mono hgood := ⟨hgood.1, by have := hgood.2; omega⟩

theorem start_consistent (maxTopicLength : ℕ) : (start maxTopicLength).Consistent :=
  ⟨by simp [start], by simp [start], by simp [start]⟩

/-- **The cuts change no outcome**: not the state that the stream leaves, nor the calls into the
client, up to the parts of a payload, nor a fault. -/
theorem onChunks_flatten {chunks : List (List UInt8)} (hc : p.Consistent)
    (hlen : p.bytesRead + chunks.flatten.length < 2 ^ 32) (hchunks : chunks ≠ [])
    (hne : ∀ c ∈ chunks, c ≠ []) : observe ClientEvent.divide (p.onChunks chunks) =
      observe ClientEvent.divide (p.onData chunks.flatten) :=
  splits.observe_calls turn_bounded hchunks hne ⟨hc, hlen⟩

theorem onChunks_flatten_ack :
    observe ClientEvent.divide ((start 128).onChunks [[0x40, 2], [0, 7]]) =
      observe ClientEvent.divide ((start 128).onData [[0x40, 2], [0, 7]].flatten) :=
  onChunks_flatten (start_consistent 128) (by decide) (by decide) (by decide)

/-- **What no stream does**: make the parser write behind its topic buffer, or read behind a
chunk. -/
theorem onChunks_safe {chunks : List (List UInt8)} (hc : p.Consistent)
    (hlen : p.bytesRead + chunks.flatten.length < 2 ^ 32) (hne : ∀ c ∈ chunks, c ≠ []) :
    p.onChunks chunks ≠ .error .topicBuffer ∧ p.onChunks chunks ≠ .error .data := by
  have hfault : ∀ e, p.onChunks chunks = .error e → e ≠ .topicBuffer ∧ e ≠ .data := by
    intro e he
    rcases splits.turn_of_calls_error he hne ⟨hc, hlen⟩ with rfl | ⟨q, d, hgood, hd, hturn⟩
    · simp
    · cases hgood.1.turnKind with
      | reads f hf hspec =>
        obtain ⟨b, d, rfl⟩ := List.exists_cons_of_ne_nil hd
        have hspec := hspec b
        rw [hf, readByte] at hturn
        generalize f b = r at hspec hturn
        cases hspec <;> cases hturn <;> simp
      | stalls hq => rw [hq] at hturn; cases hturn
      | nullPacket hq =>
        rw [hq] at hturn
        cases hturn
        simp
      | payload k _ hk hq =>
        have hstep := publishPayload_step q k d (hgood.bytesRead_eq hk)
        rw [← hq, hturn] at hstep
        cases hstep
        simp
  exact ⟨fun h => (hfault _ h).1 rfl, fun h => (hfault _ h).2 rfl⟩

/-- A topic of 65535 bytes is announced. -/
theorem onChunks_safe_long :
    (start 128).onChunks [[0x30, 0xFF], [0x7F, 0xFF, 0xFF, 97]] ≠ .error .topicBuffer ∧
      (start 128).onChunks [[0x30, 0xFF], [0x7F, 0xFF, 0xFF, 97]] ≠ .error .data :=
  onChunks_safe (start_consistent 128) (by decide) (by decide)

end Parser

end AsyncMqtt

end MqttServerTest
