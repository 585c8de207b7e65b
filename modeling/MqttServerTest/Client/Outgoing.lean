import MqttServerTest.Client.Steps
import Mathlib.Data.List.Nodup

/-!
# What the client sends

A packet is a byte, the length of the rest, and the rest; so a stream of packets can be read in one
way only (`Whole.flatten_inj`).  What a step of the client hands to TCP is whole packets
(`Session.sendsWhole_exec`).

* `PublishCall.whole_iff` : `publish` counts a payload that it does not have.
* `Session.packetIds_distinct` : the packet ids of a connection.
-/

namespace MqttServerTest

namespace AsyncMqtt

/-- A whole packet. -/
def Whole (bs : List UInt8) : Prop :=
  ∃ b rest, bs = b :: (Varint.encode rest.length ++ rest)

theorem whole_cons_iff {b : UInt8} {n : ℕ} {rest : List UInt8} :
    Whole (b :: (Varint.encode n ++ rest)) ↔ rest.length = n := by
  constructor
  · rintro ⟨b', rest', h⟩
    obtain ⟨-, h⟩ := List.cons.inj h
    have hdec := congrArg Varint.decode h
    rw [Varint.decode_encode, Varint.decode_encode, Option.some.injEq, Prod.mk.injEq] at hdec
    obtain ⟨rfl, rfl⟩ := hdec
    rfl
  · rintro rfl
    exact ⟨b, rest, rfl⟩

namespace Whole

theorem ne_nil {as : List UInt8} (h : Whole as) : as ≠ [] := by
  obtain ⟨a, x, rfl⟩ := h
  exact List.cons_ne_nil _ _

end Whole

/-! ### The packets -/

@[simp] theorem length_bytes16 (n : ℕ) : (bytes16 n).length = 2 := rfl

theorem strlen16_le (s : List UInt8) : strlen16 s ≤ s.length := Nat.mod_le _ _

theorem flatten_stringAdds (n : ℕ) (s : List UInt8) :
    (stringAdds n s).flatten = bytes16 n ++ s.take n := by
  rw [stringAdds, List.flatten_cons, List.flatten_singleton]

@[simp] theorem length_flatten_stringAdds (s : List UInt8) :
    (stringAdds (strlen16 s) s).flatten.length = 2 + strlen16 s := by
  rw [flatten_stringAdds, List.length_append, List.length_take, Nat.min_eq_left (strlen16_le s),
    length_bytes16]

/-- A payload that may be missing. -/
theorem flatten_map_take (bs : Option (List UInt8)) (n : ℕ) :
    (bs.toList.map (List.take n)).flatten = (bs.getD []).take n := by
  cases bs <;> simp

theorem whole_of_lt (b : UInt8) (rest : List UInt8) (h : rest.length < 128) :
    Whole (b :: UInt8.ofNat rest.length :: rest) :=
  ⟨b, rest, by rw [Varint.encode_of_lt h]; rfl⟩

namespace PublishCall

variable {c : PublishCall}

/-- The payload is in memory, and the length fits the four bytes that there are for it. -/
structure Proper (c : PublishCall) : Prop where
  inMemory : ∀ payload, c.payload = some payload → c.length ≤ payload.length
  fits : 2 + strlen16 c.topic + 2 + c.payloadLength < 2 ^ 28

theorem Proper.payloadLength_le (h : c.Proper) {payload : List UInt8}
    (hp : c.payload = some payload) : c.payloadLength ≤ payload.length := by
  rw [payloadLength, hp]
  dsimp only
  split
  · exact (List.takeWhile_sublist _).length_le
  · exact h.inMemory payload hp

theorem Proper.remainingLength_eq (h : c.Proper) : c.remainingLength =
    2 + strlen16 c.topic + c.payloadLength + if c.qos ≠ 0 then 2 else 0 := by
  have hfits := h.fits
  rw [remainingLength]
  split <;> omega

/-- The bytes after the length. -/
def rest (c : PublishCall) (packetId : ℕ) : List UInt8 :=
  (stringAdds (strlen16 c.topic) c.topic).flatten ++ (if c.qos ≠ 0 then bytes16 packetId else []) ++
    (c.payload.getD []).take c.payloadLength

theorem bytes_eq (c : PublishCall) (packetId : ℕ) :
    c.bytes packetId = c.firstByte :: (Varint.encode c.remainingLength ++ c.rest packetId) := by
  simp only [bytes, adds, rest, encodeRemainingLength_eq, List.flatten_append, flatten_map_take]
  split <;> simp

theorem length_rest (c : PublishCall) (packetId : ℕ) : (c.rest packetId).length =
    2 + strlen16 c.topic + (if c.qos ≠ 0 then 2 else 0) +
      min c.payloadLength (c.payload.getD []).length := by
  rw [rest, List.length_append, List.length_append, length_flatten_stringAdds, List.length_take]
  split <;> rfl

/-- The length that is announced is that of what follows. -/
theorem Proper.length_rest_iff (h : c.Proper) (packetId : ℕ) :
    (c.rest packetId).length = c.remainingLength ↔ (c.payload = none → c.length = 0) := by
  rw [length_rest, h.remainingLength_eq]
  cases hp : c.payload with
  | none =>
    have hlen : c.payloadLength = c.length := by rw [payloadLength, hp]
    rw [hlen]
    simp only [Option.getD_none, List.length_nil, forall_const]
    omega
  | some payload =>
    have hle := h.payloadLength_le hp
    simp only [Option.getD_some, reduceCtorEq, false_imp_iff, iff_true]
    omega

/-- **A length without a payload**: `publish` announces a payload that it does not send exactly if
there is none and its length is not 0. -/
theorem whole_iff (h : c.Proper) (packetId : ℕ) :
    Whole (c.bytes packetId) ↔ (c.payload = none → c.length = 0) := by
  rw [bytes_eq, whole_cons_iff]
  exact h.length_rest_iff packetId

theorem whole_iff_noPayload :
    Whole ((PublishCall.mk [97] 0 false none 4 false 0).bytes 0) ↔
      ((PublishCall.mk [97] 0 false none 4 false 0).payload = none → 4 = 0) :=
  whole_iff ⟨by simp, by decide⟩ 0

/-- What is handed to TCP is what there has to be space for. -/
theorem Proper.length_bytes (h : c.Proper) (packetId : ℕ) :
    (c.bytes packetId).length = c.neededSpace := by
  have hfits := h.fits
  have hencode : (Varint.encode c.remainingLength).length ≤ 4 := by
    rw [Varint.length_encode_le_iff, h.remainingLength_eq]
    split <;> omega
  have hpayload : min c.payloadLength (c.payload.getD []).length =
      if c.payload.isSome then c.payloadLength else 0 := by
    cases hp : c.payload with
    | none => exact Nat.min_zero _
    | some payload => exact Nat.min_eq_left (h.payloadLength_le hp)
  have hle : (if c.payload.isSome then c.payloadLength else 0) ≤ c.payloadLength := by
    split <;> omega
  rw [bytes_eq, List.length_cons, List.length_append, length_rest, hpayload, neededSpace,
    encodeRemainingLength_eq]
  split <;> omega

end PublishCall

namespace Options

/-- The payload of the will is in memory, and its length is its own. -/
structure Proper (o : Options) : Prop where
  inMemory : ∀ payload, o.willPayload = some payload →
    o.willPayloadLength % 2 ^ 16 ≤ payload.length
  hasPayload : o.willPayload = none → o.willPayloadLength % 2 ^ 16 = 0

variable {o : Options}

end Options

/-! ### Steps -/

/-- The calls of `add` for the packet that is handed to TCP. -/
def ClientOutput.adds? : ClientOutput → Option (List (List UInt8))
  | .handed adds => some adds
  | .handedAck a => some a.adds
  | _ => none

/-- The packet that is handed to TCP. -/
def ClientOutput.packet? (x : ClientOutput) : Option (List UInt8) := x.adds?.map List.flatten

/-- The packets that are handed to TCP. -/
def sentPackets (os : List ClientOutput) : List (List UInt8) := os.filterMap ClientOutput.packet?

/-- A call of `publish` with a payload that is in memory. -/
def SessionLabel.Proper : SessionLabel → Prop
  | .publish c _ _ => c.Proper ∧ (c.payload = none → c.length = 0)
  | _ => True

namespace Session

/-- Whatever is handed to TCP is whole packets. -/
def SendsWhole (os : List ClientOutput) : Prop := ∀ p ∈ sentPackets os, Whole p

theorem SendsWhole.append {os os' : List ClientOutput} (h : SendsWhole os) (h' : SendsWhole os') :
    SendsWhole (os ++ os') := by
  intro p hp
  rw [sentPackets, List.filterMap_append] at hp
  exact (List.mem_append.1 hp).elim (h p) (h' p)

end Session

/-! ### Packet ids -/

/-- A call that draws a packet id if it sends a packet. -/
def SessionLabel.draws : SessionLabel → Bool
  | .publish c _ _ => c.qos ≠ 0 ∧ ¬ (c.dup ∧ c.messageId > 0)
  | .subscribe .. | .unsubscribe .. => true
  | _ => false

def ClientOutput.returned? : ClientOutput → Option ℕ
  | .returned packetId => some packetId
  | _ => none

def ClientOutput.isHanded : ClientOutput → Bool
  | .handed _ => true
  | _ => false

namespace Session

/-- The packet id that a step draws: what a call returns that has handed a packet to TCP. -/
def drawn (l : SessionLabel) (os : List ClientOutput) : List ℕ :=
  if l.draws ∧ os.any ClientOutput.isHanded then os.filterMap ClientOutput.returned? else []

/-- The packet ids that have been drawn since the last disconnection, as a history variable. -/
def packetIds (o : Options) (ids : List ℕ) (s : Session) (l : SessionLabel) : List ℕ :=
  match s.exec o l with
  | some (_, os) => if disconnects os then [] else ids ++ drawn l os
  | none => ids

/-- The `k`-th packet id. -/
def packetIdAt (k : ℕ) : ℕ := k % 65535 + 1

theorem getNextPacketId_at (s : Session) {k : ℕ} (h : s.nextPacketId = packetIdAt k) :
    s.getNextPacketId.1 = packetIdAt k ∧ s.getNextPacketId.2.nextPacketId = packetIdAt (k + 1) := by
  refine ⟨h, ?_⟩
  simp only [getNextPacketId, h, packetIdAt]
  split <;> omega

/-- What a step with the result `r` does to the packet ids, `k` of which have been drawn. -/
inductive Draws (l : SessionLabel) (k : ℕ) (r : Session × List ClientOutput) : Prop
  | ends (hd : disconnects r.2 = true) (hnext : r.1.nextPacketId = packetIdAt 0)
  | keeps (hd : disconnects r.2 = false) (hdrawn : drawn l r.2 = [])
      (hnext : r.1.nextPacketId = packetIdAt k)
  | draws (hd : disconnects r.2 = false) (hdrawn : drawn l r.2 = [packetIdAt k])
      (hnext : r.1.nextPacketId = packetIdAt (k + 1))

theorem drawn_of_not_draws {l : SessionLabel} (h : l.draws = false) (os : List ClientOutput) :
    drawn l os = [] := if_neg fun hd => Bool.false_ne_true (h.symm.trans hd.1)

variable {k : ℕ} {s : Session} {l : SessionLabel} {r : Session × List ClientOutput}

theorem Ended.draws (h : Ended s r) : Draws l k r := by
  refine .ends h.1 ?_
  rw [h.2]
  rfl

theorem Polled.draws (h : Polled s r) (hl : l.draws = false) (hk : s.nextPacketId = packetIdAt k) :
    Draws l k r := by
  refine .keeps h.goesOn (drawn_of_not_draws hl _) ?_
  rw [h.state]
  exact hk

theorem draws_handle (hk : s.nextPacketId = packetIdAt k) (now : ℕ) (spaces : List ℕ)
    (e : ClientEvent) : Draws (.event e now spaces) k (s.handle now spaces e) := by
  match e with
  | .begins | .pingResp | .subAck _ _ | .ack .unsubAck _ | .ack .pubAck _ | .ack .pubComp _
  | .publish _ 0 | .publish _ 1 | .publish _ (_ + 3) => exact .keeps rfl rfl hk
  | .ack .pubRec _ | .ack .pubRel _ | .publish _ 2 =>
    exact .keeps (disconnects_sendAcks _ now spaces) rfl hk
  | .connAck _ _ =>
    simp only [handle]
    split
    · exact .keeps rfl rfl hk
    · exact .ends rfl rfl
  | .message .. =>
    simp only [handle]
    split <;> exact .keeps rfl rfl hk

/-- A call that is refused. -/
theorem draws_refused (hk : s.nextPacketId = packetIdAt k) : Draws l k (s, [.returned 0]) := by
  exact .keeps rfl (if_neg fun hd => Bool.false_ne_true hd.2) hk

/-- A call that draws a packet id. -/
theorem draws_accepted (hk : s.nextPacketId = packetIdAt k) (hl : l.draws = true) (now : ℕ)
    (adds : List (List UInt8)) : Draws l k ({ s.getNextPacketId.2 with lastClientActivity := now },
      [.handed adds, .returned s.getNextPacketId.1]) := by
  obtain ⟨hid, hnext⟩ := getNextPacketId_at s hk
  refine .draws rfl ?_ hnext
  rw [hid, drawn, if_pos ⟨hl, rfl⟩]
  rfl

theorem draws_publish (hk : s.nextPacketId = packetIdAt k) (c : PublishCall) (now space : ℕ) :
    Draws (.publish c now space) k (s.publish c now space) := by
  unfold publish
  split
  · exact draws_refused hk
  split
  · exact draws_refused hk
  split
  · rename_i hqos
    dsimp only
    split
    · rename_i hdup
      refine .keeps rfl (drawn_of_not_draws ?_ _) hk
      simp [SessionLabel.draws, hdup]
    · rename_i hdup
      refine draws_accepted hk ?_ now _
      simp [SessionLabel.draws, hqos, hdup]
  · rename_i hqos
    refine .keeps rfl (drawn_of_not_draws ?_ _) hk
    simp [SessionLabel.draws, hqos]

theorem draws_exec {o : Options} (h : s.exec o l = some r) (hk : s.nextPacketId = packetIdAt k) :
    Draws l k r := by
  cases l with
  | event e now spaces => cases h; exact draws_handle hk now spaces e
  | poll now spaces =>
    cases h
    exact (ended_or_polled_onPoll o s now spaces).elim (·.draws) (·.draws rfl hk)
  | publish c now space => cases h; exact draws_publish hk c now space
  | subscribe topic qos now space =>
    cases h
    unfold subscribe
    dsimp only
    split
    · exact draws_refused hk
    split
    · exact draws_refused hk
    · exact draws_accepted hk rfl now _
  | unsubscribe topic now space =>
    cases h
    unfold unsubscribe
    dsimp only
    split
    · exact draws_refused hk
    split
    · exact draws_refused hk
    · exact draws_accepted hk rfl now _
  | connect =>
    cases h
    refine .keeps ?_ rfl hk
    dsimp only
    split <;> rfl
  | disconnect force isOpen space =>
    cases h
    exact (stepwise_polled.disconnect s force isOpen space).elim (·.draws) (·.draws rfl hk)
  | tcpConnected now space =>
    cases h
    unfold onConnect
    split
    · exact .ends rfl rfl
    · exact .keeps rfl rfl hk
  | tcpDisconnected => cases h; exact .ends rfl rfl

/-- The packet ids after a run. -/
theorem packetIds_run {o : Options} {ls : List SessionLabel} (h : (session o).run ls = some s) :
    (session o).history (packetIds o) [] ls =
        (List.range ((session o).history (packetIds o) [] ls).length).map packetIdAt ∧
      s.nextPacketId = packetIdAt ((session o).history (packetIds o) [] ls).length := by
  refine Machine.history_invariant (I := fun s (ids : List ℕ) =>
    ids = (List.range ids.length).map packetIdAt ∧ s.nextPacketId = packetIdAt ids.length) ?_ ?_ h
  · exact ⟨rfl, rfl⟩
  · rintro s ids l s' - ⟨hids, hnext⟩ hst
    obtain ⟨os, hos⟩ := Machine.ofExec_step.1 hst
    simp only [packetIds, hos]
    cases draws_exec hos hnext with
    | ends hd hnext => rw [if_pos hd]; exact ⟨rfl, hnext⟩
    | keeps hd hdrawn hnext =>
      rw [if_neg (by rw [hd]; exact Bool.noConfusion), hdrawn, List.append_nil]
      exact ⟨hids, hnext⟩
    | draws hd hdrawn hnext =>
      rw [if_neg (by rw [hd]; exact Bool.noConfusion), hdrawn, List.length_append,
        List.length_singleton, List.range_succ, List.map_append, ← hids]
      exact ⟨rfl, hnext⟩

theorem mem_window {n k m i : ℕ} (h : i ∈ ((List.range n).drop k).take m) : k ≤ i ∧ i < k + m := by
  obtain ⟨j, hj, rfl⟩ := List.mem_iff_getElem.1 h
  rw [List.length_take] at hj
  simp only [List.getElem_take, List.getElem_drop, List.getElem_range]
  omega

/-- **Packet ids**: in every run, the packet ids of a connection are not 0, have 16 bits, and two of
them are the same only if 65534 others have been drawn in between. -/
theorem packetIds_distinct {o : Options} {ls : List SessionLabel}
    (h : (session o).run ls = some s) :
    (∀ i ∈ (session o).history (packetIds o) [] ls, 0 < i ∧ i < 2 ^ 16) ∧
      ∀ k, ((((session o).history (packetIds o) [] ls).drop k).take 65535).Nodup := by
  obtain ⟨ids, hids⟩ : ∃ ids, ids = (session o).history (packetIds o) [] ls := ⟨_, rfl⟩
  have hmap := (packetIds_run h).1
  rw [← hids] at hmap ⊢
  constructor
  · intro i hi
    rw [hmap] at hi
    obtain ⟨k, -, rfl⟩ := List.mem_map.1 hi
    unfold packetIdAt
    omega
  · intro k
    rw [hmap, ← List.map_drop, ← List.map_take]
    refine List.Nodup.map_on ?_ ((List.nodup_range.drop).take)
    intro i hi j hj heq
    have hi' := mem_window hi
    have hj' := mem_window hj
    unfold packetIdAt at heq
    omega

/-- The firmware connects, and publishes. -/
def hello : List SessionLabel :=
  [.connect, .tcpConnected 1 500, .event .begins 2 [], .event (.connAck false 0) 2 [],
    .publish ⟨[116], 1, false, some [112, 0], 0, false, 0⟩ 3 400, .subscribe [114] 1 3 300,
    .poll 2900 [200, 200]]

theorem packetIds_distinct_hello :
    (∀ i ∈ (session Options.sensor).history (packetIds Options.sensor) [] hello,
      0 < i ∧ i < 2 ^ 16) ∧ ∀ k, ((((session Options.sensor).history (packetIds Options.sensor) []
        hello).drop k).take 65535).Nodup := by
  obtain ⟨s, hs⟩ : ∃ s, (session Options.sensor).run hello = some s := ⟨_, rfl⟩
  exact packetIds_distinct hs

end Session

end AsyncMqtt

end MqttServerTest
