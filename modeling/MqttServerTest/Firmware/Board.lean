import MqttServerTest.Client.Outgoing
import MqttServerTest.Firmware.Loop

/-!
# The board

`loop` of the firmware on the session of the MQTT client: `publish` is that of the library, and
whatever else the library does may happen between two steps of the loop.  `loopMachine` is the board
without the library.

* `loop_of_board` : every run of the board is, with the same observations, a run of `loopMachine`.

The server acknowledges QoS 1 packets that it has been sent, and each once; it sends no PUBCOMP, as
the board publishes nothing of QoS 2.
-/

namespace MqttServerTest

open AsyncMqtt

/-- The `char`s of a string. -/
def chars (s : String) : List UInt8 := s.toList.map fun c => UInt8.ofNat c.toNat

/-- `mqttClient.publish("test", qos, false, payload)` -/
def Packet.call (p : Packet) : PublishCall where
  topic := chars "test"
  qos := p.qos
  retain := false
  payload := some (chars p.payload ++ [0])
  length := 0
  dup := false
  messageId := 0

/-- The loop and the session of the client. -/
structure Board where
  pc : LoopPc
  randomize : Bool
  randomNum : ℕ
  pubacks : ℕ
  /-- The number of rounds begun. -/
  round : ℕ
  session : AsyncMqtt.Session
  /-- The free space of the send buffer. -/
  space : ℕ
  /-- The QoS 1 packets not yet acknowledged: the packet id, and the round that has sent it. -/
  unacked : List (ℕ × ℕ)
  deriving DecidableEq, Repr

/-- What happens next. -/
inductive BoardLabel where
  /-- `loop` is called and reads the two buttons; `rand()` would return `rand`. -/
  | loop (button2 button1 : Bool) (rand : ℕ)
  /-- The loop task performs its next step; `millis()` would return `now`. -/
  | next (now : ℕ)
  /-- The library does something else, and leaves this much space. -/
  | client (label : SessionLabel) (space : ℕ)
  /-- The free space changes. -/
  | room (space : ℕ)
  deriving DecidableEq, Repr

/-- `onMqttPublish` is called. -/
def AsyncMqtt.ClientOutput.isOnPublish : ClientOutput → Bool
  | .onPublish _ => true
  | _ => false

/-- The server acknowledges a packet of the client. -/
def AsyncMqtt.SessionLabel.acksPublish : SessionLabel → Bool
  | .event (.ack .pubAck _) _ _ | .event (.ack .pubComp _) _ _ => true
  | _ => false

namespace Board

/-- The state before the first call. -/
def start : Board := ⟨.idle, false, 0, 0, 0, .start, 0, []⟩

/-- The board without the library, and with these packets in flight. -/
def loopWith (b : Board) (inFlight : List ℕ) : Loop :=
  ⟨b.pc, b.randomize, b.randomNum, b.pubacks, b.round, b.session.connected, b.space, inFlight⟩

/-- The board without the library. -/
def loop (b : Board) : Loop := b.loopWith (b.unacked.map Prod.snd)

/-- `mqttClient.publish("test", qos, false, payload)`, and where the loop goes on. -/
def publish (b : Board) (p : Packet) (pc : LoopPc) (now : ℕ) : Board × List LoopEvent :=
  let r := b.session.publish p.call now b.space
  let sent := sentPackets r.2
  ({ b with
      pc
      session := r.1
      space := b.space - sent.flatten.length
      unacked :=
        if p.qos = 0 ∨ sent = [] then b.unacked
        else b.unacked ++ (r.2.filterMap ClientOutput.returned?).map fun i => (i, b.round) },
    .called p b.space :: sent.map fun _ => .handed p)

/-- What the library may do beside `loop`. -/
def allows (b : Board) : SessionLabel → Bool
  | .event (.ack .pubAck i) _ _ => b.unacked.any fun x => x.1 = i
  | .event (.ack .pubComp _) _ _ | .publish .. => false
  | _ => true

/-- The packet that is acknowledged. -/
def acked? (b : Board) : SessionLabel → Option (ℕ × ℕ)
  | .event (.ack .pubAck i) _ _ => b.unacked.find? fun x => x.1 = i
  | _ => none

/-- The board after a step of the library. -/
def follow (b : Board) (l : SessionLabel) (space : ℕ) (r : AsyncMqtt.Session × List ClientOutput) :
    Board × List LoopEvent :=
  ({ b with
      pubacks := b.pubacks + r.2.countP ClientOutput.isOnPublish
      session := r.1
      space
      unacked :=
        if r.1.connected then match b.acked? l with
          | some x => b.unacked.erase x
          | none => b.unacked
        else [] },
    (b.acked? l).toList.map fun x => .puback x.2)

/-- One step. -/
def exec (o : Options) (b : Board) : BoardLabel → Option (Board × List LoopEvent)
  | .loop button2 button1 rand =>
    if b.pc = .idle then
      if b.session.connected then
        some ({ b with
          pc := .qos0 0
          randomize := b.loop.readButtons button2 button1
          randomNum := b.loop.chooseNum button2 button1 rand
          round := b.round + 1 }, [.announced 0 (b.loop.chooseNum button2 button1 rand)])
      else some (b, [])
    else none
  | .next now => match b.pc with
    | .idle => none
    | .qos0 i =>
      if i < b.randomNum then some (b.publish (.pack 0) (.qos0 (i + 1)) now)
      else some ({ b with pc := .last }, [])
    | .last =>
      some ((b.publish .last (.qos1 0) now).1,
        (b.publish .last (.qos1 0) now).2 ++ [.announced 1 b.randomNum])
    | .qos1 i =>
      if i < b.randomNum then some (b.publish (.pack 1) (.qos1 (i + 1)) now)
      else some ({ b with pc := .report }, [])
    | .report => some ({ b with pc := .reset }, [.printed b.round b.pubacks])
    | .reset => some ({ b with pc := .idle, pubacks := 0 }, [.reset])
  | .client l space =>
    if b.allows l then (b.session.exec o l).map (b.follow l space) else none
  | .room space => some ({ b with space }, [])

end Board

/-- The board, with the network. -/
def board (o : Options) : Machine Board BoardLabel := Machine.ofExec Board.start (Board.exec o)

/-- What has been observed of the run `ls`. -/
def board.events (o : Options) (ls : List BoardLabel) : List LoopEvent :=
  Machine.emitted Board.start (Board.exec o) ls

/-! ### The packets of the loop -/

/-- A packet whose remaining length is written in one byte. -/
structure Packet.Short (p : Packet) : Prop where
  zero_notMem : 0 ∉ chars p.payload
  length_lt : p.payload.length < 100

theorem short_pack (qos : ℕ) : (Packet.pack qos).Short where
  zero_notMem := by
    change 0 ∉ chars "pack"
    decide
  length_lt := by
    change "pack".length < 100
    decide

theorem short_last : Packet.last.Short := ⟨by decide, by decide⟩

theorem length_chars (s : String) : (chars s).length = s.length := by
  rw [chars, List.length_map, String.length_toList]

namespace Packet.Short

variable {p : Packet}

theorem payloadLength_call (h : p.Short) : p.call.payloadLength = p.payload.length := by
  have hall : ∀ b ∈ chars p.payload, decide (b ≠ 0) = true := fun b hb =>
    decide_eq_true (ne_of_mem_of_not_mem hb h.zero_notMem)
  have hlen : p.call.payloadLength = ((chars p.payload ++ [0]).takeWhile (· ≠ 0)).length := rfl
  rw [hlen, List.takeWhile_append_of_pos hall, List.length_append, length_chars]
  rfl

theorem strlen16_call (p : Packet) : strlen16 p.call.topic = "test".length := rfl

theorem proper_call (h : p.Short) : p.call.Proper where
  inMemory _ _ := Nat.zero_le _
  fits := by
    have hlt := h.length_lt
    rw [h.payloadLength_call, strlen16_call]
    have htest : "test".length = 4 := rfl
    omega

/-- What `Loop.publish` takes for the length of the packet. -/
theorem neededSpace_call (h : p.Short) : p.call.neededSpace = p.neededSpace := by
  have hlt := h.length_lt
  have htest : "test".length = 4 := rfl
  have hqos : p.call.qos = p.qos := rfl
  have hremaining : p.call.remainingLength =
      2 + "test".length + p.payload.length + if p.qos = 0 then 0 else 2 := by
    rw [h.proper_call.remainingLength_eq, h.payloadLength_call, strlen16_call, hqos]
    by_cases hq : p.qos = 0 <;> simp [hq]
  have hencode : (encodeRemainingLength p.call.remainingLength).length = 1 := by
    rw [encodeRemainingLength_eq, Varint.encode_of_lt]
    · rfl
    · rw [hremaining]
      split <;> omega
  have hsome : p.call.payload.isSome = true := rfl
  rw [PublishCall.neededSpace, hencode, h.payloadLength_call, strlen16_call, hqos, hsome,
    if_pos rfl, Packet.neededSpace]
  by_cases hq : p.qos = 0 <;> simp only [hq, ne_eq, not_true_eq_false, not_false_eq_true, if_true,
    if_false] <;> omega

end Packet.Short

/-! ### Steps -/

namespace AsyncMqtt.Session

theorem publish_of_fits {s : AsyncMqtt.Session} {c : PublishCall} {space : ℕ}
    (hc : s.connected = true) (hfits : c.neededSpace ≤ space) (now : ℕ) :
    ∃ s' i j, s.publish c now space = (s', [.handed (c.adds i), .returned j]) ∧
      s'.connected = true := by
  rw [publish, if_neg (by simp [hc]), if_neg (Nat.not_lt.2 hfits)]
  split
  · dsimp only
    split <;> exact ⟨_, _, _, rfl, hc⟩
  · exact ⟨_, _, _, rfl, hc⟩

theorem publish_of_not {s : AsyncMqtt.Session} {c : PublishCall} {space : ℕ}
    (h : ¬ (s.connected = true ∧ c.neededSpace ≤ space)) (now : ℕ) :
    s.publish c now space = (s, [.returned 0]) := by
  unfold publish
  split
  · rfl
  · rename_i hc
    rw [if_pos]
    exact Nat.not_le.1 fun hfits => h ⟨by simpa using hc, hfits⟩

theorem stepwise_noOnPublish :
    Stepwise fun _ r => r.2.countP ClientOutput.isOnPublish = 0 where
  nothing _ := rfl
  trans h _ hr := by rw [List.countP_append, h, hr]
  flag _ := rfl
  acks s now spaces := by
    rw [sendAcks, List.countP_map]
    exact List.countP_eq_zero.2 fun _ _ => Bool.false_ne_true
  bytes _ := rfl
  ends _ := rfl

theorem countP_isOnPublish_handle (s : AsyncMqtt.Session) {now : ℕ} {spaces : List ℕ}
    {e : ClientEvent} (h : SessionLabel.acksPublish (.event e now spaces) = false) :
    (s.handle now spaces e).2.countP ClientOutput.isOnPublish = 0 := by
  match e with
  | .begins | .pingResp | .subAck _ _ | .ack .unsubAck _ | .publish _ 0 | .publish _ 1
  | .publish _ (_ + 3) => rfl
  | .ack .pubAck _ | .ack .pubComp _ => cases h
  | .ack .pubRec _ | .ack .pubRel _ | .publish _ 2 => exact stepwise_noOnPublish.acks _ now spaces
  | .connAck _ _ =>
    simp only [handle]
    split <;> rfl
  | .message .. =>
    simp only [handle]
    split <;> rfl

/-- Only a PUBACK or a PUBCOMP makes the library call `onMqttPublish`. -/
theorem countP_isOnPublish {o : Options} {s : AsyncMqtt.Session} {l : SessionLabel}
    {r : AsyncMqtt.Session × List ClientOutput} (hl : l.acksPublish = false)
    (h : s.exec o l = some r) : r.2.countP ClientOutput.isOnPublish = 0 := by
  cases l with
  | event e now spaces => cases h; exact countP_isOnPublish_handle s hl
  | poll now spaces =>
    cases h
    refine stepwise_noOnPublish.onPoll spaces fun _ => ?_
    unfold sendPing
    split <;> rfl
  | publish c now space =>
    cases h
    unfold publish
    split
    · rfl
    split
    · rfl
    split <;> rfl
  | subscribe topic qos now space =>
    cases h
    unfold subscribe
    dsimp only
    split
    · rfl
    split <;> rfl
  | unsubscribe topic now space =>
    cases h
    unfold unsubscribe
    dsimp only
    split
    · rfl
    split <;> rfl
  | connect =>
    cases h
    dsimp only
    split <;> rfl
  | disconnect force isOpen space =>
    cases h; exact stepwise_noOnPublish.disconnect s force isOpen space
  | tcpConnected now space =>
    cases h
    unfold onConnect
    split <;> rfl
  | tcpDisconnected => cases h; rfl

end AsyncMqtt.Session

namespace Board

variable {o : Options} {b b' : Board} {es : List LoopEvent}

/-- The board without the library, up to the order of the packets in flight. -/
def Simulates (b : Board) (s : Loop) : Prop :=
  ∃ inFlight, inFlight.Perm (b.unacked.map Prod.snd) ∧ s = b.loopWith inFlight

/-- A packet that is handed to TCP takes the space that `Loop.publish` says. -/
theorem publish_of_fits {p : Packet} (hp : p.Short) (hc : b.session.connected = true)
    (hfits : p.neededSpace ≤ b.space) (pc : LoopPc) (now : ℕ) :
    ∃ s' j, b.publish p pc now =
      ({ b with
          pc
          session := s'
          space := b.space - p.neededSpace
          unacked := if p.qos = 0 then b.unacked else b.unacked ++ [(j, b.round)] },
        [.called p b.space, .handed p]) ∧ s'.connected = true := by
  have hneeded := hp.neededSpace_call
  obtain ⟨s', i, j, hpublish, hconn⟩ := Session.publish_of_fits hc (hneeded.trans_le hfits) now
  have hlength : (p.call.bytes i).length = p.neededSpace := by
    rw [hp.proper_call.length_bytes, hneeded]
  have hsent : sentPackets [.handed (p.call.adds i), .returned j] = [p.call.bytes i] := rfl
  have hreturned : [.handed (p.call.adds i), .returned j].filterMap ClientOutput.returned? = [j] :=
    rfl
  refine ⟨s', j, ?_, hconn⟩
  simp only [publish, hpublish, hsent, hreturned, List.flatten_singleton, hlength, reduceCtorEq,
    or_false, List.map_cons, List.map_nil]

theorem publish_of_not {p : Packet} (hp : p.Short)
    (h : ¬ (b.session.connected = true ∧ p.neededSpace ≤ b.space)) (pc : LoopPc) (now : ℕ) :
    b.publish p pc now = ({ b with pc }, [.called p b.space]) := by
  rw [← hp.neededSpace_call] at h
  have hsent : sentPackets [.returned 0] = [] := rfl
  simp only [publish, Session.publish_of_not h, hsent, List.flatten_nil, List.length_nil,
    Nat.sub_zero, or_true, if_true, List.map_nil]

/-- **`publish` is that of the library.** -/
theorem publish_simulates {s : Loop} {p : Packet} (h : b.Simulates s) (hp : p.Short) (pc : LoopPc)
    (now : ℕ) : (b.publish p pc now).2 = (s.publish p pc).2 ∧
      (b.publish p pc now).1.Simulates (s.publish p pc).1 := by
  obtain ⟨inFlight, hperm, rfl⟩ := h
  by_cases hfits : b.session.connected = true ∧ p.neededSpace ≤ b.space
  · obtain ⟨s', j, hpublish, hconn⟩ := publish_of_fits hp hfits.1 hfits.2 pc now
    have hloop : (b.loopWith inFlight).publish p pc =
        ({ b.loopWith inFlight with
          pc
          space := b.space - p.neededSpace
          inFlight := if p.qos = 0 then inFlight else inFlight ++ [b.round] },
          [.called p b.space, .handed p]) := if_pos hfits
    rw [hloop, hpublish]
    refine ⟨rfl, if p.qos = 0 then inFlight else inFlight ++ [b.round], ?_, ?_⟩
    · dsimp only
      split
      · exact hperm
      · rw [List.map_append]
        exact hperm.append_right _
    · rw [loopWith, loopWith, hfits.1, hconn]
  · have hloop : (b.loopWith inFlight).publish p pc =
        ({ b.loopWith inFlight with pc }, [.called p b.space]) := if_neg hfits
    rw [hloop, publish_of_not hp hfits]
    exact ⟨rfl, inFlight, hperm, rfl⟩

theorem acked?_spec {l : SessionLabel} (h : b.allows l = true) :
    (∃ i now spaces x, l = .event (.ack .pubAck i) now spaces ∧ b.acked? l = some x ∧
        x ∈ b.unacked) ∨ l.acksPublish = false ∧ b.acked? l = none := by
  match l with
  | .event (.ack .pubAck i) now spaces =>
    obtain ⟨x, hx⟩ := List.find?_isSome.2 (List.any_eq_true.1 h) |> Option.isSome_iff_exists.1
    exact .inl ⟨i, now, spaces, x, rfl, hx, List.mem_of_find?_eq_some hx⟩
  | .event (.ack .pubComp _) _ _ | .publish .. => cases h
  | .event (.ack .pubRec _) _ _ | .event (.ack .pubRel _) _ _ | .event (.ack .unsubAck _) _ _
  | .event .begins _ _ | .event .pingResp _ _ | .event (.connAck _ _) _ _
  | .event (.subAck _ _) _ _ | .event (.publish _ _) _ _ | .event (.message ..) _ _
  | .poll _ _ | .subscribe .. | .unsubscribe .. | .connect | .disconnect .. | .tcpConnected _ _
  | .tcpDisconnected => exact .inr ⟨rfl, rfl⟩

/-- One of the packets in flight is acknowledged. -/
theorem map_erase_perm {α β : Type*} [BEq α] [LawfulBEq α] [BEq β] [LawfulBEq β] (f : α → β)
    {l : List α} {x : α} (h : x ∈ l) : ((l.map f).erase (f x)).Perm ((l.erase x).map f) := by
  have hperm := (List.perm_cons_erase h).map f
  rw [List.map_cons] at hperm
  have herase := hperm.erase (f x)
  rwa [List.erase_cons_head] at herase

/-- **What the library does is a PUBACK, or can be seen from the connection and the space.** -/
theorem follow_simulates {s : Loop} {l : SessionLabel} {r : AsyncMqtt.Session × List ClientOutput}
    (space : ℕ) (h : b.Simulates s) (hl : b.allows l = true) (hr : b.session.exec o l = some r) :
    ∃ ks s', Machine.execFrom Loop.exec s ks = some (s', (b.follow l space r).2) ∧
      (b.follow l space r).1.Simulates s' := by
  obtain ⟨inFlight, hperm, rfl⟩ := h
  obtain ⟨i, now, spaces, x, rfl, hx, hmem⟩ | ⟨hno, hx⟩ := acked?_spec hl
  · cases hr
    have hfollow : b.follow (.event (.ack .pubAck i) now spaces) space
        (b.session.handle now spaces (.ack .pubAck i)) =
        ({ b with
            pubacks := b.pubacks + 1
            space
            unacked := if b.session.connected then b.unacked.erase x else [] },
          [.puback x.2]) := by
      simp only [follow, hx]
      rfl
    have hin : x.2 ∈ inFlight := hperm.mem_iff.2 (List.mem_map_of_mem hmem)
    have hpuback : (b.loopWith inFlight).exec (.puback x.2) =
        some ({ b.loopWith inFlight with
          pubacks := b.pubacks + 1
          inFlight := inFlight.erase x.2 }, [.puback x.2]) := if_pos hin
    rw [hfollow]
    refine ⟨[.puback x.2, .connection b.session.connected, .room space], _,
      Machine.execFrom_cons hpuback rfl,
      if b.session.connected then inFlight.erase x.2 else [], ?_, rfl⟩
    dsimp only
    split
    · exact (hperm.erase x.2).trans (map_erase_perm Prod.snd hmem)
    · exact .refl _
  · have hcount := Session.countP_isOnPublish hno hr
    have hfollow : b.follow l space r =
        ({ b with session := r.1, space, unacked := if r.1.connected then b.unacked else [] },
          []) := by
      simp only [follow, hx, hcount]
      rfl
    rw [hfollow]
    refine ⟨[.connection r.1.connected, .room space], _, rfl,
      if r.1.connected then inFlight else [], ?_, rfl⟩
    dsimp only
    split
    · exact hperm
    · exact .refl _

/-- A step of the loop task that is a call of `publish`. -/
theorem next_publish {s : Loop} {p : Packet} {pc : LoopPc} {now : ℕ} (h : b.Simulates s)
    (hp : p.Short) (hst : b.publish p pc now = (b', es)) :
    s.publish p pc = ((s.publish p pc).1, es) ∧ b'.Simulates (s.publish p pc).1 := by
  obtain ⟨hes, hsim⟩ := publish_simulates h hp pc now
  rw [hst] at hes hsim
  exact ⟨Prod.ext rfl hes.symm, hsim⟩

/-- A step of the loop task. -/
theorem next_simulates {s : Loop} {now : ℕ} (h : b.Simulates s)
    (hst : b.exec o (.next now) = some (b', es)) :
    ∃ s', s.exec .next = some (s', es) ∧ b'.Simulates s' := by
  have hsim := h
  obtain ⟨inFlight, hperm, rfl⟩ := h
  obtain ⟨pc, randomize, n, pubacks, round, session, space, unacked⟩ := b
  cases pc with
  | idle => cases hst
  | qos0 i =>
    simp only [exec] at hst
    split_ifs at hst with hi
    · obtain ⟨hloop, hsim'⟩ := next_publish hsim (short_pack 0) (Option.some.inj hst)
      exact ⟨_, (if_pos hi).trans (congrArg some hloop), hsim'⟩
    · cases hst
      exact ⟨_, if_neg hi, inFlight, hperm, rfl⟩
  | last =>
    cases hst
    obtain ⟨hes, hsim'⟩ := publish_simulates hsim short_last (.qos1 0) now
    exact ⟨_, congrArg (fun es => some (_, es ++ [LoopEvent.announced 1 n])) hes.symm, hsim'⟩
  | qos1 i =>
    simp only [exec] at hst
    split_ifs at hst with hi
    · obtain ⟨hloop, hsim'⟩ := next_publish hsim (short_pack 1) (Option.some.inj hst)
      exact ⟨_, (if_pos hi).trans (congrArg some hloop), hsim'⟩
    · cases hst
      exact ⟨_, if_neg hi, inFlight, hperm, rfl⟩
  | report => cases hst; exact ⟨_, rfl, inFlight, hperm, rfl⟩
  | reset => cases hst; exact ⟨_, rfl, inFlight, hperm, rfl⟩

/-- **The rule of simulation for the board.** -/
theorem Simulates.step {s : Loop} {l : BoardLabel} (h : b.Simulates s)
    (hst : b.exec o l = some (b', es)) :
    ∃ ks s', Machine.execFrom Loop.exec s ks = some (s', es) ∧ b'.Simulates s' := by
  cases l with
  | loop button2 button1 rand =>
    obtain ⟨inFlight, hperm, rfl⟩ := h
    simp only [exec] at hst
    split_ifs at hst with hpc hc
    · cases hst
      have hbegin : (b.loopWith inFlight).exec (.loop button2 button1 rand) =
          some ({ b.loopWith inFlight with
            pc := .qos0 0
            randomize := b.loop.readButtons button2 button1
            randomNum := b.loop.chooseNum button2 button1 rand
            round := b.round + 1 }, [.announced 0 (b.loop.chooseNum button2 button1 rand)]) :=
        (if_pos hpc).trans (if_pos hc)
      exact ⟨[.loop button2 button1 rand], _, Machine.execFrom_single hbegin, inFlight, hperm, rfl⟩
    · cases hst
      have hnothing : (b.loopWith inFlight).exec (.loop button2 button1 rand) =
          some (b.loopWith inFlight, []) := (if_pos hpc).trans (if_neg hc)
      exact ⟨[.loop button2 button1 rand], _, Machine.execFrom_single hnothing, inFlight, hperm,
        rfl⟩
  | next now =>
    obtain ⟨s', hs', hsim⟩ := next_simulates h hst
    exact ⟨[.next], s', Machine.execFrom_single hs', hsim⟩
  | client l space =>
    simp only [exec] at hst
    split at hst
    · rename_i hl
      obtain ⟨r, hr, hfollow⟩ := Option.map_eq_some_iff.1 hst
      obtain ⟨ks, s', hks, hsim⟩ := follow_simulates space h hl hr
      rw [hfollow] at hks hsim
      exact ⟨ks, s', hks, hsim⟩
    · cases hst
  | room space =>
    cases hst
    obtain ⟨inFlight, hperm, rfl⟩ := h
    exact ⟨[.room space], _, rfl, inFlight, hperm, rfl⟩

end Board

/-- **The loop on the library is the loop.**  Every run of the board is a run of `loopMachine` with
the same observations, that ends with the same counters, the same connection and the same free
space. -/
theorem loop_of_board {o : Options} {ls : List BoardLabel} {b : Board}
    (h : (board o).run ls = some b) : ∃ ks s, loopMachine.run ks = some s ∧
      loopMachine.events ks = board.events o ls ∧ b.Simulates s := by
  refine Machine.emitted_simulation (R := Board.Simulates) (G := fun _ _ => True)
    ⟨[], .refl _, rfl⟩ (fun _ _ _ _ _ _ _ _ => trivial) ?_ h trivial
  intro ls b l b' es s _ hst _ hsim
  exact hsim.step hst

/-- A round of one packet, whose PUBACK comes before the total is printed. -/
def oneRound : List BoardLabel :=
  [.client (.event (.connAck false 0) 1 []) 500, .loop true false 1, .next 2, .next 2, .next 3,
    .next 4, .next 4, .client (.event (.ack .pubAck 1) 5 []) 460, .next 6, .next 7]

theorem loop_of_board_oneRound : ∃ ks s, loopMachine.run ks = some s ∧
    loopMachine.events ks = board.events Options.sensor oneRound ∧
    (Board.mk .idle true 1 0 1 ⟨true, false, false, 4, 0, 0, [], [], 2⟩ 460 []).Simulates s :=
  loop_of_board (by decide +kernel)

end MqttServerTest
