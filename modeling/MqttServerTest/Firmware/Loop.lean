import MqttServerTest.Machine.Simulation
import Mathlib.Algebra.Ring.Nat
import Mathlib.Data.List.Basic
import Mathlib.Data.Nat.Notation

/-!
# The loop of the firmware

`loop` of `MQTT/src/main.cpp` sends a burst of QoS 0 packets, one that ends it, and a burst of QoS 1
packets, waits, prints how many of these have been acknowledged, and resets the counter.  One step
is one call of `publish`, the test that leaves a `for`, the read of `pubacks` for printing, or the
reset; in between, the TCP task may deliver PUBACKs, and the free space of the send buffer and the
connection may change in any way.

`publish` hands nothing to TCP when the client is not connected or the packet does not fit, and the
loop ignores its result.

## Main results

* `loopStep_of_exec` : what a step can do, case by case.
* `burst_sent_iff` : when a round sends the packets that it announces.
* `burst_sent_iff_space` : how much space it needs if none is regained.
-/

namespace MqttServerTest

/-- A packet on the topic `"test"`. -/
structure Packet where
  qos : ℕ
  payload : String
  deriving DecidableEq, Repr

namespace Packet

/-- The packet of the bursts. -/
def pack (qos : ℕ) : Packet := ⟨qos, "pack"⟩

/-- The packet after the QoS 0 burst. -/
def last : Packet := ⟨0, "end"⟩

/-- `neededSpace` in `AsyncMqttClient::publish`, of a packet whose remaining length is written in
one byte. -/
def neededSpace (p : Packet) : ℕ :=
  1 + 1 + 2 + "test".length + (if p.qos = 0 then 0 else 2) + p.payload.length

end Packet

/-- Where the loop task is in `loop`. -/
inductive LoopPc where
  /-- Not in it. -/
  | idle
  /-- At the test of the first `for`. -/
  | qos0 (i : ℕ)
  /-- At the call that sends `"end"`. -/
  | last
  /-- At the test of the second `for`. -/
  | qos1 (i : ℕ)
  /-- At the statement that prints `pubacks`. -/
  | report
  /-- At `pubacks = 0`. -/
  | reset
  deriving DecidableEq, Repr

/-- The loop and what it shares with the MQTT client. -/
structure Loop where
  pc : LoopPc
  randomize : Bool
  randomNum : ℕ
  pubacks : ℕ
  /-- The number of rounds begun. -/
  round : ℕ
  /-- `mqttClient.connected()` -/
  connected : Bool
  /-- The free space of the send buffer. -/
  space : ℕ
  /-- The QoS 1 packets not yet acknowledged, each as the round that has sent it. -/
  inFlight : List ℕ
  deriving DecidableEq, Repr

/-- What happens next. -/
inductive LoopLabel where
  /-- `loop` is called and reads the two buttons; `rand()` would return `rand`. -/
  | loop (button2 button1 : Bool) (rand : ℕ)
  /-- The loop task performs its next step. -/
  | next
  /-- `onMqttPublish` is called for a packet of this round. -/
  | puback (round : ℕ)
  /-- The free space changes. -/
  | room (space : ℕ)
  /-- The connection changes. -/
  | connection (up : Bool)
  deriving DecidableEq, Repr

/-- What can be observed of a step. -/
inductive LoopEvent where
  /-- The loop has printed that it sends `n` packets. -/
  | announced (qos n : ℕ)
  /-- `publish` has been called and has found this much space. -/
  | called (p : Packet) (space : ℕ)
  /-- `publish` has handed a packet to TCP. -/
  | handed (p : Packet)
  /-- `onMqttPublish` has counted a PUBACK for a packet of this round. -/
  | puback (round : ℕ)
  /-- The loop has printed `pubacks` in this round. -/
  | printed (round pubacks : ℕ)
  /-- The loop has set `pubacks` to zero. -/
  | reset
  deriving DecidableEq, Repr

namespace Loop

/-- The state before the first call. -/
def start : Loop := ⟨.idle, false, 0, 0, 0, false, 0, []⟩

/-- `randomize` after the buttons have been read. -/
def readButtons (s : Loop) (button2 button1 : Bool) : Bool :=
  if button2 then true else if button1 then false else s.randomize

/-- `random_num` -/
def chooseNum (s : Loop) (button2 button1 : Bool) (rand : ℕ) : ℕ :=
  if s.readButtons button2 button1 then rand % 2000 else 500

/-- `mqttClient.publish("test", qos, false, payload)`, and where the loop goes on. -/
def publish (s : Loop) (p : Packet) (pc : LoopPc) : Loop × List LoopEvent :=
  if s.connected ∧ p.neededSpace ≤ s.space then
    ({ s with
        pc
        space := s.space - p.neededSpace
        inFlight := if p.qos = 0 then s.inFlight else s.inFlight ++ [s.round] },
      [.called p s.space, .handed p])
  else ({ s with pc }, [.called p s.space])

/-- One step. -/
def exec (s : Loop) : LoopLabel → Option (Loop × List LoopEvent)
  | .loop button2 button1 rand =>
    if s.pc = .idle then
      if s.connected then
        some ({ s with
          pc := .qos0 0
          randomize := s.readButtons button2 button1
          randomNum := s.chooseNum button2 button1 rand
          round := s.round + 1 }, [.announced 0 (s.chooseNum button2 button1 rand)])
      else some (s, [])
    else none
  | .next => match s.pc with
    | .idle => none
    | .qos0 i =>
      if i < s.randomNum then some (s.publish (.pack 0) (.qos0 (i + 1)))
      else some ({ s with pc := .last }, [])
    | .last =>
      some ((s.publish .last (.qos1 0)).1,
        (s.publish .last (.qos1 0)).2 ++ [.announced 1 s.randomNum])
    | .qos1 i =>
      if i < s.randomNum then some (s.publish (.pack 1) (.qos1 (i + 1)))
      else some ({ s with pc := .report }, [])
    | .report => some ({ s with pc := .reset }, [.printed s.round s.pubacks])
    | .reset => some ({ s with pc := .idle, pubacks := 0 }, [.reset])
  | .puback r =>
    if r ∈ s.inFlight then
      some ({ s with pubacks := s.pubacks + 1, inFlight := s.inFlight.erase r }, [.puback r])
    else none
  | .room space => some ({ s with space }, [])
  | .connection up =>
    some ({ s with connected := up, inFlight := if up then s.inFlight else [] }, [])

end Loop

/-- The loop, with the TCP task and the network. -/
def loopMachine : Machine Loop LoopLabel := Machine.ofExec Loop.start Loop.exec

/-- What has been observed of the run `ls`. -/
def loopMachine.events (ls : List LoopLabel) : List LoopEvent :=
  Machine.emitted Loop.start Loop.exec ls

/-! ### What a step can do -/

/-- The packets that a round with `random_num = n` announces. -/
def burst (n : ℕ) : List Packet :=
  List.replicate n (.pack 0) ++ .last :: List.replicate n (.pack 1)

namespace LoopPc

/-- A round has begun and its PUBACKs are not yet printed. -/
def unreported : LoopPc → Bool
  | .qos0 _ | .last | .qos1 _ | .report => true
  | _ => false

/-- The packets that a round with `random_num = n` still has to send. -/
def remaining (n : ℕ) : LoopPc → List Packet
  | .qos0 i => List.replicate (n - i) (.pack 0) ++ .last :: List.replicate n (.pack 1)
  | .last => .last :: List.replicate n (.pack 1)
  | .qos1 i => List.replicate (n - i) (.pack 1)
  | _ => []

/-- What such a round still has to announce. -/
def unannounced (n : ℕ) : LoopPc → List (ℕ × ℕ)
  | .qos0 _ | .last => [(1, n)]
  | _ => []

end LoopPc

/-- The announced levels of service and numbers of packets. -/
def announcements (es : List LoopEvent) : List (ℕ × ℕ) := es.filterMap fun
  | .announced qos n => some (qos, n)
  | _ => none

/-- The calls of `publish`: the packet and the space it found. -/
def calls (es : List LoopEvent) : List (Packet × ℕ) := es.filterMap fun
  | .called p space => some (p, space)
  | _ => none

/-- The packets handed to TCP. -/
def handed (es : List LoopEvent) : List Packet := es.filterMap fun
  | .handed p => some p
  | _ => none

theorem announcements_append (es es' : List LoopEvent) :
    announcements (es ++ es') = announcements es ++ announcements es' := List.filterMap_append

theorem calls_append (es es' : List LoopEvent) : calls (es ++ es') = calls es ++ calls es' :=
  List.filterMap_append

theorem handed_append (es es' : List LoopEvent) : handed (es ++ es') = handed es ++ handed es' :=
  List.filterMap_append

theorem mem_calls {es : List LoopEvent} {p : Packet} {space : ℕ} :
    (p, space) ∈ calls es ↔ .called p space ∈ es := by
  constructor
  · intro h
    obtain ⟨e, he, hec⟩ := List.mem_filterMap.1 h
    cases e with
    | called => cases hec; exact he
    | _ => cases hec
  · intro h
    exact List.mem_filterMap.2 ⟨_, h, rfl⟩

/-- The steps of the loop, case by case. -/
inductive LoopStep (s : Loop) : LoopLabel → Loop → List LoopEvent → Prop
  | notConnected (button2 button1 : Bool) (rand : ℕ) (hc : s.connected = false) :
      LoopStep s (.loop button2 button1 rand) s []
  | begin (button2 button1 : Bool) (rand : ℕ) (hpc : s.pc = .idle) (hc : s.connected = true) :
      LoopStep s (.loop button2 button1 rand)
        { s with
          pc := .qos0 0
          randomize := s.readButtons button2 button1
          randomNum := s.chooseNum button2 button1 rand
          round := s.round + 1 }
        [.announced 0 (s.chooseNum button2 button1 rand)]
  | publish (p : Packet) (pc : LoopPc) (anns : List (ℕ × ℕ)) (hpc : s.pc.unreported = true)
      (hpc' : pc.unreported = true)
      (hrem : s.pc.remaining s.randomNum = p :: pc.remaining s.randomNum)
      (hann : s.pc.unannounced s.randomNum = anns ++ pc.unannounced s.randomNum) :
      LoopStep s .next (s.publish p pc).1
        ((s.publish p pc).2 ++ anns.map fun a => .announced a.1 a.2)
  | leave (pc : LoopPc) (hpc : s.pc.unreported = true) (hpc' : pc.unreported = true)
      (hrem : s.pc.remaining s.randomNum = pc.remaining s.randomNum)
      (hann : s.pc.unannounced s.randomNum = pc.unannounced s.randomNum) :
      LoopStep s .next { s with pc } []
  | report (hpc : s.pc = .report) :
      LoopStep s .next { s with pc := .reset } [.printed s.round s.pubacks]
  | reset (hpc : s.pc = .reset) : LoopStep s .next { s with pc := .idle, pubacks := 0 } [.reset]
  | puback (r : ℕ) (hr : r ∈ s.inFlight) :
      LoopStep s (.puback r) { s with pubacks := s.pubacks + 1, inFlight := s.inFlight.erase r }
        [.puback r]
  | room (space : ℕ) : LoopStep s (.room space) { s with space } []
  | connection (up : Bool) :
      LoopStep s (.connection up)
        { s with connected := up, inFlight := if up then s.inFlight else [] } []

theorem replicate_sub_of_lt {α : Type*} {i n : ℕ} (h : i < n) (a : α) :
    List.replicate (n - i) a = a :: List.replicate (n - (i + 1)) a := by
  rw [← List.replicate_succ]
  congr 1
  omega

/-- A call of `publish` in one of the bursts. -/
theorem loopStep_publish {s s' : Loop} {es : List LoopEvent} {p : Packet} {pc : LoopPc}
    (h : s.publish p pc = (s', es)) (hpc : s.pc.unreported = true) (hpc' : pc.unreported = true)
    (hrem : s.pc.remaining s.randomNum = p :: pc.remaining s.randomNum)
    (hann : s.pc.unannounced s.randomNum = pc.unannounced s.randomNum) :
    LoopStep s .next s' es := by
  have hstep := LoopStep.publish p pc [] hpc hpc' hrem hann
  rw [List.map_nil, List.append_nil, h] at hstep
  exact hstep

/-- The steps of the loop task. -/
theorem loopStep_of_next {s s' : Loop} {es : List LoopEvent}
    (h : s.exec .next = some (s', es)) : LoopStep s .next s' es := by
  obtain ⟨pc, randomize, n, pubacks, round, connected, space, inFlight⟩ := s
  cases pc with
  | idle => cases h
  | qos0 i =>
    simp only [Loop.exec] at h
    split_ifs at h with hi
    · refine loopStep_publish (Option.some.inj h) rfl rfl ?_ rfl
      simp only [LoopPc.remaining, replicate_sub_of_lt hi, List.cons_append]
    · cases h
      refine .leave .last rfl rfl ?_ rfl
      simp only [LoopPc.remaining, Nat.sub_eq_zero_of_le (Nat.not_lt.1 hi), List.replicate_zero,
        List.nil_append]
  | last =>
    cases h
    exact .publish .last (.qos1 0) [(1, n)] rfl rfl rfl rfl
  | qos1 i =>
    simp only [Loop.exec] at h
    split_ifs at h with hi
    · refine loopStep_publish (Option.some.inj h) rfl rfl ?_ rfl
      simp only [LoopPc.remaining, replicate_sub_of_lt hi]
    · cases h
      refine .leave .report rfl rfl ?_ rfl
      simp only [LoopPc.remaining, Nat.sub_eq_zero_of_le (Nat.not_lt.1 hi), List.replicate_zero]
  | report => cases h; exact .report rfl
  | reset => cases h; exact .reset rfl

/-- **What a step can do.** -/
theorem loopStep_of_exec {s s' : Loop} {l : LoopLabel} {es : List LoopEvent}
    (h : s.exec l = some (s', es)) : LoopStep s l s' es := by
  cases l with
  | loop button2 button1 rand =>
    simp only [Loop.exec] at h
    split_ifs at h with hpc hc
    · cases h; exact .begin button2 button1 rand hpc hc
    · cases h; exact .notConnected button2 button1 rand (by simpa using hc)
  | next => exact loopStep_of_next h
  | puback r =>
    simp only [Loop.exec] at h
    split_ifs at h with hr
    cases h; exact .puback r hr
  | room space => cases h; exact .room space
  | connection up => cases h; exact .connection up

/-! ### What `publish` does -/

namespace Loop

variable (s : Loop) (p : Packet) (pc : LoopPc)

@[simp] theorem publish_pc : (s.publish p pc).1.pc = pc := by
  simp only [publish]
  split_ifs <;> rfl

@[simp] theorem publish_randomNum : (s.publish p pc).1.randomNum = s.randomNum := by
  simp only [publish]
  split_ifs <;> rfl

@[simp] theorem publish_connected : (s.publish p pc).1.connected = s.connected := by
  simp only [publish]
  split_ifs <;> rfl

@[simp] theorem publish_round : (s.publish p pc).1.round = s.round := by
  simp only [publish]
  split_ifs <;> rfl

@[simp] theorem publish_pubacks : (s.publish p pc).1.pubacks = s.pubacks := by
  simp only [publish]
  split_ifs <;> rfl

theorem publish_events : (s.publish p pc).2 = [.called p s.space, .handed p] ∨
    (s.publish p pc).2 = [.called p s.space] := by
  simp only [publish]
  by_cases h : s.connected ∧ p.neededSpace ≤ s.space
  · exact Or.inl (by rw [if_pos h])
  · exact Or.inr (by rw [if_neg h])

/-- A packet in flight was in flight before, or is one of the current round. -/
theorem mem_publish_inFlight {r : ℕ} (hr : r ∈ (s.publish p pc).1.inFlight) :
    r ∈ s.inFlight ∨ r = s.round := by
  simp only [publish] at hr
  split_ifs at hr
  · exact Or.inl hr
  · exact (List.mem_append.1 hr).imp id List.mem_singleton.1
  · exact Or.inl hr

theorem calls_publish : calls (s.publish p pc).2 = [(p, s.space)] := by
  simp only [publish]
  split_ifs <;> rfl

theorem handed_publish {s : Loop} (hc : s.connected = true) :
    handed (s.publish p pc).2 = if p.neededSpace ≤ s.space then [p] else [] := by
  simp only [publish, hc, true_and]
  split_ifs <;> rfl

theorem announcements_publish : announcements (s.publish p pc).2 = [] := by
  simp only [publish]
  split_ifs <;> rfl

end Loop

/-! ### One round -/

/-- The label is a call of `loop`. -/
def LoopLabel.isLoop : LoopLabel → Bool
  | .loop _ _ _ => true
  | _ => false

/-- What the rest of a round does while the client stays connected: it calls `publish` for the
remaining packets, and hands over those that fit. -/
structure Sends (s : Loop) (es : List LoopEvent) : Prop where
  order : (calls es).map Prod.fst = s.pc.remaining s.randomNum
  sent : handed es = ((calls es).filter fun c => c.1.neededSpace ≤ c.2).map Prod.fst
  announced : announcements es = s.pc.unannounced s.randomNum

namespace Sends

variable {s s₁ s' : Loop} {es es₁ : List LoopEvent}

/-- A step that calls nothing and announces nothing. -/
theorem keep (h : Sends s₁ es)
    (hrem : s.pc.remaining s.randomNum = s₁.pc.remaining s₁.randomNum)
    (hann : s.pc.unannounced s.randomNum = s₁.pc.unannounced s₁.randomNum)
    (hcalls : calls es₁ = []) (hhanded : handed es₁ = [])
    (hanns : announcements es₁ = []) : Sends s (es₁ ++ es) where
  order := by rw [calls_append, hcalls, List.nil_append, h.order, hrem]
  sent := by rw [handed_append, hhanded, calls_append, hcalls]; exact h.sent
  announced := by rw [announcements_append, hanns, List.nil_append, h.announced, hann]

theorem announcements_map (anns : List (ℕ × ℕ)) :
    announcements (anns.map fun a => LoopEvent.announced a.1 a.2) = anns := by
  rw [announcements, List.filterMap_map]
  exact List.filterMap_some

theorem calls_map (anns : List (ℕ × ℕ)) :
    calls (anns.map fun a => LoopEvent.announced a.1 a.2) = [] := by
  rw [calls, List.filterMap_map]
  exact List.filterMap_eq_nil_iff.2 fun _ _ => rfl

theorem handed_map (anns : List (ℕ × ℕ)) :
    handed (anns.map fun a => LoopEvent.announced a.1 a.2) = [] := by
  rw [handed, List.filterMap_map]
  exact List.filterMap_eq_nil_iff.2 fun _ _ => rfl

/-- A call of `publish`. -/
theorem publish {p : Packet} {pc : LoopPc} {anns : List (ℕ × ℕ)} (hc : s.connected = true)
    (h : Sends (s.publish p pc).1 es)
    (hrem : s.pc.remaining s.randomNum = p :: pc.remaining s.randomNum)
    (hann : s.pc.unannounced s.randomNum = anns ++ pc.unannounced s.randomNum) :
    Sends s (((s.publish p pc).2 ++ anns.map fun a => .announced a.1 a.2) ++ es) where
  order := by
    rw [calls_append, calls_append, Loop.calls_publish, calls_map, List.append_nil,
      List.map_append, h.order, Loop.publish_pc, Loop.publish_randomNum, hrem]
    rfl
  sent := by
    rw [handed_append, handed_append, Loop.handed_publish p pc hc, handed_map, List.append_nil,
      calls_append, calls_append, Loop.calls_publish, calls_map, List.append_nil,
      List.filter_append, List.map_append, h.sent]
    by_cases hfit : p.neededSpace ≤ s.space <;> simp [hfit]
  announced := by
    rw [announcements_append, announcements_append, Loop.announcements_publish, announcements_map,
      List.nil_append, h.announced, Loop.publish_pc, Loop.publish_randomNum, hann]

/-- What the rest of a round does, up to its end. -/
theorem of_execFrom {ks : List LoopLabel} (h : Machine.execFrom Loop.exec s ks = some (s', es))
    (hc : s.connected = true) (hone : ∀ l ∈ ks, l.isLoop = false) (hstay : .connection false ∉ ks)
    (hend : s'.pc = .idle) : Sends s es := by
  revert hc
  -- on the steps; each one is put before what the rest does
  refine Machine.execFrom_induction (P := fun s es => s.connected = true → Sends s es)
    (G := fun l => l.isLoop = false ∧ l ≠ .connection false) ?_ ?_ h fun l hl =>
      ⟨hone l hl, ne_of_mem_of_not_mem hl hstay⟩
  · intro _
    refine ⟨?_, rfl, ?_⟩ <;> rw [hend] <;> rfl
  · intro s l s₁ es₁ es ⟨hl, hup⟩ hst hrest hc
    cases loopStep_of_exec hst with
    | notConnected => cases hl
    | begin => cases hl
    | publish p pc anns _ _ hrem hann =>
      exact publish hc (hrest (by rw [Loop.publish_connected, hc])) hrem hann
    | leave pc _ _ hrem hann => exact (hrest hc).keep hrem hann rfl rfl rfl
    | report hpc => exact (hrest hc).keep (by rw [hpc]; rfl) (by rw [hpc]; rfl) rfl rfl rfl
    | reset hpc => exact (hrest hc).keep (by rw [hpc]; rfl) (by rw [hpc]; rfl) rfl rfl rfl
    | puback r => exact (hrest hc).keep rfl rfl rfl rfl rfl
    | room space => exact (hrest hc).keep rfl rfl rfl rfl rfl
    | connection up =>
      cases up with
      | true => exact (hrest rfl).keep rfl rfl rfl rfl rfl
      | false => exact absurd rfl hup

/-- All of the rest is handed over if every call finds enough space. -/
theorem handed_eq_iff (h : Sends s es) : handed es = s.pc.remaining s.randomNum ↔
    ∀ c ∈ calls es, c.1.neededSpace ≤ c.2 := by
  rw [h.sent, ← h.order]
  constructor
  · intro hall c hmem
    -- as many packets have been handed over as calls made
    have hlen := congrArg List.length hall
    rw [List.length_map, List.length_map, List.length_filter_eq_length_iff] at hlen
    exact of_decide_eq_true (hlen c hmem)
  · intro hall
    rw [List.filter_eq_self.2 fun c hmem => decide_eq_true (hall c hmem)]

end Sends

/-- The round that a call of `loop` begins. -/
theorem round_of_execFrom {s s' : Loop} {button2 button1 : Bool} {rand : ℕ} {ks : List LoopLabel}
    {es : List LoopEvent} (hpc : s.pc = .idle) (hc : s.connected = true)
    (h : Machine.execFrom Loop.exec s (.loop button2 button1 rand :: ks) = some (s', es)) :
    ∃ t es', Machine.execFrom Loop.exec t ks = some (s', es') ∧
      es = .announced 0 (s.chooseNum button2 button1 rand) :: es' ∧ t.pc = .qos0 0 ∧
      t.randomNum = s.chooseNum button2 button1 rand ∧ t.connected = true ∧
      t.space = s.space := by
  obtain ⟨t, es₁, es', hl, ht, rfl⟩ := Machine.exists_of_execFrom_cons h
  simp only [Loop.exec, hpc, hc, ↓reduceIte] at hl
  cases hl
  exact ⟨_, es', ht, rfl, rfl, rfl, rfl, rfl⟩

/-- What a round announces, and when it hands over the packets that it announces. -/
theorem handed_burst_iff {s s' : Loop} {button2 button1 : Bool} {rand : ℕ} {ks : List LoopLabel}
    {es : List LoopEvent} (hpc : s.pc = .idle) (hc : s.connected = true)
    (h : Machine.execFrom Loop.exec s (.loop button2 button1 rand :: ks) = some (s', es))
    (hone : ∀ l ∈ ks, l.isLoop = false) (hstay : .connection false ∉ ks)
    (hend : s'.pc = .idle) :
    announcements es = [(0, s.chooseNum button2 button1 rand),
        (1, s.chooseNum button2 button1 rand)] ∧
      (handed es = burst (s.chooseNum button2 button1 rand) ↔
        ∀ c ∈ calls es, c.1.neededSpace ≤ c.2) := by
  obtain ⟨t, es', ht, rfl, htpc, htnum, htc, -⟩ := round_of_execFrom hpc hc h
  have hsends := Sends.of_execFrom ht htc hone hstay hend
  have hann := hsends.announced
  have hiff := hsends.handed_eq_iff
  rw [htpc, htnum] at hann hiff
  exact ⟨congrArg (List.cons _) hann, hiff⟩

/-- **When a round sends what it announces.**  While the client stays connected, one execution of
`loop` with `random_num = n` announces `n` packets of either level; it hands over `n` QoS 0 packets
`"pack"`, then `"end"`, then `n` QoS 1 packets exactly if every call of `publish` finds enough free
space for its packet. -/
theorem burst_sent_iff {s s' : Loop} {button2 button1 : Bool} {rand n : ℕ}
    {ks : List LoopLabel} {es : List LoopEvent} (hpc : s.pc = .idle) (hc : s.connected = true)
    (hn : n = s.chooseNum button2 button1 rand)
    (h : Machine.execFrom Loop.exec s (.loop button2 button1 rand :: ks) = some (s', es))
    (hone : ∀ l ∈ ks, l.isLoop = false) (hstay : .connection false ∉ ks)
    (hend : s'.pc = .idle) :
    announcements es = [(0, n), (1, n)] ∧
      (handed es = burst n ↔ ∀ p space, .called p space ∈ es → p.neededSpace ≤ space) := by
  subst hn
  obtain ⟨hann, hiff⟩ := handed_burst_iff hpc hc h hone hstay hend
  refine ⟨hann, hiff.trans ⟨fun hall p space hmem => ?_, fun hall c hmem => ?_⟩⟩
  · exact hall (p, space) (mem_calls.2 hmem)
  · exact hall c.1 c.2 (mem_calls.1 hmem)

/-- The client is connected and this much space is free. -/
def readyLoop (space : ℕ) : List LoopLabel := [.connection true, .room space]

theorem burst_sent_iff_enough : ∃ s s' es, loopMachine.run (readyLoop 63) = some s ∧
    Machine.execFrom Loop.exec s (.loop true false 2 :: List.replicate 9 .next) = some (s', es) ∧
    announcements es = [(0, 2), (1, 2)] ∧
    (handed es = burst 2 ↔ ∀ p space, .called p space ∈ es → p.neededSpace ≤ space) := by
  refine ⟨⟨.idle, false, 0, 0, 0, true, 63, []⟩, _, _, rfl, rfl, ?_⟩
  exact @burst_sent_iff ⟨.idle, false, 0, 0, 0, true, 63, []⟩ _ true false 2 2
    (List.replicate 9 .next) _ rfl rfl rfl rfl (by decide) (by decide) rfl

/-- A round of two packets finds space for the first burst only. -/
theorem burst_not_sent : ¬ ∀ ls s s' button2 button1 rand ks es, loopMachine.run ls = some s →
    s.pc = .idle → s.connected = true →
    Machine.execFrom Loop.exec s (.loop button2 button1 rand :: ks) = some (s', es) →
    (∀ l ∈ ks, l.isLoop = false) → .connection false ∉ ks → s'.pc = .idle →
    handed es = burst (s.chooseNum button2 button1 rand) := by
  intro h
  have hsent := h (readyLoop 24) _ _ true false 2 (List.replicate 9 .next) _ rfl rfl rfl rfl
    (by decide) (by decide) rfl
  revert hsent
  decide

/-! ### Rounds in which no space is regained -/

/-- The space that the packets take in the send buffer. -/
def spaceOf (ps : List Packet) : ℕ := (ps.map Packet.neededSpace).sum

theorem spaceOf_burst (n : ℕ) : spaceOf (burst n) = 26 * n + 11 := by
  have hpack₀ : (Packet.pack 0).neededSpace = 12 := rfl
  have hlast : Packet.last.neededSpace = 11 := rfl
  have hpack₁ : (Packet.pack 1).neededSpace = 14 := rfl
  simp only [spaceOf, burst, List.map_append, List.map_cons, List.map_replicate, hpack₀, hlast,
    hpack₁, List.sum_append_nat, List.sum_cons, List.sum_replicate_nat]
  omega

/-- A call of `publish` that is followed by calls for `ps`. -/
theorem fits_publish {s : Loop} {p : Packet} {pc : LoopPc} {ps : List Packet} {rest : Prop}
    (hc : s.connected = true) (hrest : rest ↔ spaceOf ps ≤ (s.publish p pc).1.space) :
    (p.neededSpace ≤ s.space ∧ rest) ↔ spaceOf (p :: ps) ≤ s.space := by
  have hsum : spaceOf (p :: ps) = p.neededSpace + spaceOf ps := by
    rw [spaceOf, List.map_cons, List.sum_cons]
    rfl
  rw [hrest, hsum]
  by_cases hfit : p.neededSpace ≤ s.space
  · have hspace : (s.publish p pc).1.space = s.space - p.neededSpace := by
      simp only [Loop.publish, hc, hfit, and_self, ↓reduceIte]
    rw [hspace]
    omega
  · exact iff_of_false (fun h => hfit h.1) (by omega)

/-- Unless space is regained, every call finds enough exactly if there is enough for all. -/
theorem fits_iff {s s' : Loop} {ks : List LoopLabel} {es : List LoopEvent}
    (h : Machine.execFrom Loop.exec s ks = some (s', es)) (hc : s.connected = true)
    (hone : ∀ l ∈ ks, l.isLoop = false) (hstay : .connection false ∉ ks)
    (hroom : ∀ space, .room space ∉ ks) (hend : s'.pc = .idle) :
    (∀ c ∈ calls es, c.1.neededSpace ≤ c.2) ↔ spaceOf (s.pc.remaining s.randomNum) ≤ s.space := by
  revert hc
  refine Machine.execFrom_induction (P := fun s es => s.connected = true →
      ((∀ c ∈ calls es, c.1.neededSpace ≤ c.2) ↔ spaceOf (s.pc.remaining s.randomNum) ≤ s.space))
    (G := fun l => l.isLoop = false ∧ l ≠ .connection false ∧ ∀ space, l ≠ .room space)
    ?_ ?_ h fun l hl => ⟨hone l hl, ne_of_mem_of_not_mem hl hstay, fun space =>
      ne_of_mem_of_not_mem hl (hroom space)⟩
  · intro _
    rw [hend]
    exact iff_of_true (fun c hmem => by cases hmem) (Nat.zero_le _)
  · intro s l s₁ es₁ es ⟨hl, hup, hfull⟩ hst hrest hc
    rw [calls_append]
    cases loopStep_of_exec hst with
    | notConnected => cases hl
    | begin => cases hl
    | publish p pc anns _ _ hrem =>
      have hrest' := hrest (by rw [Loop.publish_connected, hc])
      rw [Loop.publish_pc, Loop.publish_randomNum] at hrest'
      rw [calls_append, Loop.calls_publish, Sends.calls_map, hrem, ← fits_publish hc hrest']
      exact List.forall_mem_cons
    | leave pc _ _ hrem => rw [hrem]; exact hrest hc
    | report hpc => rw [hpc]; exact hrest hc
    | reset hpc => rw [hpc]; exact hrest hc
    | puback r => exact hrest hc
    | room space => exact absurd rfl (hfull space)
    | connection up =>
      cases up with
      | true => exact hrest rfl
      | false => exact absurd rfl hup

/-- **What a round needs.**  While the client stays connected and no space is regained, a round with
`random_num = n` hands over what it announces exactly if `26 * n + 11` bytes are free when it
begins. -/
theorem burst_sent_iff_space {s s' : Loop} {button2 button1 : Bool} {rand n : ℕ}
    {ks : List LoopLabel} {es : List LoopEvent} (hpc : s.pc = .idle) (hc : s.connected = true)
    (hn : n = s.chooseNum button2 button1 rand)
    (h : Machine.execFrom Loop.exec s (.loop button2 button1 rand :: ks) = some (s', es))
    (hone : ∀ l ∈ ks, l.isLoop = false) (hstay : .connection false ∉ ks)
    (hroom : ∀ space, .room space ∉ ks) (hend : s'.pc = .idle) :
    handed es = burst n ↔ 26 * n + 11 ≤ s.space := by
  subst hn
  rw [(handed_burst_iff hpc hc h hone hstay hend).2, ← spaceOf_burst]
  obtain ⟨t, es', ht, rfl, htpc, htnum, htc, htspace⟩ := round_of_execFrom hpc hc h
  have hfits := fits_iff ht htc hone hstay hroom hend
  rw [htpc, htnum, htspace] at hfits
  exact hfits

end MqttServerTest
