import MqttServerTest.Spec.Recorder
import MqttServerTest.Server.History
import Mathlib.Data.Multiset.AddSub

/-!
# No measurement is lost or duplicated

The server is a recorder of gaps: the rows it has committed and the gaps in its two lists are what
a recorder has stored and has pending after the observed operations, up to the order in which a
batch is written (`World.recorder_perm`).  Committed and buffered gaps together are therefore the
gaps ever appended, each as often as it was appended, whatever the database does to the ticks
(`gaps_conserved`).
-/

namespace MqttServerTest

/-- The gaps in the committed rows of the session `sesId`. -/
def Db.gaps (db : Db) (sesId : ℕ) : List Int64 :=
  (db.times.vals.filter fun v => v.sessionId = sesId).map Time.time

/-! ### The server as a recorder -/

section Operations

variable {α : Type*} (val : Record → α)

/-- What an observation is to a recorder of the values `val`. -/
def Event.op? : Event → Option (Recorder.Op α)
  | .recorded r => some (.record (val r))
  | .committed _ => some .flush
  | _ => none

/-- What the observations are to a recorder of the values `val`. -/
def operations (es : List Event) : List (Recorder.Op α) := es.filterMap (Event.op? val)

theorem recorded_operations (es : List Event) :
    Recorder.recorded (operations val es) = (appended es).map val := by
  rw [Recorder.recorded, operations, List.filterMap_filterMap, appended, List.map_filterMap]
  refine List.filterMap_congr fun e _ => ?_
  cases e <;> rfl

theorem operations_snoc (es : List Event) (e : Event) :
    operations val (es ++ [e]) = operations val es ++ (e.op? val).toList := by
  rw [operations, List.filterMap_append, ← operations]
  cases e <;> rfl

/-- What a recorder has pending is what has been recorded since the last commit. -/
theorem pending_operations (es : List Event) :
    (Recorder.perform (operations val es)).pending = (window es).map val := by
  induction es using List.reverseRecOn with
  | nil => rfl
  | append_singleton es e ih =>
    rw [operations_snoc]
    cases e with
    | recorded r =>
      rw [window_append (by simp [Event.isCommit]), List.map_append, ← ih]
      exact congrArg Recorder.pending (Recorder.perform_snoc _ (.record (val r)))
    | committed vs =>
      rw [window, sinceCommit_committed]
      exact congrArg Recorder.pending (Recorder.perform_snoc _ .flush)
    | _ =>
      rw [window_append (by simp [Event.isCommit]), List.map_append, ← ih]
      simp only [Event.op?, Option.toList_none, List.append_nil]
      exact (List.append_nil _).symm

/-- What a recorder has stored are the columns `col` of the committed rows, if those of each commit
are the values recorded since the one before. -/
theorem stored_operations {col : Time → α} {es : List Event}
    (hc : ∀ pre vs, CommitAt es pre vs → (vs.map col).Perm ((window pre).map val)) :
    ((committedRows es).map col).Perm (Recorder.perform (operations val es)).stored := by
  induction es using List.reverseRecOn with
  | nil => exact List.Perm.refl _
  | append_singleton es e ih =>
    have ih' := ih fun pre vs h => hc pre vs (h.append [e])
    rw [operations_snoc, committedRows_append, List.map_append]
    cases e with
    | recorded r =>
      rw [show (Event.recorded r).op? val = some (.record (val r)) from rfl, Option.toList_some,
        Recorder.perform_snoc]
      exact (List.append_nil _).symm ▸ ih'
    | committed vs =>
      have hvs := hc es vs ⟨[], rfl⟩
      rw [← pending_operations] at hvs
      rw [show (Event.committed vs).op? val = some .flush from rfl, Option.toList_some,
        Recorder.perform_snoc, committedRows_committed]
      exact ih'.append hvs
    | _ =>
      simp only [Event.op?, Option.toList_none, List.append_nil]
      exact (List.append_nil _).symm ▸ ih'

end Operations

/-- The server as a recorder of gaps. -/
def World.recorder (w : World) : Recorder Int64 := ⟨w.db.gaps w.sesId, w.buffers.gaps⟩

/-- **The server is a recorder of gaps**, up to the order of the gaps in a batch. -/
theorem World.recorder_perm {keepsGoing : Bool} {ls : List Label} {w : World}
    (h : (server keepsGoing).run ls = some w) : w.recorder.Perm
      (Recorder.perform (operations Record.gap (server.events keepsGoing ls))) where
  stored := by
    have hs := Stores.of_run h
    have hgaps : w.db.gaps w.sesId =
        (committedRows (server.events keepsGoing ls)).map Time.time := by
      rw [Db.gaps, hs.times, List.filter_eq_self.2 fun v hv => decide_eq_true (hs.session v hv)]
    rw [World.recorder, hgaps]
    refine stored_operations _ fun pre vs hc => ?_
    -- a commit writes the gaps that the lists hold, and these are those in the window
    obtain ⟨ks, w₀, faults, db, hks, rfl, -, hr⟩ := flush_of_commitAt h hc
    rw [Buffers.newTimes_time (World.flush_ok_db hr).1]
    exact w₀.buffers.bothTimes_perm.trans (Tracks.of_run hks).gaps_perm
  pending := by
    rw [pending_operations]
    exact (Tracks.of_run h).gaps_perm

/-- A tick that throws changes neither the buffers nor what the database holds. -/
theorem tick_throws {keepsGoing : Bool} {w w' : World} {faults : Faults} {es : List Event}
    {e : Failure Thrown} (h : w.exec keepsGoing (.tick faults) = some (w', es))
    (he : .threw e ∈ es) : w'.buffers = w.buffers ∧ w'.db.devices = w.db.devices ∧
      w'.db.sessions = w.db.sessions ∧ w'.db.times.rows = w.db.times.rows := by
  cases step_of_exec h with
  | handle _ _ _ _ _ _ hl => rcases hl with ⟨hl, -⟩ | ⟨hl, -⟩ <;> cases hl
  | tickNothing => cases he
  | tickNoGaps => exact ⟨rfl, rfl, rfl, rfl⟩
  | tickFails _ _ _ hr => exact ⟨rfl, World.flush_error_db hr⟩
  | tickCommits => simp at he

/-- **No measurement is lost or duplicated.**  After every run the gaps in the rows committed
under this session and the gaps still in the two lists are together the gaps ever appended to the
lists, and a tick that throws leaves the lists, the map, `pubackSent` and the tables as they
were. -/
theorem gaps_conserved {keepsGoing : Bool} {ls : List Label} {w : World}
    (h : (server keepsGoing).run ls = some w) :
    (w.db.gaps w.sesId : Multiset Int64) + (w.buffers.gaps : Multiset Int64) =
        ((appended (server.events keepsGoing ls)).map Record.gap : List Int64) ∧
      ∀ faults w' es e, w.exec keepsGoing (.tick faults) = some (w', es) → .threw e ∈ es →
        w'.buffers = w.buffers ∧ w'.db.devices = w.db.devices ∧
          w'.db.sessions = w.db.sessions ∧ w'.db.times.rows = w.db.times.rows := by
  refine ⟨?_, ?_⟩
  · have hr := (World.recorder_perm h).recorded
    rw [recorded_operations] at hr
    exact (Multiset.coe_add _ _).trans (Multiset.coe_eq_coe.2 hr)
  · intro faults w' es e ht he
    exact tick_throws ht he

/-- Two packets of one device, a tick that fails and one that commits after a retry. -/
def conservedRun : List Label :=
  [.connect ⟨"10.0.0.2", "esp", .nothing⟩, .atMostOnce 0 (-1) 5, .atMostOnce 0 (-1) 9,
    .tick ⟨[1], some 0⟩, .tick ⟨[1, 0], none⟩]

theorem gaps_conserved_retry : ∃ w, (server true).run conservedRun = some w ∧
    (w.db.gaps w.sesId : Multiset Int64) + (w.buffers.gaps : Multiset Int64) =
      ((appended (server.events true conservedRun)).map Record.gap : List Int64) :=
  ⟨_, rfl, (@gaps_conserved true conservedRun _ rfl).1⟩

end MqttServerTest
