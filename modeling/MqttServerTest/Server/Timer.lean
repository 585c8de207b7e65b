import MqttServerTest.Server.System

/-!
# The timer

An exception that leaves the task cancels the timer.  The gaps of a failed flush stay in the lists,
but no later tick commits them (`flushes_after_failure_iff`).
-/

namespace MqttServerTest

variable {keepsGoing : Bool} {ls : List Label} {w w' : World}

/-! ### After a failure -/

/-- The step `l` is a tick that throws: its guard holds, and there are no gaps or the database
fails. -/
def World.Fails (w : World) : Label → Bool
  | .tick faults => w.buffers.guard && (w.buffers.bothTimes.isEmpty || faults.fatal.isSome)
  | _ => false

/-- The number of ticks of a run that have thrown. -/
def server.failures (ls : List Label) : ℕ :=
  (server false).history (fun n w l => if w.Fails l then n + 1 else n) 0 ls

/-- A tick cancels the timer exactly if it `Fails`. -/
theorem Step.scheduled_iff {l : Label} {es : List Event} (hst : Step false w l w' es)
    (hw : w.Valid) : w'.scheduled = true ↔ w.scheduled = true ∧ w.Fails l = false := by
  cases hst with
  | connect a => simp [World.Fails]
  | handle i e level m curr _ hl =>
    have hf : w.Fails l = false := by
      rcases hl with ⟨rfl, -⟩ | ⟨rfl, -⟩ <;> rfl
    rw [hf, eq_self, and_true]; rfl
  | tickNothing faults _ hg => simp [World.Fails, hg]
  | tickNoGaps faults _ hg hb => simp [World.Fails, hg, hb]
  | tickFails faults _ hb hr =>
    -- the flush does not fail on its own data, so the database has failed
    have hf : faults.fatal ≠ none := by
      intro hf
      obtain ⟨db, vs, hok⟩ := hw.flush_commits hf
      rw [hr] at hok
      simp at hok
    have hg := guard_of_bothTimes hb
    simp [World.Fails, hg, Option.isSome_iff_ne_none.2 hf]
  | tickCommits vs faults hs hb hr =>
    have hf : faults.fatal = none := (Transaction.run_ok hr).1
    simp [World.Fails, hs, hf, hb]
  | _ => simp [World.Fails, World.moveTo]

/-- The timer is alive exactly if no tick has thrown. -/
theorem scheduled_iff_failures (h : (server false).run ls = some w) :
    w.scheduled = true ↔ server.failures ls = 0 := by
  refine Machine.history_invariant (I := fun w n => w.scheduled = true ↔ n = 0)
    (iff_of_true rfl rfl) ?_ h
  intro w n l w' hr hI hst
  -- the counter of the history variable moves with the flag of the timer
  obtain ⟨es, hes⟩ := Machine.ofExec_step.1 hst
  rw [(step_of_exec hes).scheduled_iff (.of_reachable hr), hI]
  cases w.Fails l <;> simp

/-- A tick whose flush commits. -/
theorem World.exec_of_flush {faults : Faults} {db : Db} {vs : List Time}
    (hs : w.scheduled = true) (hb : w.buffers.bothTimes ≠ [])
    (hr : (w.buffers.flushTransaction w.sesId).run faults w.db = (db, .ok vs)) :
    w.exec keepsGoing (.tick faults) =
      some ({ w with db, buffers := w.buffers.clear }, [.committed vs]) := by
  obtain ⟨st, hst⟩ := statistics_ok_iff.2 hb
  simp only [World.exec, World.tick, hs, guard_of_bothTimes hb, hst, hr, ↓reduceIte]

/-- The step `.tick faults` commits every buffered gap and empties the lists. -/
def World.Flushes (w : World) (faults : Faults) : Prop :=
  ∃ w' vs, w.exec false (.tick faults) = some (w', [.committed vs]) ∧
    (vs.map Time.time).Perm w.buffers.gaps ∧ w'.db.times.vals = w.db.times.vals ++ vs ∧
    w'.buffers.packetsALO = [] ∧ w'.buffers.packetsAMO = []

/-- **Flushes after a failure.**  After every run, with gaps in the lists, a tick at which the
database works commits them all and empties the lists exactly if no tick has thrown before. -/
theorem flushes_after_failure_iff {faults : Faults} (h : (server false).run ls = some w)
    (hp : 0 < w.buffers.packetsALO.length ∨ 0 < w.buffers.packetsAMO.length)
    (hf : faults.fatal = none) : w.Flushes faults ↔ server.failures ls = 0 := by
  rw [← scheduled_iff_failures h]
  constructor
  · rintro ⟨w', vs, he, -⟩
    by_contra hs
    simp [World.exec, hs] at he
  · intro hs
    have hv : w.Valid := .of_reachable (.of_run h)
    have hb : w.buffers.bothTimes ≠ [] := by
      rw [Buffers.bothTimes_ne_nil_iff, ← List.length_pos_iff, List.length_append]
      omega
    obtain ⟨db, vs, hr⟩ := hv.flush_commits hf
    obtain ⟨hn, -, ht, -⟩ := World.flush_ok_db hr
    refine ⟨_, vs, World.exec_of_flush hs hb hr, ?_, ht, rfl, rfl⟩
    rw [Buffers.newTimes_time hn]
    exact w.buffers.bothTimes_perm

/-- Three packets of one device, with a tick at which the database fails before the third. -/
def failedFlushRun : List Label :=
  [.connect ⟨"10.0.0.2", "esp", .nothing⟩, .atMostOnce 0 (-1) 1000, .atMostOnce 0 (-1) 2000,
    .tick ⟨[], some 0⟩, .atMostOnce 0 (-1) 3000]

theorem flushes_after_failure_iff_failed : ∃ w, (server false).run failedFlushRun = some w ∧
    (w.Flushes .nothing ↔ server.failures failedFlushRun = 0) :=
  ⟨_, rfl, @flushes_after_failure_iff failedFlushRun _ .nothing rfl (by decide) rfl⟩

theorem no_flush_after_failure : ¬ ∀ ls w faults, (server false).run ls = some w →
    0 < w.buffers.packetsALO.length ∨ 0 < w.buffers.packetsAMO.length → faults.fatal = none →
    w.Flushes faults := by
  intro h
  obtain ⟨w', vs, he, -⟩ := h failedFlushRun _ .nothing rfl (by decide) rfl
  cases he

end MqttServerTest
