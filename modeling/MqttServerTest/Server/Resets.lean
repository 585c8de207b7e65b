import MqttServerTest.Server.Threads
import Mathlib.Algebra.BigOperators.Group.List.Basic
import Mathlib.Algebra.Ring.Nat

/-!
# Flushes and resets

`cancel.php` sets the counters of the session to zero whenever the lock on their row is free, in
the middle of a flush too.  The counters are always the numbers of pairs written by the flushes
that have committed since the last reset (`counters_since_reset`): the `UPDATE` of a flush adds to
the latest committed row and holds its lock until the attempt ends, so a reset is either before
the `UPDATE`, which then adds to zero, or after the commit.

What the flushes have written is recorded in a `Ledger`, a history variable.
-/

namespace MqttServerTest

/-- A flush that has committed. -/
structure Flushed where
  /-- The number of pairs of `packetsAMO` it has written. -/
  qos0 : ℕ
  /-- The number of pairs of `packetsALO` it has written. -/
  qos1 : ℕ
  /-- The number of resets before its `UPDATE`. -/
  resets : ℕ
  deriving DecidableEq, Repr

/-- What has been written and reset in a run. -/
structure Ledger where
  /-- The number of resets. -/
  resets : ℕ
  /-- The numbers of pairs of the two lists that the latest batch insert has written. -/
  written : ℕ × ℕ
  /-- The number of resets before the latest `UPDATE` of a flush. -/
  updatedAt : ℕ
  flushes : List Flushed

namespace Ledger

def start : Ledger := ⟨0, (0, 0), 0, []⟩

/-- The counters have been reset. -/
def reset (g : Ledger) : Ledger := { g with resets := g.resets + 1 }

/-- The flush under way has committed. -/
def commit (g : Ledger) : Ledger :=
  { g with flushes := g.flushes ++ [⟨g.written.1, g.written.2, g.updatedAt⟩] }

/-- The statement `l` is performed in `s`. -/
def next (g : Ledger) (s : Threads) : Micro → Ledger
  | .other .cancel => g.reset
  | .insert =>
    { g with written := (s.world.buffers.packetsAMO.length, s.world.buffers.packetsALO.length) }
  | .update => { g with updatedAt := g.resets }
  | .commit => g.commit
  | _ => g

/-- The committed flushes whose `UPDATE` was after the last reset. -/
def sinceReset (g : Ledger) : List Flushed := g.flushes.filter fun f => f.resets = g.resets

end Ledger

/-- The ledger after the run `ls`. -/
def threads.ledger (keepsGoing : Bool) (ls : List Micro) : Ledger :=
  (threads keepsGoing).history Ledger.next Ledger.start ls

/-- The ledger agrees with the attempt under way. -/
def Ledger.Attempt (g : Ledger) (s : Threads) : Prop :=
  match s.pc with
  | .inserted _ | .prepared _ _ =>
    g.written = (s.world.buffers.packetsAMO.length, s.world.buffers.packetsALO.length)
  | .updated _ _ _ =>
    g.written = (s.world.buffers.packetsAMO.length, s.world.buffers.packetsALO.length) ∧
      g.updatedAt = g.resets
  | _ => True

/-- The counters are what the ledger says. -/
structure Ledger.Agrees (g : Ledger) (s : Threads) : Prop where
  row : ∃ r, s.row = some r ∧ r.qos0Packets = (g.sinceReset.map Flushed.qos0).sum ∧
    r.qos1Packets = (g.sinceReset.map Flushed.qos1).sum
  past : ∀ f ∈ g.flushes, f.resets ≤ g.resets
  attempt : g.Attempt s
  /-- The flushes have written every row of `Times`. -/
  times : s.world.db.times.vals.length = (g.flushes.map fun f => f.qos0 + f.qos1).sum

namespace Ledger.Agrees

variable {keepsGoing : Bool} {g : Ledger} {s s' : Threads} {l : Micro} {es : List Event}

theorem start : Ledger.start.Agrees Threads.start where
  row := ⟨⟨0, 0, 0⟩, by decide, rfl, rfl⟩
  past f hf := by cases hf
  attempt := trivial
  times := rfl

/-- A statement that writes nothing to the tables. -/
theorem keep {g' : Ledger} (h : g.Agrees s) (hres : g'.resets = g.resets)
    (hfl : g'.flushes = g.flushes) (hses : s'.world.sesId = s.world.sesId)
    (hs : s'.world.db.sessions = s.world.db.sessions)
    (ht : s'.world.db.times.vals = s.world.db.times.vals) (ha : g'.Attempt s') : g'.Agrees s' where
  row := by
    have hrow : s'.row = s.row := by simp only [Threads.row, hses, hs]
    have hsince : g'.sinceReset = g.sinceReset := by simp only [Ledger.sinceReset, hres, hfl]
    rw [hrow, hsince]; exact h.row
  past := by rw [hres, hfl]; exact h.past
  attempt := ha
  times := by rw [ht, hfl]; exact h.times

/-- After a reset no flush counts. -/
theorem reset (h : g.Agrees s)
    (ha : g.reset.Attempt ⟨{ s.world with db := s.world.db.cancel }, s.pc⟩) :
    g.reset.Agrees ⟨{ s.world with db := s.world.db.cancel }, s.pc⟩ where
  row := by
    obtain ⟨r, hr, -⟩ := h.row
    have hnil : g.reset.sinceReset = [] := by
      refine List.filter_eq_nil_iff.2 fun f hf => ?_
      have hle := h.past f hf
      rw [decide_eq_true_eq]
      show ¬ f.resets = g.resets + 1
      omega
    refine ⟨⟨0, 0, 0⟩, ?_, by rw [hnil]; rfl, by rw [hnil]; rfl⟩
    show s.world.db.cancel.sessions.get? s.world.sesId = _
    rw [Db.cancel_get?, show s.world.db.sessions.get? s.world.sesId = some r from hr]
    rfl
  past f hf := Nat.le_succ_of_le (h.past f hf)
  attempt := ha
  times := h.times

/-- A commit adds the pairs written to the counters. -/
theorem commit {db : Db} {vs : List Time} {a : Session} {row : Option Session} (h : g.Agrees s)
    (hheld : s.Held) (hpc : s.pc = .updated vs a row) (hdb : s.world.db.batchInsert vs = .ok db) :
    g.commit.Agrees ⟨{ s.world with db := db.writeSession s.world.sesId row }, .committed a⟩ := by
  obtain ⟨r, hr, h₀, h₁⟩ := h.row
  obtain ⟨-, -, ht⟩ := Db.batchInsert_ok hdb
  have hrow := Threads.row_commit hheld hpc hdb
  rw [hr] at hrow
  have hatt := h.attempt
  simp only [Ledger.Attempt, hpc] at hatt
  obtain ⟨hw, hu⟩ := hatt
  simp only [Threads.Held, hpc] at hheld
  obtain ⟨hn, ha₀, ha₁, -⟩ := hheld
  -- the attempt has inserted one row for every pair of the two lists
  have hlen : vs.length =
      s.world.buffers.packetsALO.length + s.world.buffers.packetsAMO.length := by
    rw [← (Buffers.newTimes_ok hn).length_eq, s.world.buffers.sorted_perm.length_eq,
      List.length_append]
  have hsince : g.commit.sinceReset =
      g.sinceReset ++ [⟨g.written.1, g.written.2, g.updatedAt⟩] := by
    simp [Ledger.sinceReset, Ledger.commit, List.filter_append, hu]
  refine ⟨⟨r.add a, hrow, ?_, ?_⟩, ?_, trivial, ?_⟩
  · rw [hsince, List.map_append, List.sum_append, ← h₀, hw]
    show r.qos0Packets + a.qos0Packets = _
    simp [ha₀]
  · rw [hsince, List.map_append, List.sum_append, ← h₁, hw]
    show r.qos1Packets + a.qos1Packets = _
    simp [ha₁]
  · intro f hf
    rcases List.mem_append.1 hf with hf | hf
    · exact h.past f hf
    · rw [List.mem_singleton.1 hf]; exact Nat.le_of_eq hu
  · show db.times.vals.length = _
    rw [ht, Table.insertAll_vals, List.length_append, h.times, hlen]
    simp [Ledger.commit, hw, Nat.add_comm]

/-- Another thread moves. -/
theorem other {w : World} {l : Label} (h : g.Agrees s) (ha : s.pc.admits l = true)
    (hst : Step keepsGoing s.world l w es) : (g.next s (.other l)).Agrees ⟨w, s.pc⟩ := by
  -- the lists do not change while the lock is held
  have hatt : g.Attempt ⟨w, s.pc⟩ := by
    by_cases hpc : s.pc = .idle
    · simp only [Ledger.Attempt, hpc]
    · obtain ⟨hAMO, hALO⟩ := hst.lists_of_admits ha hpc
      simpa only [Ledger.Attempt, hAMO, hALO] using h.attempt
  obtain ⟨ht, ⟨hl, hs⟩ | ⟨rfl, hpc, rfl⟩⟩ := hst.tables_of_admits ha
  · -- no reset: the ledger stays as it is
    have hg : g.next s (.other l) = g := by
      cases l <;> first | rfl | exact absurd rfl hl
    rw [hg]
    exact h.keep rfl rfl hst.sesId hs (by rw [ht]) hatt
  · refine h.reset ?_
    rcases s with ⟨w₀, pc⟩
    cases pc with
    | updated vs a row => exact absurd rfl (hpc vs a row)
    | _ => exact hatt

theorem step (h : g.Agrees s) (hheld : s.Held) (hst : ThreadStep keepsGoing s l s' es) :
    (g.next s l).Agrees s' := by
  cases hst with
  | other l ha hst => exact h.other ha hst
  | insertThrows e n => exact h.keep rfl rfl rfl rfl rfl trivial
  | insert vs hpc => exact h.keep rfl rfl rfl rfl rfl rfl
  | read vs hpc =>
    have hatt := h.attempt
    simp only [Ledger.Attempt, hpc] at hatt
    exact h.keep rfl rfl rfl rfl rfl hatt
  | update vs a hpc =>
    have hatt := h.attempt
    simp only [Ledger.Attempt, hpc] at hatt
    exact h.keep rfl rfl rfl rfl rfl ⟨hatt, rfl⟩
  | commit vs a row hpc hdb => exact h.commit hheld hpc hdb
  | _ => exact h.keep rfl rfl rfl rfl rfl trivial

theorem of_run {ls : List Micro} (h : (threads keepsGoing).run ls = some s) :
    (threads.ledger keepsGoing ls).Agrees s := by
  refine Machine.history_invariant (I := fun s g => Ledger.Agrees g s) start ?_ h
  intro s g l s' hr hI hst
  obtain ⟨es, he⟩ := Machine.ofExec_step.1 hst
  exact hI.step (.of_reachable hr) (threadStep_of_exec he)

end Ledger.Agrees

/-- **Flushes and resets.**  After every run, wherever the timer thread is, the counters of the
session are the numbers of pairs of the two lists written by the flushes that have committed and
whose `UPDATE` was after the last reset; `Times` has a row for every pair written by any of them,
and a reset changes no row of it. -/
theorem counters_since_reset {keepsGoing : Bool} {ls : List Micro} {s : Threads}
    (h : (threads keepsGoing).run ls = some s) :
    (∃ r, s.world.db.sessions.get? s.world.sesId = some r ∧
      r.qos0Packets = ((threads.ledger keepsGoing ls).sinceReset.map Flushed.qos0).sum ∧
      r.qos1Packets = ((threads.ledger keepsGoing ls).sinceReset.map Flushed.qos1).sum) ∧
    s.world.db.times.vals.length =
      ((threads.ledger keepsGoing ls).flushes.map fun f => f.qos0 + f.qos1).sum ∧
    ∀ s' es, s.exec keepsGoing (.other .cancel) = some (s', es) →
      s'.world.db.times = s.world.db.times := by
  have hg := Ledger.Agrees.of_run h
  refine ⟨hg.row, hg.times, fun s' es he => ?_⟩
  cases threadStep_of_exec he with
  | other l ha hst => exact (hst.tables_of_admits ha).1

/-- A flush whose first attempt is rolled back after its `UPDATE`, with resets before, between and
after its statements. -/
def resetRun : List Micro :=
  [.other (.connect ⟨"10.0.0.2", "esp", .nothing⟩), .other (.atMostOnce 0 (-1) 1000),
    .other (.atMostOnce 0 (-1) 2000), .acquire, .guard, .insert, .read, .other .cancel, .update,
    .rollback 1, .insert, .other .cancel, .read, .update, .commit, .clear, .zero, .release]

theorem counters_since_reset_retried : ∃ s, (threads false).run resetRun = some s ∧
    (∃ r, s.world.db.sessions.get? s.world.sesId = some r ∧
      r.qos0Packets = ((threads.ledger false resetRun).sinceReset.map Flushed.qos0).sum ∧
      r.qos1Packets = ((threads.ledger false resetRun).sinceReset.map Flushed.qos1).sum) ∧
    s.world.db.times.vals.length =
      ((threads.ledger false resetRun).flushes.map fun f => f.qos0 + f.qos1).sum ∧
    ∀ s' es, s.exec false (.other .cancel) = some (s', es) →
      s'.world.db.times = s.world.db.times :=
  ⟨_, rfl, @counters_since_reset false resetRun _ rfl⟩

end MqttServerTest
