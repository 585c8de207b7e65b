import MqttServerTest.Server.System

/-!
# The server, statement by statement

`server` performs a tick in one step.  Here the timer thread moves one statement at a time, and
between any two of its statements the handlers, `cancel.php` and new connections may move too, as
far as the locks let them: the `synchronized` blocks wait for the lock that a tick holds from
beginning to end, and `cancel.php` waits for the lock on the row of the session, which the
`UPDATE` of the flush holds until its attempt ends.  The increment of `pubackSent` waits for
nothing.

An attempt of the flush transaction is kept in the position of the timer thread (`TimerPc`): the
rows it has inserted and the row of the session it has written are in no table before the commit.

## Main results

* `threadStep_of_exec` : what a statement can do, case by case.
* `Threads.Held.of_reachable` : what the two locks guarantee to a tick.
-/

namespace MqttServerTest

/-- The row of a session with the counters of `a` added. -/
def Session.add (s a : Session) : Session :=
  ⟨s.qos0Packets + a.qos0Packets, s.qos1Packets + a.qos1Packets, s.packetsSent + a.packetsSent⟩

/-- The row of the session `sesId` becomes `row`. -/
def Db.writeSession (db : Db) (sesId : ℕ) (row : Option Session) : Db :=
  db.withSessions (db.sessions.updateId sesId row.getD) (Table.updateId_ids _ _ _)

/-- `packetsALO.clear()`, `packetsAMO.clear()`. -/
def Buffers.clearLists (b : Buffers) : Buffers := { b with packetsALO := [], packetsAMO := [] }

/-- `pubackSent = 0`. -/
def Buffers.zero (b : Buffers) : Buffers := { b with pubackSent := 0 }

/-- What a flush adds to the counters of the session. -/
def Buffers.amounts (b : Buffers) : Session :=
  ⟨b.packetsAMO.length, b.packetsALO.length, b.pubackSent.toInt⟩

/-- Where the timer thread is. -/
inductive TimerPc where
  /-- Outside the task. -/
  | idle
  /-- The lock is acquired. -/
  | acquired
  /-- The guard has held; an attempt of the transaction begins. -/
  | passed
  /-- The attempt has inserted the rows `vs`. -/
  | inserted (vs : List Time)
  /-- The attempt has read what it is going to add to the counters. -/
  | prepared (vs : List Time) (amounts : Session)
  /-- The attempt has written `row` and holds its lock. -/
  | updated (vs : List Time) (amounts : Session) (row : Option Session)
  /-- The attempt has committed. -/
  | committed (amounts : Session)
  /-- The lists are cleared. -/
  | cleared (amounts : Session)
  /-- The lock is to be released. -/
  | finished
  deriving DecidableEq

namespace TimerPc

/-- An attempt of the transaction is under way. -/
def inAttempt : TimerPc → Bool
  | .passed | .inserted _ | .prepared _ _ | .updated _ _ _ => true
  | _ => false

/-- The statement `l` of another thread does not wait for a lock of the timer thread. -/
def admits : TimerPc → Label → Bool
  | pc, .atMostOnce _ _ _ => pc = .idle
  | pc, .atLeastOnce _ _ => pc = .idle
  | .updated _ _ _, .cancel => false
  | _, .tick _ => false
  | _, _ => true

end TimerPc

/-- The server with its timer thread. -/
structure Threads where
  world : World
  pc : TimerPc

/-- Who performs the next statement. -/
inductive Micro where
  /-- Another thread. -/
  | other (l : Label)
  /-- `synchronized(lock)` -/
  | acquire
  /-- The guard is evaluated, and if it holds the statistics are. -/
  | guard
  /-- `Times.batchInsert` -/
  | insert
  /-- The sizes of the lists and `pubackSent` are read for the update. -/
  | read
  /-- `Sessions.update` -/
  | update
  | commit
  /-- The attempt is rolled back, having consumed `n` keys, and retried. -/
  | rollback (n : ℕ)
  /-- The last attempt is rolled back, having consumed `n` keys, and the exception thrown. -/
  | fail (n : ℕ)
  /-- The two lists are cleared. -/
  | clear
  /-- `pubackSent = 0` -/
  | zero
  /-- The end of `synchronized(lock)`. -/
  | release
  deriving DecidableEq

namespace Threads

variable (keepsGoing : Bool)

/-- The server when it starts to listen. -/
def start : Threads := ⟨World.start, .idle⟩

/-- An exception leaves the task; the lock is released on its way. -/
def throw (w : World) (e : Failure Thrown) : Threads × List Event :=
  (⟨{ w with scheduled := keepsGoing }, .idle⟩, [.threw e])

/-- The attempt under way has consumed `n` keys and is rolled back. -/
def rolledBack (w : World) (n : ℕ) : World :=
  { w with db := (w.buffers.flushTransaction w.sesId).rollback w.db n }

/-- One statement. -/
def exec (s : Threads) : Micro → Option (Threads × List Event)
  | .other l =>
    if s.pc.admits l then (s.world.exec keepsGoing l).map fun r => (⟨r.1, s.pc⟩, r.2) else none
  | .acquire => match s.pc with
    | .idle => if s.world.scheduled then some (⟨s.world, .acquired⟩, []) else none
    | _ => none
  | .guard => match s.pc with
    | .acquired =>
      if s.world.buffers.guard then
        match statistics s.world.buffers.bothTimes with
        | .error e => some (throw keepsGoing s.world (.body e))
        | .ok _ => some (⟨s.world, .passed⟩, [])
      else some (⟨s.world, .finished⟩, [])
    | _ => none
  | .insert => match s.pc with
    | .passed => match s.world.buffers.newTimes s.world.sesId with
      | .error e => some (throw keepsGoing s.world (.body e))
      | .ok vs => match s.world.db.batchInsert vs with
        | .error e => some (throw keepsGoing
            { s.world with db := s.world.db.consumeTimes vs.length } (.body e))
        | .ok _ => some (⟨s.world, .inserted vs⟩, [])
    | _ => none
  | .read => match s.pc with
    | .inserted vs => some (⟨s.world, .prepared vs s.world.buffers.amounts⟩, [])
    | _ => none
  | .update => match s.pc with
    | .prepared vs amounts =>
      -- the latest committed row, whatever it was when the amounts were read
      let row := (s.world.db.sessions.get? s.world.sesId).map fun r => r.add amounts
      some (⟨s.world, .updated vs amounts row⟩, [])
    | _ => none
  | .commit => match s.pc with
    | .updated vs amounts row => match s.world.db.batchInsert vs with
      | .error _ => none
      | .ok db =>
        some (⟨{ s.world with db := db.writeSession s.world.sesId row }, .committed amounts⟩,
          [.committed vs])
    | _ => none
  | .rollback n => if s.pc.inAttempt then some (⟨rolledBack s.world n, .passed⟩, []) else none
  | .fail n =>
    if s.pc.inAttempt then some (throw keepsGoing (rolledBack s.world n) .database) else none
  | .clear => match s.pc with
    | .committed amounts =>
      some (⟨{ s.world with buffers := s.world.buffers.clearLists }, .cleared amounts⟩, [])
    | _ => none
  | .zero => match s.pc with
    | .cleared _ => some (⟨{ s.world with buffers := s.world.buffers.zero }, .finished⟩, [])
    | _ => none
  | .release => match s.pc with
    | .finished => some (⟨s.world, .idle⟩, [])
    | _ => none

end Threads

/-- The server of `Main.kt`, statement by statement. -/
def threads (keepsGoing : Bool) : Machine Threads Micro :=
  Machine.ofExec Threads.start (Threads.exec keepsGoing)

/-- What has been observed of the run `ls`. -/
def threads.events (keepsGoing : Bool) (ls : List Micro) : List Event :=
  Machine.emitted Threads.start (Threads.exec keepsGoing) ls

/-! ### What a statement can do -/

/-- The statements, case by case. -/
inductive ThreadStep (keepsGoing : Bool) (s : Threads) : Micro → Threads → List Event → Prop
  | other {w : World} {es : List Event} (l : Label) (ha : s.pc.admits l = true)
      (hst : Step keepsGoing s.world l w es) : ThreadStep keepsGoing s (.other l) ⟨w, s.pc⟩ es
  | acquire (hpc : s.pc = .idle) (hs : s.world.scheduled = true) :
      ThreadStep keepsGoing s .acquire ⟨s.world, .acquired⟩ []
  | guardFails (hpc : s.pc = .acquired) (hg : s.world.buffers.guard = false) :
      ThreadStep keepsGoing s .guard ⟨s.world, .finished⟩ []
  | guardThrows (hpc : s.pc = .acquired) (hg : s.world.buffers.guard = true)
      (hb : s.world.buffers.bothTimes = []) :
      ThreadStep keepsGoing s .guard (Threads.throw keepsGoing s.world (.body .nullPointer)).1
        [.threw (.body .nullPointer)]
  | guardHolds (hpc : s.pc = .acquired) (hb : s.world.buffers.bothTimes ≠ []) :
      ThreadStep keepsGoing s .guard ⟨s.world, .passed⟩ []
  | insertThrows (e : Thrown) (n : ℕ) (hpc : s.pc = .passed)
      (hbody : s.world.buffers.flushBody s.world.sesId s.world.db = .error (e, n)) :
      ThreadStep keepsGoing s .insert (Threads.throw keepsGoing
        { s.world with db := s.world.db.consumeTimes n } (.body e)).1 [.threw (.body e)]
  | insert (vs : List Time) (hpc : s.pc = .passed)
      (hn : s.world.buffers.newTimes s.world.sesId = .ok vs)
      (hv : ∀ v ∈ vs, s.world.db.HasReferences v) :
      ThreadStep keepsGoing s .insert ⟨s.world, .inserted vs⟩ []
  | read (vs : List Time) (hpc : s.pc = .inserted vs) :
      ThreadStep keepsGoing s .read ⟨s.world, .prepared vs s.world.buffers.amounts⟩ []
  | update (vs : List Time) (amounts : Session) (hpc : s.pc = .prepared vs amounts) :
      ThreadStep keepsGoing s .update ⟨s.world, .updated vs amounts
        ((s.world.db.sessions.get? s.world.sesId).map fun r => r.add amounts)⟩ []
  | commit {db : Db} (vs : List Time) (amounts : Session) (row : Option Session)
      (hpc : s.pc = .updated vs amounts row) (hdb : s.world.db.batchInsert vs = .ok db) :
      ThreadStep keepsGoing s .commit
        ⟨{ s.world with db := db.writeSession s.world.sesId row }, .committed amounts⟩
        [.committed vs]
  | rollback (n : ℕ) (hpc : s.pc.inAttempt = true) :
      ThreadStep keepsGoing s (.rollback n) ⟨Threads.rolledBack s.world n, .passed⟩ []
  | fail (n : ℕ) (hpc : s.pc.inAttempt = true) :
      ThreadStep keepsGoing s (.fail n)
        (Threads.throw keepsGoing (Threads.rolledBack s.world n) .database).1
        [.threw .database]
  | clear (amounts : Session) (hpc : s.pc = .committed amounts) :
      ThreadStep keepsGoing s .clear
        ⟨{ s.world with buffers := s.world.buffers.clearLists }, .cleared amounts⟩ []
  | zero (amounts : Session) (hpc : s.pc = .cleared amounts) :
      ThreadStep keepsGoing s .zero
        ⟨{ s.world with buffers := s.world.buffers.zero }, .finished⟩ []
  | release (hpc : s.pc = .finished) : ThreadStep keepsGoing s .release ⟨s.world, .idle⟩ []

variable {keepsGoing : Bool} {s s' : Threads} {l : Micro} {es : List Event}

/-- The guard and the statistics. -/
theorem threadStep_of_guard (h : s.exec keepsGoing .guard = some (s', es)) :
    ThreadStep keepsGoing s .guard s' es := by
  simp only [Threads.exec] at h
  split at h
  · rename_i hpc
    cases hg : s.world.buffers.guard with
    | false =>
      rw [hg] at h
      cases h; exact .guardFails hpc hg
    | true =>
      simp only [hg, ↓reduceIte] at h
      by_cases hb : s.world.buffers.bothTimes = []
      · rw [hb, statistics_nil] at h
        cases h; exact .guardThrows hpc hg hb
      · obtain ⟨st, hst⟩ := statistics_ok_iff.2 hb
        rw [hst] at h
        cases h; exact .guardHolds hpc hb
  · cases h

/-- `Times.batchInsert` -/
theorem threadStep_of_insert (h : s.exec keepsGoing .insert = some (s', es)) :
    ThreadStep keepsGoing s .insert s' es := by
  simp only [Threads.exec] at h
  split at h
  · rename_i hpc
    cases hn : s.world.buffers.newTimes s.world.sesId with
    | error e =>
      rw [hn] at h
      cases h
      exact .insertThrows e 0 hpc (by simp only [Buffers.flushBody, hn])
    | ok vs =>
      rw [hn] at h
      by_cases hv : ∀ v ∈ vs, s.world.db.HasReferences v
      · obtain ⟨db, hdb⟩ := Db.batchInsert_of_hasReferences hv
        simp only [hdb] at h
        cases h; exact .insert vs hpc hn hv
      · have hdb : s.world.db.batchInsert vs = .error .foreignKey := dif_neg hv
        simp only [hdb] at h
        cases h
        exact .insertThrows .foreignKey vs.length hpc (by simp only [Buffers.flushBody, hn, hdb])
  · cases h

/-- **What a statement can do.** -/
theorem threadStep_of_exec (h : s.exec keepsGoing l = some (s', es)) :
    ThreadStep keepsGoing s l s' es := by
  cases l with
  | other l =>
    simp only [Threads.exec] at h
    split_ifs at h with ha
    obtain ⟨⟨w, es'⟩, hw, he⟩ := Option.map_eq_some_iff.1 h
    cases he
    exact .other l ha (step_of_exec hw)
  | acquire =>
    simp only [Threads.exec] at h
    split at h
    · rename_i hpc
      split_ifs at h with hs
      cases h; exact .acquire hpc hs
    · cases h
  | guard => exact threadStep_of_guard h
  | insert => exact threadStep_of_insert h
  | read =>
    simp only [Threads.exec] at h
    split at h
    · rename_i vs hpc
      cases h; exact .read vs hpc
    · cases h
  | update =>
    simp only [Threads.exec] at h
    split at h
    · rename_i vs amounts hpc
      cases h; exact .update vs amounts hpc
    · cases h
  | commit =>
    simp only [Threads.exec] at h
    split at h
    · rename_i vs amounts row hpc
      cases hdb : s.world.db.batchInsert vs with
      | error e => rw [hdb] at h; cases h
      | ok db =>
        rw [hdb] at h
        cases h; exact .commit vs amounts row hpc hdb
    · cases h
  | rollback n =>
    simp only [Threads.exec] at h
    split_ifs at h with hpc
    cases h; exact .rollback n hpc
  | fail n =>
    simp only [Threads.exec] at h
    split_ifs at h with hpc
    cases h; exact .fail n hpc
  | clear =>
    simp only [Threads.exec] at h
    split at h
    · rename_i amounts hpc
      cases h; exact .clear amounts hpc
    · cases h
  | zero =>
    simp only [Threads.exec] at h
    split at h
    · rename_i amounts hpc
      cases h; exact .zero amounts hpc
    · cases h
  | release =>
    simp only [Threads.exec] at h
    split at h
    · rename_i hpc
      cases h; exact .release hpc
    · cases h

/-! ### What the locks guarantee -/

/-- No `synchronized` block is performed while a tick holds the lock: another thread can at most
increment `pubackSent`. -/
theorem Step.buffers_of_admits {w w' : World} {l : Label} {pc : TimerPc}
    (hst : Step keepsGoing w l w' es) (ha : pc.admits l = true) (hpc : pc ≠ .idle) :
    w'.buffers = w.buffers ∨ w'.buffers = w.buffers.increment := by
  cases hst with
  | connect a => exact Or.inl (w.connect_buffers a)
  | handle i e level m curr _ hl =>
    rcases hl with ⟨rfl, -⟩ | ⟨rfl, -⟩ <;> cases pc <;> first | exact absurd rfl hpc | cases ha
  | increment => exact Or.inr rfl
  | tickCommits => cases pc <;> cases ha
  | _ => exact Or.inl rfl

theorem Step.lists_of_admits {w w' : World} {l : Label} {pc : TimerPc}
    (hst : Step keepsGoing w l w' es) (ha : pc.admits l = true) (hpc : pc ≠ .idle) :
    w'.buffers.packetsAMO = w.buffers.packetsAMO ∧
      w'.buffers.packetsALO = w.buffers.packetsALO := by
  rcases hst.buffers_of_admits ha hpc with hb | hb <;> rw [hb] <;> exact ⟨rfl, rfl⟩

theorem Step.newTimes_of_admits {w w' : World} {l : Label} {pc : TimerPc}
    (hst : Step keepsGoing w l w' es) (ha : pc.admits l = true) (hpc : pc ≠ .idle) :
    w'.buffers.newTimes = w.buffers.newTimes := by
  rcases hst.buffers_of_admits ha hpc with hb | hb <;> rw [hb]
  rfl

/-- What another thread does to the tables: `cancel.php` resets the counters, if their row is not
locked, and nothing else writes `Sessions` or `Times`. -/
theorem Step.tables_of_admits {w w' : World} {l : Label} {pc : TimerPc}
    (hst : Step keepsGoing w l w' es) (ha : pc.admits l = true) :
    w'.db.times = w.db.times ∧ (l ≠ .cancel ∧ w'.db.sessions = w.db.sessions ∨
      l = .cancel ∧ (∀ vs a row, pc ≠ .updated vs a row) ∧
        w' = { w with db := w.db.cancel }) := by
  cases hst with
  | connect a => exact ⟨w.connect_times a, Or.inl ⟨by simp, w.connect_sessions a⟩⟩
  | handle i e level m curr _ hl =>
    refine ⟨rfl, Or.inl ⟨?_, rfl⟩⟩
    rcases hl with ⟨rfl, -⟩ | ⟨rfl, -⟩ <;> simp
  | tickFails => cases pc <;> cases ha
  | tickCommits => cases pc <;> cases ha
  | cancel =>
    refine ⟨rfl, Or.inr ⟨rfl, ?_, rfl⟩⟩
    rintro vs a row rfl
    cases ha
  | _ => exact ⟨rfl, Or.inl ⟨by simp, rfl⟩⟩

/-- What the attempt under way has inserted and read is what the locks keep unchanged. -/
def Threads.Held (s : Threads) : Prop :=
  match s.pc with
  | .inserted vs => s.world.buffers.newTimes s.world.sesId = .ok vs
  | .prepared vs a => s.world.buffers.newTimes s.world.sesId = .ok vs ∧
      a.qos0Packets = s.world.buffers.packetsAMO.length ∧
      a.qos1Packets = s.world.buffers.packetsALO.length
  | .updated vs a row => s.world.buffers.newTimes s.world.sesId = .ok vs ∧
      a.qos0Packets = s.world.buffers.packetsAMO.length ∧
      a.qos1Packets = s.world.buffers.packetsALO.length ∧
      row = (s.world.db.sessions.get? s.world.sesId).map fun r => r.add a
  | .cleared _ => s.world.buffers.packetsALO = [] ∧ s.world.buffers.packetsAMO = []
  | _ => True

theorem Threads.Held.other {w : World} {l : Label} (h : s.Held) (ha : s.pc.admits l = true)
    (hst : Step keepsGoing s.world l w es) : (⟨w, s.pc⟩ : Threads).Held := by
  rcases s with ⟨w₀, pc⟩
  by_cases hpc : pc = .idle
  · subst hpc
    trivial
  have hses : w.sesId = w₀.sesId := hst.sesId
  have hn : w.buffers.newTimes = w₀.buffers.newTimes := hst.newTimes_of_admits ha hpc
  obtain ⟨hAMO, hALO⟩ := hst.lists_of_admits ha hpc
  cases pc with
  | inserted vs =>
    simp only [Threads.Held, hn, hses] at h ⊢
    exact h
  | prepared vs a =>
    simp only [Threads.Held, hn, hses, hAMO, hALO] at h ⊢
    exact h
  | updated vs a row =>
    -- a reset waits for the lock on the row
    have hs : w.db.sessions = w₀.db.sessions := by
      rcases (hst.tables_of_admits ha).2 with ⟨-, hs⟩ | ⟨-, hpc, -⟩
      · exact hs
      · exact absurd rfl (hpc vs a row)
    simp only [Threads.Held, hn, hses, hAMO, hALO, hs] at h ⊢
    exact h
  | cleared a =>
    simp only [Threads.Held, hAMO, hALO] at h ⊢
    exact h
  | _ => trivial

theorem Threads.Held.step (h : s.Held) (hst : ThreadStep keepsGoing s l s' es) : s'.Held := by
  cases hst with
  | other l ha hst => exact h.other ha hst
  | insert vs _ hn _ => exact hn
  | read vs hpc =>
    simp only [Threads.Held, hpc] at h
    exact ⟨h, rfl, rfl⟩
  | update vs amounts hpc =>
    simp only [Threads.Held, hpc] at h
    exact ⟨h.1, h.2.1, h.2.2, rfl⟩
  | clear => exact ⟨rfl, rfl⟩
  | _ => trivial

/-- **What the locks guarantee.** -/
theorem Threads.Held.of_reachable (h : (threads keepsGoing).Reachable s) : s.Held := by
  refine h.invariant_ofExec trivial ?_
  intro s l s' es _ hI hst
  exact hI.step (threadStep_of_exec hst)

/-- The row of the session. -/
def Threads.row (s : Threads) : Option Session := s.world.db.sessions.get? s.world.sesId

/-- A commit adds the amounts to the row as it is at the commit. -/
theorem Threads.row_commit {db : Db} {vs : List Time} {a : Session} {row : Option Session}
    (hheld : s.Held) (hpc : s.pc = .updated vs a row)
    (hdb : s.world.db.batchInsert vs = .ok db) :
    (db.writeSession s.world.sesId row).sessions.get? s.world.sesId =
      s.row.map fun r => r.add a := by
  have hs : db.sessions = s.world.db.sessions := (Db.batchInsert_ok hdb).2.1
  simp only [Threads.Held, hpc] at hheld
  rw [hheld.2.2.2]
  show (db.sessions.updateId _ _).get? _ = _
  rw [Table.updateId_get?, if_pos rfl, hs, Threads.row]
  cases s.world.db.sessions.get? s.world.sesId <;> rfl

end MqttServerTest
