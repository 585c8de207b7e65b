import MqttServerTest.Machine.Simulation
import MqttServerTest.Server.Pubacks

/-!
# A tick as one step

`server` performs a tick in one step, `threads` statement by statement.  They agree:

* every run of `server` is a run of `threads`, with the statements of each tick in a row
  (`threads_of_server`);
* every run of `threads` that ends outside a tick and has lost no increment is, with the same
  observations, a run of `server` (`server_of_threads`): a tick takes effect when it commits or
  throws, and what the other threads do before and after that moment is done before and after the
  whole tick.

A run that has lost an increment is not a run of `server`, where none is lost.
-/

namespace MqttServerTest

/-! ### Keys consumed by attempts that are rolled back -/

theorem Db.consumeTimes_consumeTimes (db : Db) (m n : ℕ) :
    (db.consumeTimes m).consumeTimes n = db.consumeTimes (m + n) := by
  simp only [Db.consumeTimes, Table.consume, Nat.add_assoc]

/-- The world with `n` keys of `Times` consumed. -/
def World.consumeTimes (w : World) (n : ℕ) : World := { w with db := w.db.consumeTimes n }

theorem World.consumeTimes_consumeTimes (w : World) (m n : ℕ) :
    (w.consumeTimes m).consumeTimes n = w.consumeTimes (m + n) := by
  simp only [World.consumeTimes, Db.consumeTimes_consumeTimes]

/-- Any number of keys can be consumed by attempts that are retried, if there is a row to
insert. -/
theorem rollbacks_replicate {b : Buffers} {sesId : ℕ} (hb : b.bothTimes ≠ []) (k : ℕ) (db : Db) :
    (List.replicate k 1).foldl (b.flushTransaction sesId).rollback db = db.consumeTimes k := by
  have hcost : min 1 (b.packetsALO.length + b.packetsAMO.length) = 1 := by
    have hpos := List.length_pos_iff.2 (Buffers.bothTimes_ne_nil_iff.1 hb)
    rw [List.length_append] at hpos
    omega
  induction k generalizing db with
  | zero => rfl
  | succ k ih =>
    have hone : (b.flushTransaction sesId).rollback db 1 = db.consumeTimes 1 := by
      show db.consumeTimes (min 1 (b.packetsALO.length + b.packetsAMO.length)) = _
      rw [hcost]
    rw [List.replicate_succ, List.foldl_cons, hone, ih, Db.consumeTimes_consumeTimes,
      Nat.add_comm]

variable {keepsGoing : Bool}

/-- The other threads do not see how many keys have been consumed. -/
theorem World.exec_consumeTimes (w : World) (n : ℕ) {l : Label} (hl : ∀ faults, l ≠ .tick faults) :
    (w.consumeTimes n).exec keepsGoing l =
      (w.exec keepsGoing l).map fun r => (r.1.consumeTimes n, r.2) := by
  cases l with
  | connect a =>
    rcases w with ⟨endpoints, buffers, db, sesId, scheduled⟩
    simp only [World.exec, World.connect, World.consumeTimes, Db.consumeTimes, Option.map_some,
      Option.some.injEq, Prod.mk.injEq, and_true]
    cases ((Devices.register a.host a.clientIdentifier).run a.faults db.devices).2 <;> rfl
  | tick faults => exact absurd rfl (hl faults)
  | cancel => rfl
  | _ =>
    simp only [World.exec, World.consumeTimes]
    split <;> rfl

/-- A step that does not concern the buffers. -/
theorem World.exec_buffers (w : World) (b : Buffers) {l : Label} {pc : TimerPc}
    (ha : pc.admits l = true) (hpc : pc ≠ .idle) (hl : l.isIncrement = false) :
    ({ w with buffers := b } : World).exec keepsGoing l =
      (w.exec keepsGoing l).map fun r => ({ r.1 with buffers := b }, r.2) := by
  cases l with
  | connect a =>
    simp only [World.exec, World.connect, Option.map_some, Option.some.injEq, Prod.mk.injEq,
      and_true]
    cases ((Devices.register a.host a.clientIdentifier).run a.faults w.db.devices).2 <;> rfl
  | acknowledge i m =>
    simp only [World.exec]
    split <;> rfl
  | exactlyOnce i m =>
    simp only [World.exec]
    split <;> rfl
  | cancel => rfl
  | increment i => cases hl
  | _ => cases pc <;> first | exact absurd rfl hpc | cases ha

/-! ### The timer thread inside a tick -/

theorem Step.scheduled_of_admits {w w' : World} {l : Label} {es : List Event} {pc : TimerPc}
    (hst : Step keepsGoing w l w' es) (ha : pc.admits l = true) :
    w'.scheduled = w.scheduled := by
  cases hst with
  | connect a => exact w.connect_scheduled a
  | tickNoGaps => cases pc <;> cases ha
  | tickFails => cases pc <;> cases ha
  | _ => rfl

/-- Inside a tick the timer is alive, and inside the transaction there are gaps. -/
structure Threads.Armed (s : Threads) : Prop where
  scheduled : s.pc = .acquired ∨ s.pc.inAttempt = true → s.world.scheduled = true
  gaps : s.pc.inAttempt = true → s.world.buffers.bothTimes ≠ []

theorem Threads.Armed.outside {s : Threads} (h : s.pc ≠ .acquired) (h' : s.pc.inAttempt = false) :
    s.Armed := by
  refine ⟨fun hpc => ?_, fun hpc => absurd (h' ▸ hpc) Bool.noConfusion⟩
  rcases hpc with hpc | hpc
  · exact absurd hpc h
  · exact absurd (h' ▸ hpc) Bool.noConfusion

theorem Threads.Armed.step {s s' : Threads} {l : Micro} {es : List Event} (h : s.Armed)
    (hst : ThreadStep keepsGoing s l s' es) : s'.Armed := by
  cases hst with
  | @other w _ l ha hst =>
    refine ⟨fun hpc => (hst.scheduled_of_admits ha).trans (h.scheduled hpc), fun hpc => ?_⟩
    have hne : s.pc ≠ .idle := by
      rintro he
      rw [show s.pc = .idle from he] at hpc
      cases hpc
    have hgaps := h.gaps hpc
    rcases hst.buffers_of_admits ha hne with hb | hb <;> rw [hb] <;> exact hgaps
  | acquire _ hs => exact ⟨fun _ => hs, fun hpc => by cases hpc⟩
  | guardHolds hpc hb => exact ⟨fun _ => h.scheduled (Or.inl hpc), fun _ => hb⟩
  | insert vs hpc =>
    have hin : s.pc.inAttempt = true := by rw [hpc]; rfl
    exact ⟨fun _ => h.scheduled (Or.inr hin), fun _ => h.gaps hin⟩
  | read vs hpc =>
    have hin : s.pc.inAttempt = true := by rw [hpc]; rfl
    exact ⟨fun _ => h.scheduled (Or.inr hin), fun _ => h.gaps hin⟩
  | update vs a hpc =>
    have hin : s.pc.inAttempt = true := by rw [hpc]; rfl
    exact ⟨fun _ => h.scheduled (Or.inr hin), fun _ => h.gaps hin⟩
  | rollback n hin => exact ⟨fun _ => h.scheduled (Or.inr hin), fun _ => h.gaps hin⟩
  | _ => exact .outside TimerPc.noConfusion rfl

theorem Threads.Armed.of_reachable {s : Threads} (h : (threads keepsGoing).Reachable s) :
    s.Armed := by
  refine h.invariant_ofExec (.outside TimerPc.noConfusion rfl) ?_
  intro s l s' es _ hI hst
  exact hI.step (threadStep_of_exec hst)

/-! ### From statements to ticks -/

/-- The world as it is if the tick under way is performed in one step when it commits. -/
def Threads.Simulates (s : Threads) (w : World) : Prop :=
  match s.pc with
  | .idle | .acquired | .finished => s.world = w
  | .passed | .inserted _ | .prepared _ _ | .updated _ _ _ => ∃ k, s.world = w.consumeTimes k
  | .committed _ | .cleared _ => { s.world with buffers := s.world.buffers.clear } = w

/-- No increment is lost, nor going to be lost by the tick under way. -/
def Lossless (ls : List Micro) (s : Threads) : Prop :=
  (increments ls).lost = 0 ∧ (s.pc.afterCommit = true → (increments ls).sinceRead = 0)

theorem Lossless.of_snoc {ls : List Micro} {s s' : Threads} {l : Micro} {es : List Event}
    (hst : ThreadStep keepsGoing s l s' es) (h : Lossless (ls ++ [l]) s') : Lossless ls s := by
  obtain ⟨hlost, hpost⟩ := h
  rw [increments_snoc] at hlost hpost
  have hle := (increments ls).lost_le_next l
  refine ⟨by omega, fun hpc => ?_⟩
  cases hst with
  | other l ha hst =>
    exact Nat.eq_zero_of_le_zero ((hpost hpc) ▸ (increments ls).sinceRead_le_other l)
  | clear a => exact hpost rfl
  | zero a =>
    simp only [Increments.next] at hlost
    omega
  | rollback n hin => exact absurd (TimerPc.afterCommit_of_inAttempt hin ▸ hpc) Bool.noConfusion
  | fail n hin => exact absurd (TimerPc.afterCommit_of_inAttempt hin ▸ hpc) Bool.noConfusion
  | _ => simp [*, TimerPc.afterCommit] at hpc

/-- What a flush commits is all that has been counted. -/
theorem Lossless.read_of_commit {ls : List Micro} {s s' : Threads} {l : Micro} {es : List Event}
    (h : Lossless (ls ++ [l]) s') (hst : ThreadStep keepsGoing s l s' es)
    (hagrees : (increments ls).Agrees s) (hl : l = .commit) (vs : List Time) (a : Session)
    (row : Option Session) (hpc : s.pc = .updated vs a row) :
    a.packetsSent = s.world.buffers.pubackSent.toInt := by
  subst hl
  have hatt := hagrees.attempt
  simp only [Increments.Attempt, hpc] at hatt
  have hzero : (increments ls).sinceRead = 0 := by
    have hpost := h.2
    rw [increments_snoc] at hpost
    cases hst with
    | commit => exact hpost rfl
  rw [hatt.2, hagrees.sent, Increments.read, hzero, Nat.sub_zero]

/-- The `UPDATE` of an attempt that has read `a` is the update of the session by `a`. -/
theorem Db.writeSession_eq_addPackets (db db' : Db) (sesId : ℕ) (a : Session)
    (hs : db'.sessions = db.sessions) :
    db'.writeSession sesId ((db.sessions.get? sesId).map fun r => r.add a) =
      db'.addPackets sesId a.qos0Packets a.qos1Packets a.packetsSent := by
  have ht : db'.sessions.updateId sesId ((db.sessions.get? sesId).map fun r => r.add a).getD =
      db'.sessions.updateId sesId fun s => ⟨s.qos0Packets + a.qos0Packets,
        s.qos1Packets + a.qos1Packets, s.packetsSent + a.packetsSent⟩ := by
    refine Table.updateId_congr fun r hr => ?_
    rw [hs] at hr
    rw [hr]; rfl
  simp only [Db.writeSession, Db.addPackets, Db.withSessions, ht]

/-- A tick whose transaction is retried `k` times and then treated by the database as `fatal`. -/
def retried (k : ℕ) (fatal : Option ℕ) : Label := .tick ⟨List.replicate k 1, fatal⟩

namespace World

variable {w : World}

/-- A tick with gaps in the lists runs its transaction. -/
theorem exec_retried (hs : w.scheduled = true) (hb : w.buffers.bothTimes ≠ []) (k : ℕ)
    (fatal : Option ℕ) : w.exec keepsGoing (retried k fatal) =
      match (w.buffers.flushTransaction w.sesId).run ⟨[], fatal⟩ (w.db.consumeTimes k) with
      | (db, .ok vs) => some ({ w with db, buffers := w.buffers.clear }, [.committed vs])
      | (db, .error e) => some ({ w with db, scheduled := keepsGoing }, [.threw e]) := by
  obtain ⟨st, hst⟩ := statistics_ok_iff.2 hb
  have hrun : (w.buffers.flushTransaction w.sesId).run ⟨List.replicate k 1, fatal⟩ w.db =
      (w.buffers.flushTransaction w.sesId).run ⟨[], fatal⟩ (w.db.consumeTimes k) := by
    simp only [Transaction.run, rollbacks_replicate hb, List.foldl_nil]
  simp only [retried, exec, tick, hs, guard_of_bothTimes hb, hst, hrun, ↓reduceIte]
  cases (w.buffers.flushTransaction w.sesId).run ⟨[], fatal⟩ (w.db.consumeTimes k) with
  | mk db r => cases r <;> rfl

/-- The last attempt is broken off by the database. -/
theorem exec_retried_fatal (hs : w.scheduled = true) (hb : w.buffers.bothTimes ≠ []) (k n : ℕ) :
    w.exec keepsGoing (retried k (some n)) =
      some ((Threads.throw keepsGoing (Threads.rolledBack (w.consumeTimes k) n) .database).1.world,
        [.threw .database]) := by
  rw [exec_retried hs hb]; rfl

/-- The last attempt throws. -/
theorem exec_retried_error (hs : w.scheduled = true) (hb : w.buffers.bothTimes ≠ []) {k n : ℕ}
    {e : Thrown}
    (hbody : w.buffers.flushBody w.sesId (w.db.consumeTimes k) = .error (e, n)) :
    w.exec keepsGoing (retried k none) =
      some ((Threads.throw keepsGoing ((w.consumeTimes k).consumeTimes n) (.body e)).1.world,
        [.threw (.body e)]) := by
  rw [exec_retried hs hb]
  simp only [Transaction.run, Buffers.flushTransaction, List.foldl_nil, hbody]
  rfl

/-- The last attempt commits. -/
theorem exec_retried_ok (hs : w.scheduled = true) (hb : w.buffers.bothTimes ≠ []) {k : ℕ} {db : Db}
    {vs : List Time} (hn : w.buffers.newTimes w.sesId = .ok vs)
    (hdb : (w.db.consumeTimes k).batchInsert vs = .ok db) :
    w.exec keepsGoing (retried k none) =
      some ({ w with
        db := db.addPackets w.sesId w.buffers.packetsAMO.length w.buffers.packetsALO.length
          w.buffers.pubackSent.toInt
        buffers := w.buffers.clear }, [.committed vs]) := by
  rw [exec_retried hs hb]
  simp only [Transaction.run, Buffers.flushTransaction, List.foldl_nil, Buffers.flushBody, hn, hdb]

end World

namespace Threads.Simulates

variable {s s' : Threads} {w w' : World} {es : List Event}

/-- Another thread does in both machines the same. -/
theorem other {l : Label} (h : s.Simulates w) (ha : s.pc.admits l = true)
    (hw : s.world.exec keepsGoing l = some (w', es))
    (hl : s.pc.afterCommit = true → l.isIncrement = false) :
    ∃ w₁, w.exec keepsGoing l = some (w₁, es) ∧ (⟨w', s.pc⟩ : Threads).Simulates w₁ := by
  have htick : ∀ faults, l ≠ .tick faults := by
    rintro faults rfl
    cases hpc : s.pc <;> rw [hpc] at ha <;> cases ha
  have hclear : s.pc ≠ .idle → w'.buffers.clear = s.world.buffers.clear := by
    intro hpc
    rcases (step_of_exec hw).buffers_of_admits ha hpc with hb | hb <;> rw [hb]
    rfl
  rcases s with ⟨w₀, pc⟩
  -- inside the transaction the worlds differ in the keys consumed
  have hin : (∃ k, w₀ = w.consumeTimes k) → ∃ w₁, w.exec keepsGoing l = some (w₁, es) ∧
      ∃ k, w' = w₁.consumeTimes k := by
    rintro ⟨k, rfl⟩
    rw [World.exec_consumeTimes w k htick] at hw
    obtain ⟨⟨w₁, es₁⟩, hw₁, he⟩ := Option.map_eq_some_iff.1 hw
    cases he
    exact ⟨w₁, hw₁, k, rfl⟩
  -- after the commit they differ in the buffers
  have hafter : pc ≠ .idle → l.isIncrement = false →
      { w₀ with buffers := w₀.buffers.clear } = w → ∃ w₁, w.exec keepsGoing l = some (w₁, es) ∧
        { w' with buffers := w'.buffers.clear } = w₁ := by
    rintro hpc hinc rfl
    rw [World.exec_buffers w₀ _ ha hpc hinc, show w₀.exec keepsGoing l = some (w', es) from hw,
      hclear hpc]
    exact ⟨_, rfl, rfl⟩
  cases pc with
  | passed => exact hin h
  | inserted vs => exact hin h
  | prepared vs a => exact hin h
  | updated vs a row => exact hin h
  | committed a => exact hafter TimerPc.noConfusion (hl rfl) h
  | cleared a => exact hafter TimerPc.noConfusion (hl rfl) h
  | _ => exact ⟨w', (show w₀ = w from h) ▸ hw, rfl⟩

theorem of_other {ls : List Micro} {l : Label} (h : s.Simulates w)
    (he : s.exec keepsGoing (.other l) = some (s', es)) (hg : Lossless (ls ++ [.other l]) s') :
    ∃ w', w.exec keepsGoing l = some (w', es) ∧ s'.Simulates w' := by
  simp only [Threads.exec] at he
  split_ifs at he with ha
  obtain ⟨⟨w', es'⟩, hw, hr⟩ := Option.map_eq_some_iff.1 he
  cases hr
  refine h.other ha hw fun hpc => ?_
  have hsum := hg.2 hpc
  rw [increments_snoc] at hsum
  by_contra hinc
  rw [Bool.not_eq_false] at hinc
  simp only [Increments.next, hinc, ↓reduceIte] at hsum
  exact absurd hsum (Nat.succ_ne_zero _)

/-- During the transaction the worlds differ in the keys that rolled back attempts have consumed. -/
theorem inTransaction (h : s.Simulates w) (harmed : s.Armed) (hpc : s.pc.inAttempt = true) :
    ∃ k, s.world = w.consumeTimes k ∧ w.scheduled = true ∧ w.buffers.bothTimes ≠ [] := by
  have hk : ∃ k, s.world = w.consumeTimes k := by
    rcases s with ⟨w₀, pc⟩
    cases pc <;> first | exact h | cases hpc
  obtain ⟨k, hk⟩ := hk
  have hs := harmed.scheduled (Or.inr hpc)
  have hb := harmed.gaps hpc
  rw [hk] at hs hb
  exact ⟨k, hk, hs, hb⟩

/-- The commit of an attempt is a tick that commits. -/
theorem commit {vs : List Time} {a : Session} {row : Option Session} {db : Db}
    (h : s.Simulates w) (hheld : s.Held) (harmed : s.Armed) (hpc : s.pc = .updated vs a row)
    (hdb : s.world.db.batchInsert vs = .ok db)
    (hsent : a.packetsSent = s.world.buffers.pubackSent.toInt) :
    ∃ k w', w.exec keepsGoing k = some (w', [.committed vs]) ∧ Threads.Simulates
      ⟨{ s.world with db := db.writeSession s.world.sesId row }, .committed a⟩ w' := by
  obtain ⟨k, hk, hs, hb⟩ := h.inTransaction harmed (by rw [hpc]; rfl)
  simp only [Threads.Held, hpc] at hheld
  obtain ⟨hn, ha₀, ha₁, rfl⟩ := hheld
  -- the amounts read are those of the buffers at the commit
  rw [Db.writeSession_eq_addPackets _ _ _ _ (Db.batchInsert_ok hdb).2.1, ha₀, ha₁, hsent]
  rw [hk] at hn hdb ⊢
  exact ⟨retried k none, _, World.exec_retried_ok hs hb hn hdb, rfl⟩

/-- A statement of the timer thread takes no effect, or it commits or throws and is a tick. -/
theorem timer {l : Micro} (h : s.Simulates w) (hst : ThreadStep keepsGoing s l s' es)
    (hl : ∀ k, l ≠ .other k) (hheld : s.Held) (harmed : s.Armed)
    (hsent : l = .commit → ∀ vs a row, s.pc = .updated vs a row →
      a.packetsSent = s.world.buffers.pubackSent.toInt) :
    (es = [] ∧ s'.Simulates w) ∨
      ∃ k w', w.exec keepsGoing k = some (w', es) ∧ s'.Simulates w' := by
  cases hst with
  | other k => exact absurd rfl (hl k)
  | acquire hpc =>
    simp only [Threads.Simulates, hpc] at h
    exact Or.inl ⟨rfl, h⟩
  | guardFails hpc =>
    simp only [Threads.Simulates, hpc] at h
    exact Or.inl ⟨rfl, h⟩
  | guardThrows hpc hg hb =>
    simp only [Threads.Simulates, hpc] at h
    subst h
    refine Or.inr ⟨.tick .nothing, _, ?_, rfl⟩
    simp only [World.exec, World.tick, harmed.scheduled (Or.inl hpc), hg, hb, statistics_nil,
      ↓reduceIte]
    rfl
  | guardHolds hpc =>
    simp only [Threads.Simulates, hpc] at h
    exact Or.inl ⟨rfl, 0, h⟩
  | insertThrows e n hpc hbody =>
    obtain ⟨k, hk, hs, hb⟩ := h.inTransaction harmed (by rw [hpc]; rfl)
    rw [hk] at hbody
    refine Or.inr ⟨retried k none, _, World.exec_retried_error hs hb hbody, ?_⟩
    rw [← hk]; rfl
  | insert vs hpc =>
    obtain ⟨k, hk, -, -⟩ := h.inTransaction harmed (by rw [hpc]; rfl)
    exact Or.inl ⟨rfl, k, hk⟩
  | read vs hpc =>
    obtain ⟨k, hk, -, -⟩ := h.inTransaction harmed (by rw [hpc]; rfl)
    exact Or.inl ⟨rfl, k, hk⟩
  | update vs a hpc =>
    obtain ⟨k, hk, -, -⟩ := h.inTransaction harmed (by rw [hpc]; rfl)
    exact Or.inl ⟨rfl, k, hk⟩
  | commit vs a row hpc hdb => exact Or.inr (h.commit hheld harmed hpc hdb (hsent rfl vs a row hpc))
  | rollback n hpc =>
    obtain ⟨k, hk, -, -⟩ := h.inTransaction harmed hpc
    refine Or.inl ⟨rfl, k + min n (w.buffers.packetsALO.length + w.buffers.packetsAMO.length), ?_⟩
    rw [← World.consumeTimes_consumeTimes, ← hk]
    rw [hk]; rfl
  | fail n hpc =>
    obtain ⟨k, hk, hs, hb⟩ := h.inTransaction harmed hpc
    refine Or.inr ⟨retried k (some n), _, World.exec_retried_fatal hs hb k n, ?_⟩
    rw [← hk]; rfl
  | clear a hpc =>
    simp only [Threads.Simulates, hpc] at h
    exact Or.inl ⟨rfl, h⟩
  | zero a hpc =>
    simp only [Threads.Simulates, hpc] at h
    simp only [Threads.Held, hpc] at hheld
    refine Or.inl ⟨rfl, ?_⟩
    have hzero : s.world.buffers.zero = s.world.buffers.clear := by
      simp only [Buffers.zero, Buffers.clear, hheld.1, hheld.2]
    show ({ s.world with buffers := s.world.buffers.zero } : World) = w
    rw [hzero]; exact h
  | release hpc =>
    simp only [Threads.Simulates, hpc] at h
    exact Or.inl ⟨rfl, h⟩

end Threads.Simulates

/-- **A tick is one step.**  A run of `threads` that ends outside a tick and has lost no increment
is a run of `server` that ends in the same world, with the same observations. -/
theorem server_of_threads {ls : List Micro} {s : Threads}
    (h : (threads keepsGoing).run ls = some s) (hpc : s.pc = .idle)
    (hlost : (increments ls).lost = 0) :
    ∃ ks, (server keepsGoing).run ks = some s.world ∧
      server.events keepsGoing ks = threads.events keepsGoing ls := by
  have hg : Lossless ls s := ⟨hlost, fun hp => by rw [hpc] at hp; cases hp⟩
  obtain ⟨ks, w, hks, hev, hsim⟩ : ∃ ks w, (server keepsGoing).run ks = some w ∧
      server.events keepsGoing ks = threads.events keepsGoing ls ∧ s.Simulates w := by
    refine @Machine.emitted_simulation _ _ _ _ _ Threads.start (Threads.exec keepsGoing)
      World.start (World.exec keepsGoing) Threads.Simulates Lossless rfl ?_ ?_ _ _ h hg
    · intro ls s l s' es _ he hg
      exact hg.of_snoc (threadStep_of_exec he)
    · intro ls s l s' es w hls he hg hsim
      have hst := threadStep_of_exec he
      by_cases hl : ∃ k, l = .other k
      · obtain ⟨k, rfl⟩ := hl
        obtain ⟨w', hw', hsim'⟩ := hsim.of_other he hg
        exact ⟨[k], w', Machine.execFrom_single hw', hsim'⟩
      · have hr : (threads keepsGoing).Reachable s := .of_run hls
        have hl' : ∀ k, l ≠ .other k := fun k hk => hl ⟨k, hk⟩
        rcases hsim.timer hst hl' (.of_reachable hr) (.of_reachable hr)
          (hg.read_of_commit hst (.of_run hls)) with ⟨rfl, hsim'⟩ | ⟨k, w', hw', hsim'⟩
        · exact ⟨[], w, rfl, hsim'⟩
        · exact ⟨[k], w', Machine.execFrom_single hw', hsim'⟩
  simp only [Threads.Simulates, hpc] at hsim
  exact ⟨ks, hsim ▸ hks, hev⟩

/-- A tick that is retried; a device connects between its read and its update, and a packet is
acknowledged and counted before its read. -/
def interleavedRun : List Micro :=
  [.other (.connect ⟨"10.0.0.2", "esp", .nothing⟩), .other (.atMostOnce 0 (-1) 1000),
    .other (.atMostOnce 0 (-1) 2000), .acquire, .guard, .insert, .rollback 1, .insert,
    .other (.acknowledge 0 1), .other (.increment 0), .read,
    .other (.connect ⟨"10.0.0.3", "two", .nothing⟩), .update, .commit, .clear, .zero, .release]

theorem server_of_threads_interleaved : ∃ s, (threads false).run interleavedRun = some s ∧
    ∃ ks, (server false).run ks = some s.world ∧
      server.events false ks = threads.events false interleavedRun :=
  ⟨_, rfl, @server_of_threads false interleavedRun _ rfl rfl rfl⟩

/-! ### From ticks to statements -/

namespace Threads

variable {w : World}

/-- The attempts that are rolled back, one after the other. -/
theorem execFrom_rollbacks (w : World) (ns : List ℕ) :
    Machine.execFrom (exec keepsGoing) ⟨w, .passed⟩ (ns.map .rollback) =
      some (⟨{ w with db := ns.foldl (w.buffers.flushTransaction w.sesId).rollback w.db }, .passed⟩,
        []) := by
  induction ns generalizing w with
  | nil => rfl
  | cons n ns ih =>
    have hone : exec keepsGoing ⟨w, .passed⟩ (.rollback n) =
        some (⟨rolledBack w n, .passed⟩, []) := rfl
    exact Machine.execFrom_cons hone (ih (rolledBack w n))

/-- The statements of an attempt that commits, and those after it. -/
theorem execFrom_commit {db : Db} {vs : List Time}
    (hbody : w.buffers.flushBody w.sesId w.db = .ok (db, vs)) :
    Machine.execFrom (exec keepsGoing) ⟨w, .passed⟩
        [.insert, .read, .update, .commit, .clear, .zero, .release] =
      some (⟨{ w with db, buffers := w.buffers.clear }, .idle⟩, [.committed vs]) := by
  simp only [Buffers.flushBody] at hbody
  cases hn : w.buffers.newTimes w.sesId with
  | error e => simp [hn] at hbody
  | ok vs' =>
    cases hi : w.db.batchInsert vs' with
    | error e => simp [hn, hi] at hbody
    | ok db' =>
      simp only [hn, hi, Except.ok.injEq, Prod.mk.injEq] at hbody
      obtain ⟨rfl, rfl⟩ := hbody
      have hrow := Db.writeSession_eq_addPackets w.db db' w.sesId w.buffers.amounts
        (Db.batchInsert_ok hi).2.1
      simp only [Machine.execFrom, exec, hn, hi, Option.map_some, hrow]
      rfl

/-- An attempt that throws. -/
theorem execFrom_throw {e : Thrown} {n : ℕ}
    (hbody : w.buffers.flushBody w.sesId w.db = .error (e, n)) :
    Machine.execFrom (exec keepsGoing) ⟨w, .passed⟩ [.insert] =
      some (throw keepsGoing (w.consumeTimes n) (.body e)) := by
  simp only [Buffers.flushBody] at hbody
  cases hn : w.buffers.newTimes w.sesId with
  | error e' =>
    simp only [hn, Except.error.injEq, Prod.mk.injEq] at hbody
    obtain ⟨rfl, rfl⟩ := hbody
    simp only [Machine.execFrom, exec, hn, Option.map_some]
    rfl
  | ok vs =>
    cases hi : w.db.batchInsert vs with
    | error e' =>
      simp only [hn, hi, Except.error.injEq, Prod.mk.injEq] at hbody
      obtain ⟨rfl, rfl⟩ := hbody
      simp only [Machine.execFrom, exec, hn, hi, Option.map_some]
      rfl
    | ok db => simp [hn, hi] at hbody

/-- The statements of the transaction, from its first attempt to its end. -/
theorem execFrom_transaction (w : World) (faults : Faults) :
    ∃ ks, Machine.execFrom (exec keepsGoing) ⟨w, .passed⟩ ks =
      some (match (w.buffers.flushTransaction w.sesId).run faults w.db with
        | (db, .ok vs) => (⟨{ w with db, buffers := w.buffers.clear }, .idle⟩, [.committed vs])
        | (db, .error e) => (⟨{ w with db, scheduled := keepsGoing }, .idle⟩, [.threw e])) := by
  -- the last attempt is made on `d`
  generalize hd : faults.aborted.foldl (w.buffers.flushTransaction w.sesId).rollback w.db = d
  have hroll := @execFrom_rollbacks keepsGoing w faults.aborted
  rw [hd] at hroll
  simp only [Transaction.run, hd]
  cases faults.fatal with
  | some n =>
    have hfail : exec keepsGoing ⟨{ w with db := d }, .passed⟩ (.fail n) =
        some (throw keepsGoing (rolledBack { w with db := d } n) .database) := rfl
    exact ⟨_, Machine.execFrom_append hroll (Machine.execFrom_single hfail)⟩
  | none =>
    cases hbody : w.buffers.flushBody w.sesId d with
    | ok r =>
      have hcommit := @execFrom_commit keepsGoing { w with db := d } _ _ hbody
      refine ⟨_, (Machine.execFrom_append hroll hcommit).trans ?_⟩
      simp only [Buffers.flushTransaction, hbody]
      rfl
    | error r =>
      have hthrow := @execFrom_throw keepsGoing { w with db := d } _ _ hbody
      refine ⟨_, (Machine.execFrom_append hroll hthrow).trans ?_⟩
      simp only [Buffers.flushTransaction, hbody]
      rfl

/-- The statements of a tick. -/
theorem execFrom_tick {w' : World} {faults : Faults} {es : List Event}
    (h : w.exec keepsGoing (.tick faults) = some (w', es)) :
    ∃ ks, Machine.execFrom (exec keepsGoing) ⟨w, .idle⟩ ks = some (⟨w', .idle⟩, es) := by
  simp only [World.exec] at h
  split_ifs at h with hs
  have hacq : exec keepsGoing ⟨w, .idle⟩ .acquire = some (⟨w, .acquired⟩, []) := by
    simp only [exec, hs, ↓reduceIte]
  simp only [World.tick] at h
  cases hg : w.buffers.guard with
  | false =>
    rw [hg] at h
    cases h
    have hguard : exec keepsGoing ⟨w, .acquired⟩ .guard = some (⟨w, .finished⟩, []) := by
      simp only [exec, hg, Bool.false_eq_true, ↓reduceIte]
    have hrel : exec keepsGoing ⟨w, .finished⟩ .release = some (⟨w, .idle⟩, []) := rfl
    exact ⟨[.acquire, .guard, .release], Machine.execFrom_cons hacq
      (Machine.execFrom_cons hguard (Machine.execFrom_single hrel))⟩
  | true =>
    simp only [hg, ↓reduceIte] at h
    cases hst : statistics w.buffers.bothTimes with
    | error e =>
      rw [hst] at h
      cases h
      have hguard : exec keepsGoing ⟨w, .acquired⟩ .guard =
          some (throw keepsGoing w (.body e)) := by
        simp only [exec, hg, hst, ↓reduceIte]
      exact ⟨[.acquire, .guard], Machine.execFrom_cons hacq (Machine.execFrom_single hguard)⟩
    | ok st =>
      rw [hst] at h
      have hguard : exec keepsGoing ⟨w, .acquired⟩ .guard = some (⟨w, .passed⟩, []) := by
        simp only [exec, hg, hst, ↓reduceIte]
      obtain ⟨ks, hks⟩ := @execFrom_transaction keepsGoing w faults
      refine ⟨.acquire :: .guard :: ks, (Machine.execFrom_cons hacq
        (Machine.execFrom_cons hguard hks)).trans ?_⟩
      rcases hr : (w.buffers.flushTransaction w.sesId).run faults w.db with ⟨db, e | vs⟩ <;>
      · simp only [hr] at h
        cases h
        rfl

end Threads

/-- **A tick can be performed statement by statement.**  A run of `server` is, with the same
observations, a run of `threads`. -/
theorem threads_of_server {ls : List Label} {w : World} (h : (server keepsGoing).run ls = some w) :
    ∃ ks, (threads keepsGoing).run ks = some ⟨w, .idle⟩ ∧
      threads.events keepsGoing ks = server.events keepsGoing ls := by
  obtain ⟨ks, s, hks, hev, rfl⟩ : ∃ ks s, (threads keepsGoing).run ks = some s ∧
      threads.events keepsGoing ks = server.events keepsGoing ls ∧ s = ⟨w, .idle⟩ := by
    refine @Machine.emitted_simulation _ _ _ _ _ World.start (World.exec keepsGoing)
      Threads.start (Threads.exec keepsGoing) (fun w s => s = ⟨w, .idle⟩) (fun _ _ => True) rfl
      (fun _ _ _ _ _ _ _ _ => trivial) ?_ _ _ h trivial
    rintro ls w l w' es s _ he - rfl
    by_cases hl : ∃ faults, l = .tick faults
    · obtain ⟨faults, rfl⟩ := hl
      obtain ⟨ks, hks⟩ := Threads.execFrom_tick he
      exact ⟨ks, _, hks, rfl⟩
    · have ha : TimerPc.admits .idle l = true := by
        cases l <;> first | rfl | exact absurd ⟨_, rfl⟩ hl
      have hother : Threads.exec keepsGoing ⟨w, .idle⟩ (.other l) = some (⟨w', .idle⟩, es) := by
        simp only [Threads.exec, ha, he, ↓reduceIte, Option.map_some]
      exact ⟨[.other l], _, Machine.execFrom_single hother, rfl⟩
  exact ⟨ks, hks, hev⟩

/-- A tick that is retried twice, and one that fails. -/
def retriedRun : List Label :=
  [.connect ⟨"10.0.0.2", "esp", .nothing⟩, .atMostOnce 0 (-1) 5, .atMostOnce 0 (-1) 9,
    .tick ⟨[1, 0], none⟩, .atMostOnce 0 (-1) 20, .tick ⟨[1], some 0⟩]

theorem threads_of_server_retried : ∃ w, (server false).run retriedRun = some w ∧
    ∃ ks, (threads false).run ks = some ⟨w, .idle⟩ ∧
      threads.events false ks = server.events false retriedRun :=
  ⟨_, rfl, @threads_of_server false retriedRun _ rfl⟩

end MqttServerTest
