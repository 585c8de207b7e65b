import MqttServerTest.Server.Flush

/-!
# The server

The server of `Main.kt` as a machine.  Its steps are the connection attempts, the parts of the
publish handler of any connection, the ticks of the timer and the resets of `cancel.php`; a
`synchronized` block and a tick are one step each, as the lock makes them.  A label says what the
environment decides: who connects or publishes what and when, and what the database does to a
transaction.

The timer is a parameter: the code's `java.util.Timer` is cancelled by an exception that leaves
the task (`keepsGoing = false`).

## Main results

* `step_of_exec` : what a step can do, case by case.
* `World.Valid.of_reachable` : everything a flush looks up is there, so that a flush never fails
  on its own data (`World.Valid.flush_commits`).
-/

namespace MqttServerTest

/-- A pair that a publish handler has appended to a list, with its origin. -/
structure Record where
  endpoint : ℕ
  /-- The device of the connection. -/
  devId : ℕ
  level : Level
  messageId : ℤ
  gap : Int64
  deriving DecidableEq

/-- The pair itself. -/
def Record.pair (r : Record) : ℤ × Int64 := (r.messageId, r.gap)

/-- What can be observed of a step. -/
inductive Event where
  /-- A publish handler has appended a pair. -/
  | recorded (r : Record)
  /-- A publish handler has completed its `synchronized` block. -/
  | received (level : Level)
  /-- `publishAcknowledge` has been called. -/
  | acknowledged
  /-- `pubackSent` has been incremented. -/
  | incremented
  /-- A tick has committed these rows. -/
  | committed (vs : List Time)
  /-- A tick has thrown. -/
  | threw (e : Failure Thrown)
  deriving DecidableEq

/-- The server and its database. -/
structure World where
  /-- The accepted connections. -/
  endpoints : List Endpoint
  buffers : Buffers
  db : Db
  sesId : ℕ
  /-- The timer has not been cancelled. -/
  scheduled : Bool

/-- What the environment decides. -/
inductive Label where
  /-- A connection attempt. -/
  | connect (a : Devices.Attempt)
  /-- Connection `i` handles a QoS 0 packet at time `curr`. -/
  | atMostOnce (i : ℕ) (messageId : ℤ) (curr : Int64)
  /-- Connection `i` acknowledges a QoS 1 packet. -/
  | acknowledge (i : ℕ) (messageId : ℤ)
  /-- Connection `i` counts the packet it has acknowledged. -/
  | increment (i : ℕ)
  /-- Connection `i` completes the packet it has counted, at time `curr`. -/
  | atLeastOnce (i : ℕ) (curr : Int64)
  /-- Connection `i` handles a QoS 2 packet. -/
  | exactlyOnce (i : ℕ) (messageId : ℤ)
  /-- The timer task runs. -/
  | tick (faults : Faults)
  /-- `cancel.php` runs. -/
  | cancel
  deriving DecidableEq

namespace World

/-- The server when it starts to listen. -/
def start : World := ⟨[], Buffers.empty, Db.start.1, Db.start.2, true⟩

/-- `endpointHandler`.  A connection whose registration throws is not accepted. -/
def connect (w : World) (a : Devices.Attempt) : World :=
  let r := (Devices.register a.host a.clientIdentifier).run a.faults w.db.devices
  let db := w.db.withDevices r.1 (Devices.register_ids_subset _ _ _ _)
  match r.2 with
  | .ok devId => { w with db, endpoints := w.endpoints ++ [Endpoint.accept devId] }
  | .error _ => { w with db }

/-- Connection `i` moves on in its publish handler. -/
def moveTo (w : World) (i : ℕ) (e : Endpoint) (pc : HandlerPc) : World :=
  { w with endpoints := w.endpoints.set i { e with pc } }

/-- The `synchronized` block of connection `i`, then `prev = curr`. -/
def handle (w : World) (i : ℕ) (e : Endpoint) (level : Level) (messageId : ℤ) (curr : Int64) :
    World × List Event :=
  ({ w with
      endpoints := w.endpoints.set i ⟨e.devId, curr, .idle⟩
      buffers := w.buffers.record level e.devId e.prev curr messageId },
    if IsGap e.prev curr then
      [.recorded ⟨i, e.devId, level, messageId, curr - e.prev⟩, .received level]
    else [.received level])

variable (keepsGoing : Bool)

/-- The timer task. -/
def tick (w : World) (faults : Faults) : World × List Event :=
  if w.buffers.guard then
    match statistics w.buffers.bothTimes with
    | .error e => ({ w with scheduled := keepsGoing }, [.threw (.body e)])
    | .ok _ =>
      match (w.buffers.flushTransaction w.sesId).run faults w.db with
      | (db, .ok vs) => ({ w with db, buffers := w.buffers.clear }, [.committed vs])
      | (db, .error e) => ({ w with db, scheduled := keepsGoing }, [.threw e])
  else (w, [])

/-- One step of the server. -/
def exec (w : World) : Label → Option (World × List Event)
  | .connect a => some (w.connect a, [])
  | .atMostOnce i messageId curr =>
    match w.endpoints[i]? with
    | some ⟨devId, prev, .idle⟩ =>
      some (w.handle i ⟨devId, prev, .idle⟩ .atMostOnce messageId curr)
    | _ => none
  | .acknowledge i messageId =>
    match w.endpoints[i]? with
    | some ⟨devId, prev, .idle⟩ =>
      some (w.moveTo i ⟨devId, prev, .idle⟩ (.acknowledged messageId), [.acknowledged])
    | _ => none
  | .increment i =>
    match w.endpoints[i]? with
    | some ⟨devId, prev, .acknowledged messageId⟩ =>
      some ({ w.moveTo i ⟨devId, prev, .acknowledged messageId⟩ (.counted messageId) with
        buffers := w.buffers.increment }, [.incremented])
    | _ => none
  | .atLeastOnce i curr =>
    match w.endpoints[i]? with
    | some ⟨devId, prev, .counted messageId⟩ =>
      some (w.handle i ⟨devId, prev, .counted messageId⟩ .atLeastOnce messageId curr)
    | _ => none
  | .exactlyOnce i _ =>
    match w.endpoints[i]? with
    | some ⟨_, _, .idle⟩ => some (w, [])
    | _ => none
  | .tick faults => if w.scheduled then some (w.tick keepsGoing faults) else none
  | .cancel => some ({ w with db := w.db.cancel }, [])

end World

/-- The server of `Main.kt`. -/
def server (keepsGoing : Bool) : Machine World Label :=
  Machine.ofExec World.start (World.exec keepsGoing)

/-- What has been observed of the run `ls`. -/
def server.events (keepsGoing : Bool) (ls : List Label) : List Event :=
  Machine.emitted World.start (World.exec keepsGoing) ls

/-! ### What a connection and a packet change -/

namespace World

variable (w : World) (a : Devices.Attempt)

@[simp] theorem connect_buffers : (w.connect a).buffers = w.buffers := by
  simp only [connect]
  split <;> rfl

@[simp] theorem connect_sesId : (w.connect a).sesId = w.sesId := by
  simp only [connect]
  split <;> rfl

@[simp] theorem connect_scheduled : (w.connect a).scheduled = w.scheduled := by
  simp only [connect]
  split <;> rfl

@[simp] theorem connect_sessions : (w.connect a).db.sessions = w.db.sessions := by
  simp only [connect]
  split <;> rfl

@[simp] theorem connect_times : (w.connect a).db.times = w.db.times := by
  simp only [connect]
  split <;> rfl

/-- A connection is accepted or not. -/
theorem connect_endpoints : (w.connect a).endpoints = w.endpoints ∨
    ∃ devId, (w.connect a).endpoints = w.endpoints ++ [Endpoint.accept devId] := by
  simp only [connect]
  split
  · exact Or.inr ⟨_, rfl⟩
  · exact Or.inl rfl

variable {w} {i : ℕ} {e : Endpoint} {level : Level} {messageId : ℤ} {curr : Int64}

/-- A packet that has a gap. -/
theorem handle_of_isGap (h : IsGap e.prev curr) : w.handle i e level messageId curr =
    ({ w with
        endpoints := w.endpoints.set i ⟨e.devId, curr, .idle⟩
        buffers := w.buffers.add level e.devId (messageId, curr - e.prev) },
      [.recorded ⟨i, e.devId, level, messageId, curr - e.prev⟩, .received level]) := by
  simp only [handle, Buffers.record, h, ↓reduceIte]

/-- A packet that has no gap. -/
theorem handle_of_not_isGap (h : ¬ IsGap e.prev curr) : w.handle i e level messageId curr =
    ({ w with endpoints := w.endpoints.set i ⟨e.devId, curr, .idle⟩ }, [.received level]) := by
  simp only [handle, Buffers.record, h, ↓reduceIte]

end World

/-! ### What a step can do -/

/-- The steps of the server, case by case. -/
inductive Step (keepsGoing : Bool) (w : World) : Label → World → List Event → Prop
  | connect (a : Devices.Attempt) : Step keepsGoing w (.connect a) (w.connect a) []
  | handle {l : Label} (i : ℕ) (e : Endpoint) (level : Level) (messageId : ℤ) (curr : Int64)
      (he : w.endpoints[i]? = some e)
      (hl : l = .atMostOnce i messageId curr ∧ level = .atMostOnce ∧ e.pc = .idle ∨
        l = .atLeastOnce i curr ∧ level = .atLeastOnce ∧ e.pc = .counted messageId) :
      Step keepsGoing w l (w.handle i e level messageId curr).1
        (w.handle i e level messageId curr).2
  | acknowledge {i : ℕ} {e : Endpoint} (messageId : ℤ) (he : w.endpoints[i]? = some e)
      (hpc : e.pc = .idle) :
      Step keepsGoing w (.acknowledge i messageId) (w.moveTo i e (.acknowledged messageId))
        [.acknowledged]
  | increment {i : ℕ} {e : Endpoint} {messageId : ℤ} (he : w.endpoints[i]? = some e)
      (hpc : e.pc = .acknowledged messageId) :
      Step keepsGoing w (.increment i)
        { w.moveTo i e (.counted messageId) with buffers := w.buffers.increment } [.incremented]
  | exactlyOnce (i : ℕ) (messageId : ℤ) : Step keepsGoing w (.exactlyOnce i messageId) w []
  | tickNothing (faults : Faults) (hs : w.scheduled = true) (hg : w.buffers.guard = false) :
      Step keepsGoing w (.tick faults) w []
  | tickNoGaps (faults : Faults) (hs : w.scheduled = true) (hg : w.buffers.guard = true)
      (hb : w.buffers.bothTimes = []) :
      Step keepsGoing w (.tick faults) { w with scheduled := keepsGoing }
        [.threw (.body .nullPointer)]
  | tickFails {db : Db} {e : Failure Thrown} (faults : Faults) (hs : w.scheduled = true)
      (hb : w.buffers.bothTimes ≠ [])
      (hr : (w.buffers.flushTransaction w.sesId).run faults w.db = (db, .error e)) :
      Step keepsGoing w (.tick faults) { w with db, scheduled := keepsGoing } [.threw e]
  | tickCommits {db : Db} (vs : List Time) (faults : Faults) (hs : w.scheduled = true)
      (hb : w.buffers.bothTimes ≠ [])
      (hr : (w.buffers.flushTransaction w.sesId).run faults w.db = (db, .ok vs)) :
      Step keepsGoing w (.tick faults) { w with db, buffers := w.buffers.clear }
        [.committed vs]
  | cancel : Step keepsGoing w .cancel { w with db := w.db.cancel } []

variable {keepsGoing : Bool}

theorem guard_of_bothTimes {b : Buffers} (h : b.bothTimes ≠ []) : b.guard = true :=
  Buffers.guard_iff.2 (Or.inl (Buffers.bothTimes_ne_nil_iff.1 h))

/-- The four outcomes of the timer task. -/
theorem step_of_tick {w : World} {faults : Faults} (hs : w.scheduled = true) :
    Step keepsGoing w (.tick faults) (w.tick keepsGoing faults).1
      (w.tick keepsGoing faults).2 := by
  simp only [World.tick]
  cases hg : w.buffers.guard with
  | false =>
    simp only [Bool.false_eq_true, ↓reduceIte]
    exact .tickNothing faults hs hg
  | true =>
    simp only [↓reduceIte]
    by_cases hb : w.buffers.bothTimes = []
    · rw [hb, statistics_nil]
      exact .tickNoGaps faults hs hg hb
    · obtain ⟨st, hst⟩ := statistics_ok_iff.2 hb
      rw [hst]
      rcases hr : (w.buffers.flushTransaction w.sesId).run faults w.db with ⟨db, e | vs⟩
      · exact .tickFails faults hs hb hr
      · exact .tickCommits vs faults hs hb hr

/-- **What a step can do.** -/
theorem step_of_exec {w w' : World} {l : Label} {es : List Event}
    (h : w.exec keepsGoing l = some (w', es)) : Step keepsGoing w l w' es := by
  cases l with
  | connect a => cases h; exact .connect a
  | atMostOnce i messageId curr =>
    simp only [World.exec] at h
    split at h
    · rename_i devId prev he
      cases h; exact .handle _ _ _ _ _ he (Or.inl ⟨rfl, rfl, rfl⟩)
    · cases h
  | acknowledge i messageId =>
    simp only [World.exec] at h
    split at h
    · rename_i devId prev he
      cases h; exact .acknowledge _ he rfl
    · cases h
  | increment i =>
    simp only [World.exec] at h
    split at h
    · rename_i devId prev messageId he
      cases h; exact .increment he rfl
    · cases h
  | atLeastOnce i curr =>
    simp only [World.exec] at h
    split at h
    · rename_i devId prev messageId he
      cases h; exact .handle _ _ _ _ _ he (Or.inr ⟨rfl, rfl, rfl⟩)
    · cases h
  | exactlyOnce i messageId =>
    simp only [World.exec] at h
    split at h
    · cases h; exact .exactlyOnce i messageId
    · cases h
  | tick faults =>
    simp only [World.exec] at h
    split_ifs at h with hs
    have ht : Step keepsGoing w (.tick faults) _ _ := step_of_tick hs
    rwa [Option.some.inj h] at ht
  | cancel => cases h; exact .cancel

/-- A step keeps the session. -/
theorem Step.sesId {w w' : World} {l : Label} {es : List Event}
    (h : Step keepsGoing w l w' es) : w'.sesId = w.sesId := by
  cases h with
  | connect a => exact w.connect_sesId a
  | _ => rfl

/-! ### Everything a flush looks up is there -/

namespace World

/-- What a flush relies on. -/
structure Valid (w : World) : Prop where
  /-- The row of the session exists. -/
  session : w.sesId ∈ w.db.sessions.ids
  /-- The device of every connection exists. -/
  endpoint : ∀ e ∈ w.endpoints, e.devId ∈ w.db.devices.table.ids
  /-- Every buffered pair has a device under its message id. -/
  mapped : ∀ level, ∀ p ∈ w.buffers.packets level, ∃ d, w.buffers.mesToDevIdMap p.1 = some d
  /-- Every device in the map exists. -/
  device : ∀ m d, w.buffers.mesToDevIdMap m = some d → d ∈ w.db.devices.table.ids

theorem valid_start : start.Valid where
  session := by decide
  endpoint := by simp [start]
  mapped level := by cases level <;> simp [start, Buffers.empty, Buffers.packets]
  device := by simp [start, Buffers.empty]

/-- A step that keeps the buffers, the session and the keys of the tables keeps what a flush
relies on. -/
theorem Valid.mono {w w' : World} (h : w.Valid) (hses : w'.sesId = w.sesId)
    (hs : w.db.sessions.ids ⊆ w'.db.sessions.ids)
    (hd : w.db.devices.table.ids ⊆ w'.db.devices.table.ids)
    (he : ∀ e ∈ w'.endpoints, e.devId ∈ w'.db.devices.table.ids)
    (hp : ∀ level, ∀ p ∈ w'.buffers.packets level, p ∈ w.buffers.packets level)
    (hm : w'.buffers.mesToDevIdMap = w.buffers.mesToDevIdMap) : w'.Valid where
  session := by rw [hses]; exact hs h.session
  endpoint := he
  mapped level p hp' := by rw [hm]; exact h.mapped level p (hp level p hp')
  device m d hmd := by rw [hm] at hmd; exact hd (h.device m d hmd)

/-- A connection that moves on keeps its device. -/
theorem devId_of_mem_set {es : List Endpoint} {i : ℕ} {e e' x : Endpoint}
    (he : es[i]? = some e) (hx : x ∈ es.set i e') (hd : e'.devId = e.devId) :
    ∃ y ∈ es, y.devId = x.devId := by
  rcases List.mem_or_eq_of_mem_set hx with hx | rfl
  · exact ⟨x, hx, rfl⟩
  · exact ⟨e, List.mem_of_getElem? he, hd.symm⟩

theorem Valid.record {w : World} (h : w.Valid) {e : Endpoint} (he : e ∈ w.endpoints)
    (level : Level) (m : ℤ) (curr : Int64) :
    (∀ l, ∀ p ∈ (w.buffers.record level e.devId e.prev curr m).packets l,
      ∃ d, (w.buffers.record level e.devId e.prev curr m).mesToDevIdMap p.1 = some d) ∧
    ∀ m' d, (w.buffers.record level e.devId e.prev curr m).mesToDevIdMap m' = some d →
      d ∈ w.db.devices.table.ids := by
  simp only [Buffers.record]
  split_ifs with hg
  · rw [Buffers.add_mesToDevIdMap]
    refine ⟨fun l p hp => ?_, fun m' d hd => ?_⟩
    · -- a pair with another id than the new one has been in the list before
      by_cases hm : p.1 = m
      · exact ⟨e.devId, by rw [hm, Function.update_self]⟩
      · rw [Function.update_of_ne hm]
        refine h.mapped l p ?_
        by_cases hl : l = level
        · subst hl
          rw [Buffers.add_packets_self, List.mem_append, List.mem_singleton] at hp
          exact hp.resolve_right fun hpe => hm (by rw [hpe])
        · rwa [Buffers.add_packets_of_ne _ _ _ hl] at hp
    · by_cases hm : m' = m
      · rw [hm, Function.update_self, Option.some.injEq] at hd
        exact hd ▸ h.endpoint e he
      · rw [Function.update_of_ne hm] at hd
        exact h.device m' d hd
  · exact ⟨h.mapped, h.device⟩

/-- The rolled back attempts of a flush change no row. -/
theorem rollbacks_db (b : Buffers) (sesId : ℕ) (faults : Faults) (db : Db) :
    let db' := faults.aborted.foldl (b.flushTransaction sesId).rollback db
    db'.devices = db.devices ∧ db'.sessions = db.sessions ∧ db'.times.rows = db.times.rows := by
  have hv := Transaction.view_rollbacks (b.stable_view sesId) faults.aborted db
  simp only [Buffers.view, Prod.mk.injEq] at hv
  exact hv

/-- A flush that throws changes no row. -/
theorem flush_error_db {w : World} {faults : Faults} {db : Db} {e : Failure Thrown}
    (hr : (w.buffers.flushTransaction w.sesId).run faults w.db = (db, .error e)) :
    db.devices = w.db.devices ∧ db.sessions = w.db.sessions ∧
      db.times.rows = w.db.times.rows := by
  have hv : Buffers.view ((w.buffers.flushTransaction w.sesId).run faults w.db).1 =
      Buffers.view w.db :=
    Transaction.view_run_error (w.buffers.stable_view w.sesId) (e := e) (by rw [hr])
  rw [hr] at hv
  simp only [Buffers.view, Prod.mk.injEq] at hv
  exact hv

/-- What a flush that commits has done to the database. -/
theorem flush_ok_db {w : World} {faults : Faults} {db : Db} {vs : List Time}
    (hr : (w.buffers.flushTransaction w.sesId).run faults w.db = (db, .ok vs)) :
    w.buffers.newTimes w.sesId = .ok vs ∧ db.devices = w.db.devices ∧
      db.times.vals = w.db.times.vals ++ vs ∧
      db.sessions = (w.db.addPackets w.sesId w.buffers.packetsAMO.length
        w.buffers.packetsALO.length w.buffers.pubackSent.toInt).sessions := by
  obtain ⟨-, hb⟩ := Transaction.run_ok hr
  obtain ⟨hd, hs, ht⟩ := rollbacks_db w.buffers w.sesId faults w.db
  obtain ⟨hn, hd', ht', hs'⟩ := Buffers.flushBody_ok hb
  refine ⟨hn, hd'.trans hd, ?_, ?_⟩
  · rw [ht', Table.insertAll_vals, Table.vals, ht, ← Table.vals]
  · rw [hs']
    simp only [Db.addPackets, Db.withSessions, hs]

theorem Valid.step {w w' : World} {l : Label} {es : List Event} (h : w.Valid)
    (hst : Step keepsGoing w l w' es) : w'.Valid := by
  cases hst with
  | connect a =>
    have hids := Devices.register_ids_subset a.host a.clientIdentifier a.faults w.db.devices
    simp only [World.connect]
    cases hr : ((Devices.register a.host a.clientIdentifier).run a.faults w.db.devices).2 with
    | error e =>
      exact h.mono rfl (List.Subset.refl _) hids (fun e he => hids (h.endpoint e he))
        (fun _ _ hp => hp) rfl
    | ok devId =>
      refine h.mono rfl (List.Subset.refl _) hids (fun e he => ?_) (fun _ _ hp => hp) rfl
      rcases List.mem_append.1 he with he | he
      · exact hids (h.endpoint e he)
      · rw [List.mem_singleton.1 he]
        exact Devices.register_devId_mem (Prod.ext rfl hr)
  | handle i e level m curr he _ =>
    obtain ⟨hmap, hdev⟩ := h.record (List.mem_of_getElem? he) level m curr
    refine ⟨h.session, fun x hx => ?_, hmap, hdev⟩
    obtain ⟨y, hy, hyx⟩ := devId_of_mem_set he hx rfl
    exact hyx ▸ h.endpoint y hy
  | acknowledge m he _ =>
    refine h.mono rfl (List.Subset.refl _) (List.Subset.refl _) (fun x hx => ?_)
      (fun _ _ hp => hp) rfl
    obtain ⟨y, hy, hyx⟩ := devId_of_mem_set he hx rfl
    exact hyx ▸ h.endpoint y hy
  | increment he _ =>
    refine h.mono rfl (List.Subset.refl _) (List.Subset.refl _) (fun x hx => ?_)
      (fun level _ hp => by cases level <;> exact hp) rfl
    obtain ⟨y, hy, hyx⟩ := devId_of_mem_set he hx rfl
    exact hyx ▸ h.endpoint y hy
  | exactlyOnce => exact h
  | tickNothing => exact h
  | tickNoGaps => exact ⟨h.session, h.endpoint, h.mapped, h.device⟩
  | tickFails faults _ _ hr =>
    obtain ⟨hd, hs, -⟩ := flush_error_db hr
    refine h.mono rfl ?_ ?_ (fun e he => ?_) (fun _ _ hp => hp) rfl
    · rw [hs]; exact List.Subset.refl _
    · rw [hd]; exact List.Subset.refl _
    · show e.devId ∈ _
      rw [hd]; exact h.endpoint e he
  | tickCommits vs faults _ _ hr =>
    obtain ⟨-, hd, -, hs⟩ := flush_ok_db hr
    refine h.mono rfl ?_ ?_ (fun e he => ?_) (fun level p hp => ?_) rfl
    · rw [hs, Db.addPackets_ids]; exact List.Subset.refl _
    · rw [hd]; exact List.Subset.refl _
    · show e.devId ∈ _
      rw [hd]; exact h.endpoint e he
    · cases level <;> cases hp
  | cancel =>
    refine h.mono rfl ?_ (List.Subset.refl _) h.endpoint (fun _ _ hp => hp) rfl
    rw [Db.cancel_ids]; exact List.Subset.refl _

/-- In every reachable state everything a flush looks up is there. -/
theorem Valid.of_reachable {w : World} (h : (server keepsGoing).Reachable w) : w.Valid := by
  refine h.invariant_ofExec valid_start ?_
  intro w l w' es _ hw hst
  exact hw.step (step_of_exec hst)

/-- The rows of a flush can be built, and refer to a session and a device that exist. -/
theorem Valid.newTimes {w : World} (h : w.Valid) :
    ∃ vs, w.buffers.newTimes w.sesId = .ok vs ∧ ∀ v ∈ vs, w.db.HasReferences v := by
  -- `devId!!` does not throw
  obtain ⟨vs, hvs⟩ : ∃ vs, w.buffers.newTimes w.sesId = .ok vs := by
    refine mapM_ok_of_forall fun p hp => ?_
    have hp' := w.buffers.sorted_perm.mem_iff.1 hp
    obtain ⟨d, hd⟩ : ∃ d, w.buffers.mesToDevIdMap p.1 = some d := by
      rcases List.mem_append.1 hp' with hp' | hp'
      · exact h.mapped .atLeastOnce p hp'
      · exact h.mapped .atMostOnce p hp'
    exact ⟨_, by rw [Buffers.toTime, hd]⟩
  refine ⟨vs, hvs, fun v hv => ?_⟩
  obtain ⟨p, -, hpv⟩ := exists_of_mem_forall₂ (Buffers.newTimes_ok hvs) hv
  refine ⟨?_, h.device _ _ hpv.1⟩
  rw [hpv.2.2]
  exact h.session

/-- **A flush never fails on its own data**: if the database does not break off the last attempt,
the transaction commits. -/
theorem Valid.flush_commits {w : World} (h : w.Valid) {faults : Faults}
    (hf : faults.fatal = none) :
    ∃ db vs, (w.buffers.flushTransaction w.sesId).run faults w.db = (db, .ok vs) := by
  obtain ⟨vs, hvs, href⟩ := h.newTimes
  -- neither foreign key is violated, whatever was rolled back before
  obtain ⟨hd, hs, -⟩ := rollbacks_db w.buffers w.sesId faults w.db
  obtain ⟨db', hdb⟩ : ∃ db', (faults.aborted.foldl
      (w.buffers.flushTransaction w.sesId).rollback w.db).batchInsert vs = .ok db' := by
    refine Db.batchInsert_of_hasReferences fun v hv => ?_
    obtain ⟨hses, hdev⟩ := href v hv
    exact ⟨by rw [hs]; exact hses, by rw [hd]; exact hdev⟩
  have hbody : w.buffers.flushBody w.sesId (faults.aborted.foldl
      (w.buffers.flushTransaction w.sesId).rollback w.db) =
        .ok (db'.addPackets w.sesId w.buffers.packetsAMO.length w.buffers.packetsALO.length
          w.buffers.pubackSent.toInt, vs) := by
    simp only [Buffers.flushBody, hvs, hdb]
  exact ⟨_, vs, Transaction.run_of_body hf hbody⟩

end World

end MqttServerTest
