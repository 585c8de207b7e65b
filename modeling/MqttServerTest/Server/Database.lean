import MqttServerTest.Server.Registry

/-!
# The database

The three tables of the server.  The foreign keys of `Times` are fields of `Db`: a database with
a row that refers to no session or to no device can not be built, and a batch insert checks them.

`Db.start` is what `main` does to the database before it listens, `Db.batchInsert` and
`Db.addPackets` are the two statements of the flush transaction, and `Db.cancel` is the statement
of `cancel.php`.
-/

namespace MqttServerTest

/-- A row of `Times`. -/
structure Time where
  sessionId : ℕ
  time : Int64
  deviceId : ℕ
  deriving DecidableEq

/-- A row of `Sessions`. -/
structure Session where
  qos0Packets : ℕ
  qos1Packets : ℕ
  packetsSent : ℤ
  deriving DecidableEq, Repr

/-- The tables `Devices`, `Sessions` and `Times`. -/
structure Db where
  devices : Devices
  sessions : Table Session
  times : Table Time
  session_fk : ∀ v ∈ times.vals, v.sessionId ∈ sessions.ids
  device_fk : ∀ v ∈ times.vals, v.deviceId ∈ devices.table.ids

namespace Db

/-- The tables as `main` creates them, with the row of the new session, and its key `sesId`. -/
def start : Db × ℕ :=
  (⟨UniqueTable.create, Table.create.insert ⟨0, 0, 0⟩, Table.create, by simp [Table.vals],
    by simp [Table.vals]⟩, (Table.create : Table Session).next)

/-- `Devices` is replaced by a table that has kept every key. -/
def withDevices (db : Db) (d : Devices) (h : db.devices.table.ids ⊆ d.table.ids) : Db :=
  { db with
    devices := d
    device_fk := fun v hv => h (db.device_fk v hv) }

/-- `Sessions` is replaced by a table that has kept every key. -/
def withSessions (db : Db) (t : Table Session) (h : t.ids = db.sessions.ids) : Db :=
  { db with
    sessions := t
    session_fk := fun v hv => by rw [h]; exact db.session_fk v hv }

/-- `n` keys of `Times` are consumed by rows that are then rolled back. -/
def consumeTimes (db : Db) (n : ℕ) : Db := { db with times := db.times.consume n }

/-- `v` refers to a session and to a device. -/
def HasReferences (db : Db) (v : Time) : Prop :=
  v.sessionId ∈ db.sessions.ids ∧ v.deviceId ∈ db.devices.table.ids

instance (db : Db) (v : Time) : Decidable (db.HasReferences v) :=
  inferInstanceAs (Decidable (_ ∧ _))

/-- `Times.batchInsert` of the rows `vs`. -/
def batchInsert (db : Db) (vs : List Time) : Except Thrown Db :=
  if h : ∀ v ∈ vs, db.HasReferences v then
    .ok { db with
      times := db.times.insertAll vs
      session_fk := by
        intro v hv
        rcases List.mem_append.1 (db.times.insertAll_vals vs ▸ hv) with hv | hv
        exacts [db.session_fk v hv, (h v hv).1]
      device_fk := by
        intro v hv
        rcases List.mem_append.1 (db.times.insertAll_vals vs ▸ hv) with hv | hv
        exacts [db.device_fk v hv, (h v hv).2] }
  else .error .foreignKey

/-- `Sessions.update(where = { Sessions.id eq sesId })` : add to the three counters. -/
def addPackets (db : Db) (sesId qos0 qos1 : ℕ) (sent : ℤ) : Db :=
  db.withSessions (db.sessions.updateId sesId fun s =>
    ⟨s.qos0Packets + qos0, s.qos1Packets + qos1, s.packetsSent + sent⟩) (Table.updateId_ids _ _ _)

/-- `UPDATE Sessions SET QOS0Packets=0, QOS1Packets=0, packetsSent=0`. -/
def cancel (db : Db) : Db :=
  db.withSessions (db.sessions.update (fun _ => true) fun _ => ⟨0, 0, 0⟩) (Table.update_ids _ _ _)

@[simp] theorem addPackets_ids (db : Db) (i a b : ℕ) (c : ℤ) :
    (db.addPackets i a b c).sessions.ids = db.sessions.ids := Table.updateId_ids _ _ _

@[simp] theorem cancel_ids (db : Db) : db.cancel.sessions.ids = db.sessions.ids :=
  Table.update_ids _ _ _

/-- The counters after the update of the session `sesId`. -/
theorem addPackets_get? (db : Db) (sesId a b : ℕ) (c : ℤ) :
    (db.addPackets sesId a b c).sessions.get? sesId = (db.sessions.get? sesId).map fun s =>
      ⟨s.qos0Packets + a, s.qos1Packets + b, s.packetsSent + c⟩ := by
  show (db.sessions.updateId sesId _).get? sesId = _
  rw [Table.updateId_get?, if_pos rfl]

/-- The counters after a reset are zero. -/
theorem cancel_get? (db : Db) (sesId : ℕ) :
    db.cancel.sessions.get? sesId = (db.sessions.get? sesId).map fun _ => ⟨0, 0, 0⟩ := by
  cases h : db.sessions.get? sesId with
  | none =>
    rw [Option.map_none, ← Option.not_isSome_iff_eq_none, Table.get?_isSome_iff, cancel_ids,
      ← Table.get?_isSome_iff, h]
    exact Bool.false_ne_true
  | some r =>
    have hm : (⟨sesId, ⟨0, 0, 0⟩⟩ : Row Session) ∈ db.cancel.sessions.rows :=
      Table.mem_update.2 ⟨_, Table.mem_of_get?_eq_some h, rfl⟩
    exact Table.get?_eq_some hm

theorem batchInsert_ok {db db' : Db} {vs : List Time} (h : db.batchInsert vs = .ok db') :
    db'.devices = db.devices ∧ db'.sessions = db.sessions ∧
      db'.times = db.times.insertAll vs := by
  simp only [batchInsert] at h
  split_ifs at h
  cases h
  exact ⟨rfl, rfl, rfl⟩

theorem batchInsert_of_hasReferences {db : Db} {vs : List Time}
    (h : ∀ v ∈ vs, db.HasReferences v) : ∃ db', db.batchInsert vs = .ok db' :=
  ⟨_, dif_pos h⟩

end Db

end MqttServerTest
