import MqttServerTest.Server.Conservation

/-!
# Whose measurement a row is

The device of a row is looked up at the flush, under the message id of the pair, in a map that all
connections share.  A flush therefore gives every row to the device that recorded it exactly when
no two devices have recorded a gap under one message id since the previous flush
(`rows_attributed_iff`).  Every client numbers its packets from 1, so two devices that send at the
same time are enough for a wrong row (`rows_misattributed`).  In a run in which this does not happen
the server is a recorder of gaps with their devices (`World.measurements_perm`).
-/

namespace MqttServerTest

/-- Where the rows of a batch insert come from: the pairs in the window, in the order of the
batch. -/
def origins (win : List Record) : List Record :=
  sortedBy Record.messageId ((win.filter fun r => r.level = .atLeastOnce) ++
    win.filter fun r => r.level = .atMostOnce)

/-- Every row has the device that recorded its gap. -/
def Attributed (win : List Record) (vs : List Time) : Prop :=
  ∀ p ∈ (origins win).zip vs, p.2.deviceId = p.1.devId

/-- No two devices have recorded gaps under one message id. -/
def OneDevicePerId (win : List Record) : Prop :=
  ∀ r ∈ win, ∀ r' ∈ win, r.messageId = r'.messageId → r.devId = r'.devId

instance (win : List Record) (vs : List Time) : Decidable (Attributed win vs) :=
  inferInstanceAs (Decidable (∀ p ∈ (origins win).zip vs, p.2.deviceId = p.1.devId))

theorem origins_perm (win : List Record) : (origins win).Perm win :=
  (sortedBy_perm _ _).trans (filter_level_perm win)

theorem mem_origins {win : List Record} {r : Record} : r ∈ origins win ↔ r ∈ win :=
  (origins_perm win).mem_iff

/-- The batch is made of the pairs in the window, in this order. -/
theorem Tracks.sorted_eq {w : World} {es : List Event} (h : Tracks w es) :
    w.buffers.sorted = (origins (window es)).map Record.pair := by
  have hALO := h.packets .atLeastOnce
  have hAMO := h.packets .atMostOnce
  simp only [Buffers.packets] at hALO hAMO
  rw [Buffers.sorted, hALO, hAMO, ← List.map_append, ← sortedBy_map]
  rfl

/-- A gap with the device that recorded it. -/
def Record.measurement (r : Record) : ℕ × Int64 := (r.devId, r.gap)

/-- A gap with the device of its row. -/
def Time.measurement (v : Time) : ℕ × Int64 := (v.deviceId, v.time)

/-- What a flush has written, given the map it has read. -/
structure Written (map : ℤ → Option ℕ) (win : List Record) (vs : List Time) : Prop where
  rows : List.Forall₂ (fun r v => map r.messageId = some v.deviceId ∧ v.time = r.gap)
    (origins win) vs
  mapped : ∀ r ∈ win, ∃ r' ∈ win, r'.messageId = r.messageId ∧ map r.messageId = some r'.devId

theorem Tracks.written {w : World} {es : List Event} {sesId : ℕ} {vs : List Time}
    (h : Tracks w es) (hn : w.buffers.newTimes sesId = .ok vs) :
    Written w.buffers.mesToDevIdMap (window es) vs where
  rows := by
    have hrows := Buffers.newTimes_ok hn
    rw [h.sorted_eq, List.forall₂_map_left_iff] at hrows
    exact hrows.imp fun r v hv => ⟨hv.1, hv.2.1⟩
  mapped := h.mapped

namespace Written

variable {map : ℤ → Option ℕ} {win : List Record} {vs : List Time}

theorem times (h : Written map win vs) : vs.map Time.time = (origins win).map Record.gap :=
  map_eq_of_forall₂ h.rows fun _ _ hv => hv.2

/-- Every pair in the window is the origin of a row. -/
theorem exists_row (h : Written map win vs) {r : Record} (hr : r ∈ win) :
    ∃ v, (r, v) ∈ (origins win).zip vs := by
  obtain ⟨n, hn, rfl⟩ := List.getElem_of_mem (mem_origins.2 hr)
  have hn' : n < vs.length := by
    have hlen := h.rows.length_eq
    omega
  refine ⟨vs[n], List.mem_of_getElem? (i := n) ?_⟩
  rw [List.getElem?_zip_eq_some]
  exact ⟨List.getElem?_eq_getElem hn, List.getElem?_eq_getElem hn'⟩

/-- A row has the device in the map. -/
theorem row (h : Written map win vs) {r : Record} {v : Time}
    (hv : (r, v) ∈ (origins win).zip vs) : map r.messageId = some v.deviceId :=
  ((List.forall₂_iff_zip.1 h.rows).2 hv).1

theorem attributed_iff (h : Written map win vs) : Attributed win vs ↔ OneDevicePerId win := by
  constructor
  · intro ha r hr r' hr' hid
    obtain ⟨v, hv⟩ := h.exists_row hr
    obtain ⟨v', hv'⟩ := h.exists_row hr'
    -- both rows have been given the device that the map holds under the common id
    have hmap : map r.messageId = some r.devId := by rw [h.row hv, ha _ hv]
    have hmap' : map r'.messageId = some r'.devId := by rw [h.row hv', ha _ hv']
    rw [hid, hmap'] at hmap
    exact (Option.some.inj hmap).symm
  · rintro ho ⟨r, v⟩ hv
    have hr : r ∈ win := mem_origins.1 (List.of_mem_zip hv).1
    -- the map holds the device of some pair with this id
    obtain ⟨r', hr', hid, hmap⟩ := h.mapped r hr
    have hdev : v.deviceId = r'.devId := Option.some.inj ((h.row hv).symm.trans hmap)
    exact hdev.trans (ho r' hr' r hr hid)

/-- The rows of a flush are the measurements in the window. -/
theorem measurements (h : Written map win vs) (ho : OneDevicePerId win) :
    (vs.map Time.measurement).Perm (win.map Record.measurement) := by
  have hrows : List.Forall₂ (fun r v => v.measurement = r.measurement) (origins win) vs := by
    refine List.forall₂_iff_zip.2 ⟨h.rows.length_eq, fun {r v} hv => ?_⟩
    have htime : v.time = r.gap := ((List.forall₂_iff_zip.1 h.rows).2 hv).2
    exact Prod.ext (h.attributed_iff.2 ho _ hv) htime
  rw [map_eq_of_forall₂ hrows fun _ _ he => he]
  exact (origins_perm win).map _

end Written

/-- What the flush of a commit has written. -/
theorem rows_of_commit {keepsGoing : Bool} {ls : List Label} {w : World}
    (h : (server keepsGoing).run ls = some w) {pre : List Event} {vs : List Time}
    (hc : CommitAt (server.events keepsGoing ls) pre vs) :
    ∃ map, Written map (window pre) vs := by
  obtain ⟨ks, w₀, faults, db, hks, rfl, -, hr⟩ := flush_of_commitAt h hc
  exact ⟨_, (Tracks.of_run hks).written (World.flush_ok_db hr).1⟩

/-- **Whose measurement a row is.**  In every run, the rows of every commit are the gaps recorded
since the previous one, and all of them have the device that recorded them exactly if no two
devices have recorded gaps under one message id since then. -/
theorem rows_attributed_iff {keepsGoing : Bool} {ls : List Label} {w : World}
    (h : (server keepsGoing).run ls = some w) {pre : List Event} {vs : List Time}
    (hc : CommitAt (server.events keepsGoing ls) pre vs) :
    vs.map Time.time = (origins (window pre)).map Record.gap ∧
      (Attributed (window pre) vs ↔ OneDevicePerId (window pre)) := by
  obtain ⟨map, hw⟩ := rows_of_commit h hc
  exact ⟨hw.times, hw.attributed_iff⟩

/-- Two devices, each sending its first two packets, and a tick. -/
def sharedIdRun : List Label :=
  [.connect ⟨"10.0.0.2", "a", .nothing⟩, .connect ⟨"10.0.0.3", "b", .nothing⟩,
    .acknowledge 0 1, .increment 0, .atLeastOnce 0 1000,
    .acknowledge 1 1, .increment 1, .atLeastOnce 1 2000,
    .acknowledge 0 2, .increment 0, .atLeastOnce 0 3000,
    .acknowledge 1 2, .increment 1, .atLeastOnce 1 5000,
    .tick .nothing]

theorem rows_attributed_iff_shared : ∃ w pre vs, (server false).run sharedIdRun = some w ∧
    CommitAt (server.events false sharedIdRun) pre vs ∧
    vs.map Time.time = (origins (window pre)).map Record.gap ∧
    (Attributed (window pre) vs ↔ OneDevicePerId (window pre)) :=
  ⟨_, _, _, rfl, ⟨[], rfl⟩, @rows_attributed_iff false sharedIdRun _ rfl _ _ ⟨[], rfl⟩⟩

theorem rows_misattributed : ¬ ∀ ls w, (server false).run ls = some w → ∀ pre vs,
    CommitAt (server.events false ls) pre vs → Attributed (window pre) vs := by
  intro h
  have hr := h sharedIdRun _ rfl _ [⟨1, 2000, 2⟩, ⟨1, 3000, 2⟩] ⟨[], rfl⟩
  revert hr
  decide

/-! ### Runs without shared ids -/

/-- The server as a recorder of gaps with their devices; a gap in the lists has the device that a
flush would give it. -/
def World.measurements (w : World) : Recorder (ℕ × Int64) where
  stored := (w.db.times.vals.filter fun v => v.sessionId = w.sesId).map Time.measurement
  pending := (w.buffers.packetsALO ++ w.buffers.packetsAMO).filterMap fun p =>
    (w.buffers.mesToDevIdMap p.1).map fun devId => (devId, p.2)

/-- Without shared ids the map holds the device of every pair in the window. -/
theorem Tracks.devId_of_oneDevicePerId {w : World} {es : List Event} (h : Tracks w es)
    (ho : OneDevicePerId (window es)) {r : Record} (hr : r ∈ window es) :
    w.buffers.mesToDevIdMap r.messageId = some r.devId := by
  obtain ⟨r', hr', hid, hmap⟩ := h.mapped r hr
  rw [hmap, ho r' hr' r hr hid]

/-- **The server is a recorder of gaps with their devices**, up to the order in a batch, in every
run in which at no time two devices have recorded gaps under one message id since the last
commit. -/
theorem World.measurements_perm {keepsGoing : Bool} {ls : List Label} {w : World}
    (h : (server keepsGoing).run ls = some w)
    (ho : ∀ pre, pre <+: server.events keepsGoing ls → OneDevicePerId (window pre)) :
    w.measurements.Perm
      (Recorder.perform (operations Record.measurement (server.events keepsGoing ls))) where
  stored := by
    have hs := Stores.of_run h
    rw [World.measurements, hs.times,
      List.filter_eq_self.2 fun v hv => decide_eq_true (hs.session v hv)]
    refine stored_operations _ fun pre vs hc => ?_
    have hpre : pre <+: server.events keepsGoing ls := by
      obtain ⟨post, he⟩ := hc
      rw [he]
      exact List.prefix_append _ _
    obtain ⟨map, hw⟩ := rows_of_commit h hc
    exact hw.measurements (ho _ hpre)
  pending := by
    have ht := Tracks.of_run h
    rw [pending_operations]
    refine (ht.pairs_perm.filterMap _).trans (List.Perm.of_eq ?_)
    rw [List.filterMap_map, ← List.filterMap_eq_map]
    refine List.filterMap_congr fun r hr => ?_
    have hdev := ht.devId_of_oneDevicePerId (ho _ List.prefix_rfl) hr
    show (w.buffers.mesToDevIdMap r.messageId).map _ = _
    rw [hdev]
    rfl

/-- Two devices with message ids of their own, a commit, and a gap after it. -/
def ownIdsRun : List Label :=
  [.connect ⟨"10.0.0.2", "a", .nothing⟩, .connect ⟨"10.0.0.3", "b", .nothing⟩,
    .acknowledge 0 1, .increment 0, .atLeastOnce 0 1000,
    .acknowledge 1 11, .increment 1, .atLeastOnce 1 2000,
    .acknowledge 0 2, .increment 0, .atLeastOnce 0 3000,
    .acknowledge 1 12, .increment 1, .atLeastOnce 1 5000,
    .tick .nothing, .acknowledge 0 3, .increment 0, .atLeastOnce 0 7000]

theorem World.measurements_perm_ownIds : ∃ w, (server false).run ownIdsRun = some w ∧
    w.measurements.Perm
      (Recorder.perform (operations Record.measurement (server.events false ownIdsRun))) := by
  have hone : ∀ pre ∈ (server.events false ownIdsRun).inits, OneDevicePerId (window pre) := by
    unfold OneDevicePerId
    decide
  exact ⟨_, rfl, @World.measurements_perm false ownIdsRun _ rfl fun pre hpre =>
    hone pre ((List.mem_inits _ _).2 hpre)⟩

end MqttServerTest
