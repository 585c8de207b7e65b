import MqttServerTest.Server.Keys

/-!
# What a flush refers to

A pair waits in its list for the next flush that commits, which may come after any number of
connections and of flushes that have thrown.  In every reachable state the map holds, under the
message id of every pair, the id of a row of `Devices`, and `sesId` is the id of a row of
`Sessions`; a flush can fail only when the database does (`flush_references`).
-/

namespace MqttServerTest

variable {keepsGoing : Bool}

/-- Every buffered pair has a device, which is a row of the table with an id that is not 0. -/
theorem World.device_of_pair {w : World} (h : (server keepsGoing).Reachable w) {level : Level}
    {p : ℤ × Int64} (hp : p ∈ w.buffers.packets level) :
    ∃ r ∈ w.db.devices.table.rows, w.buffers.mesToDevIdMap p.1 = some r.id ∧ r.id ≠ 0 := by
  have hv := Valid.of_reachable h
  obtain ⟨devId, hmap⟩ := hv.mapped level p hp
  have hids := hv.device p.1 devId hmap
  obtain ⟨ls, hls⟩ := h
  have hpos := Devices.ids_pos (Machine.Reachable.of_run (devices_of_run hls)) hids
  obtain ⟨r, hr, rfl⟩ := Table.mem_ids.1 hids
  exact ⟨r, hr, hmap, by omega⟩

/-- **The flush transaction never fails on its own data.**  After any run, every buffered pair has
under its message id the id of a row of `Devices`, `sesId` is the id of a row of `Sessions`, the
rows of the batch can be built and violate no foreign key, and a flush commits unless the database
breaks it off. -/
theorem flush_references {ls : List Label} {w : World} (h : (server keepsGoing).run ls = some w) :
    (∀ p ∈ w.buffers.packetsALO ++ w.buffers.packetsAMO, ∃ r ∈ w.db.devices.table.rows,
      w.buffers.mesToDevIdMap p.1 = some r.id ∧ r.id ≠ 0) ∧
    w.sesId ∈ w.db.sessions.ids ∧
    (∃ vs, w.buffers.newTimes w.sesId = .ok vs ∧ ∀ v ∈ vs, w.db.HasReferences v) ∧
    ∀ faults : Faults, faults.fatal = none → ∃ db vs,
      (w.buffers.flushTransaction w.sesId).run faults w.db = (db, .ok vs) := by
  have hr := Machine.Reachable.of_run h
  have hv := World.Valid.of_reachable hr
  refine ⟨fun p hp => ?_, hv.session, hv.newTimes, fun faults hf => hv.flush_commits hf⟩
  rcases List.mem_append.1 hp with hp | hp
  · exact @World.device_of_pair _ _ hr .atLeastOnce _ hp
  · exact @World.device_of_pair _ _ hr .atMostOnce _ hp

/-- The registration of the second device is retried and the first tick is rolled back; the pair of
the second device still refers to its row. -/
theorem flush_references_retried : ∃ w, (server true).run
      [.connect ⟨"10.0.0.2", "a", .nothing⟩, .connect ⟨"10.0.0.3", "b", ⟨[1], none⟩⟩,
        .atMostOnce 1 0 1000, .atMostOnce 1 0 2000, .tick ⟨[], some 1⟩] = some w ∧
    (∀ p ∈ w.buffers.packetsALO ++ w.buffers.packetsAMO, ∃ r ∈ w.db.devices.table.rows,
      w.buffers.mesToDevIdMap p.1 = some r.id ∧ r.id ≠ 0) ∧
    w.sesId ∈ w.db.sessions.ids ∧ w.buffers.mesToDevIdMap 0 = some 3 :=
  ⟨_, rfl, (@flush_references true [.connect ⟨"10.0.0.2", "a", .nothing⟩,
      .connect ⟨"10.0.0.3", "b", ⟨[1], none⟩⟩, .atMostOnce 1 0 1000, .atMostOnce 1 0 2000,
      .tick ⟨[], some 1⟩] _ rfl).1,
    by decide, rfl⟩

end MqttServerTest
