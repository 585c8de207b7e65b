import MqttServerTest.Dashboard.Page
import MqttServerTest.Data.Window
import MqttServerTest.Server.Keys

/-!
# Which measurements are in the charts

The page hard-codes the device ids 1 and 2.  The server takes the ids from an auto-increment column,
whose keys are also consumed by inserts that are rolled back or rejected, so the id of the second
client may be larger than 2, and then no chart shows its rows (`measurements_shown_iff`).
-/

namespace MqttServerTest

variable {keepsGoing : Bool} {ls : List Label} {w : World}

/-- The points of a chart. -/
def Chart.points (c : Chart) : List (ℤ × ℤ) := c.labels.zip c.values

/-- The point of a row. -/
def point (r : Row Time) : ℤ × ℤ := (number r.id, number r.val.time.toInt)

theorem Chart.points_of (rs : List (Row Time)) : (Chart.of rs).points = rs.map point :=
  List.zip_map'

/-- Every row that `api.php` has returned is in exactly one of the charts. -/
def Page.ShowsAll (p : Page) (db : Db) : Prop :=
  (p.myChart.points ++ p.myChart2.points).Perm ((lastTimes db).map point)

/-- The charts show the rows of the devices 1 and 2. -/
theorem Page.showsAll_iff {p p' : Page} {db : Db} (h : p.update (api db) = some p') :
    p'.ShowsAll db ↔ ∀ r ∈ lastTimes db, r.val.deviceId = 1 ∨ r.val.deviceId = 2 := by
  obtain ⟨h₁, h₂⟩ := update_charts h
  have hdisjoint : ∀ r ∈ lastTimes db, ofDevice 1 r = true → ofDevice 2 r = false := by
    intro r _ hr
    simp only [ofDevice, decide_eq_true_eq] at hr
    simp [ofDevice, hr]
  rw [ShowsAll, h₁, h₂, Chart.points_of, Chart.points_of, map_filter_append_perm_iff _ hdisjoint]
  simp [ofDevice]

/-- The callback always runs to its end on an answer about the server's tables. -/
theorem Page.update_of_reachable (h : (server keepsGoing).Reachable w) (p : Page) :
    ∃ p', p.update (api w.db) = some p' := by
  have hses := (World.Valid.of_reachable h).session
  rw [← Option.isSome_iff_exists, update_isSome_iff]
  intro hnil
  rw [Table.ids, hnil] at hses
  cases hses

/-! ### The ids of the clients -/

namespace Devices

/-- The id of a client that shares the server with at most one other is 1 or 2 exactly if no key had
been lost when its address was registered, or only one and the address was the first. -/
theorem Accounts.id_eq_one_or_two_iff {d : Devices} {g : Ledger} (h : Accounts d g)
    (hlen : d.table.rows.length ≤ 2) {x : Registration} (hx : x ∈ g.registrations) :
    1 + x.devices + x.lost = 1 ∨ 1 + x.devices + x.lost = 2 ↔
      x.lost = 0 ∨ x.devices = 0 ∧ x.lost = 1 := by
  have hb := (h.bounds x hx).1
  omega

end Devices

/-- No key of `Devices` had been lost when the device with the row `r` was registered, or only one
and it was the first device. -/
def World.RegisteredInTime (w : World) (as : List Devices.Attempt) (r : Row Time) : Prop :=
  ∀ d ∈ w.db.devices.table.rows, d.id = r.val.deviceId →
    ∀ x ∈ (Devices.ledger as).registrations, x.host = d.val.ip →
      x.lost = 0 ∨ x.devices = 0 ∧ x.lost = 1

/-- The condition says that the row has the id of a client. -/
theorem World.registeredInTime_iff (h : (server keepsGoing).run ls = some w)
    (hlen : w.db.devices.table.rows.length ≤ 2) {r : Row Time} (hr : r ∈ lastTimes w.db) :
    w.RegisteredInTime (attempts ls) r ↔ r.val.deviceId = 1 ∨ r.val.deviceId = 2 := by
  have hg := Devices.Accounts.of_run (devices_of_run h)
  have hips := World.ips_nodup (Machine.Reachable.of_run h)
  have hrow : r ∈ w.db.times.rows := by
    rw [lastTimes, List.mem_reverse] at hr
    exact List.mem_reverse.1 (List.mem_of_mem_take hr)
  obtain ⟨d, hd, hid⟩ := Table.mem_ids.1 (w.db.device_fk r.val (List.mem_map_of_mem hrow))
  constructor
  · intro htime
    obtain ⟨x, hx, hip, heq⟩ := hg.exists_registration hd
    rw [← hid, heq, hg.id_eq_one_or_two_iff hlen hx]
    exact htime d hd hid x hx hip
  · intro hone d' hd' hid' x hx hip
    rw [← hid', hg.id_eq hips hd' hx hip] at hone
    exact (hg.id_eq_one_or_two_iff hlen hx).1 hone

theorem World.registeredInTime_of_no_key_lost (h : (server keepsGoing).run ls = some w)
    (hlost : (Devices.ledger (attempts ls)).lost = 0) (r : Row Time) :
    w.RegisteredInTime (attempts ls) r := by
  intro d _ _ x hx _
  have hle := ((Devices.Accounts.of_run (devices_of_run h)).bounds x hx).2
  omega

/-- As long as no key is lost, no measurement of two clients is missing. -/
theorem measurements_shown_of_no_key_lost (h : (server keepsGoing).run ls = some w)
    {host₁ host₂ : String} (hhosts : ∀ a ∈ attempts ls, a.host = host₁ ∨ a.host = host₂)
    (hlost : (Devices.ledger (attempts ls)).lost = 0) {p p' : Page}
    (hp : p.update (api w.db) = some p') : p'.ShowsAll w.db := by
  have hlen := Devices.length_rows_le_two (devices_of_run h) hhosts
  refine (Page.showsAll_iff hp).2 fun r hr => ?_
  exact (World.registeredInTime_iff h hlen hr).1 (World.registeredInTime_of_no_key_lost h hlost r)

/-- **When no measurement is missing from the charts.**  After any run with connection attempts from
at most two addresses, every row that `api.php` returns is in exactly one of the charts if and only
if, for each of them, no key of `Devices` had been lost when the address of its device was
registered, or only one and it was the first address. -/
theorem measurements_shown_iff (h : (server keepsGoing).run ls = some w) {host₁ host₂ : String}
    (hhosts : ∀ a ∈ attempts ls, a.host = host₁ ∨ a.host = host₂) (p : Page) :
    (∃ p', p.update (api w.db) = some p' ∧ p'.ShowsAll w.db) ↔
      ∀ r ∈ lastTimes w.db, w.RegisteredInTime (attempts ls) r := by
  have hlen := Devices.length_rows_le_two (devices_of_run h) hhosts
  have hids : (∀ r ∈ lastTimes w.db, w.RegisteredInTime (attempts ls) r) ↔
      ∀ r ∈ lastTimes w.db, r.val.deviceId = 1 ∨ r.val.deviceId = 2 :=
    forall₂_congr fun r hr => World.registeredInTime_iff h hlen hr
  obtain ⟨p', hp'⟩ := Page.update_of_reachable (Machine.Reachable.of_run h) p
  rw [hids, ← Page.showsAll_iff hp']
  constructor
  · rintro ⟨p'', hp'', hall⟩
    rw [hp', Option.some.injEq] at hp''
    exact hp'' ▸ hall
  · intro hall
    exact ⟨p', hp', hall⟩

/-- Two clients that connect without a failed insert. -/
def twoClientsRun : List Label :=
  [.connect ⟨"10.0.0.2", "a", .nothing⟩, .connect ⟨"10.0.0.3", "b", .nothing⟩,
    .atMostOnce 0 0 1000, .atMostOnce 0 0 2000, .atMostOnce 1 1 1000, .atMostOnce 1 1 3000,
    .tick .nothing]

theorem measurements_shown_two : ∃ w, (server false).run twoClientsRun = some w ∧
    ∃ p', Page.load.update (api w.db) = some p' ∧ p'.ShowsAll w.db :=
  ⟨_, rfl, (@measurements_shown_iff false twoClientsRun _ rfl "10.0.0.2" "10.0.0.3" (by decide)
    Page.load).2 fun r _ =>
      @World.registeredInTime_of_no_key_lost false twoClientsRun _ rfl (by decide) r⟩

/-- The second client is rejected under the identifier of the first, and comes back with its own. -/
def rejectedRun : List Label :=
  [.connect ⟨"10.0.0.2", "a", .nothing⟩, .connect ⟨"10.0.0.3", "a", .nothing⟩,
    .connect ⟨"10.0.0.3", "b", .nothing⟩, .atMostOnce 1 0 1000, .atMostOnce 1 0 2000,
    .tick .nothing]

theorem measurements_not_shown : ¬ ∀ ls w host₁ host₂, (server false).run ls = some w →
    (∀ a ∈ attempts ls, a.host = host₁ ∨ a.host = host₂) → ∀ p : Page,
    ∃ p', p.update (api w.db) = some p' ∧ p'.ShowsAll w.db := by
  intro h
  obtain ⟨p', hp', hall⟩ := h rejectedRun _ "10.0.0.2" "10.0.0.3" rfl (by decide) Page.load
  cases hp'
  revert hall
  unfold Page.ShowsAll
  decide

end MqttServerTest
