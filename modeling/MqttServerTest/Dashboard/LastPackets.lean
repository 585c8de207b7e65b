import MqttServerTest.Dashboard.Page
import MqttServerTest.Data.Window

/-!
# The last 500 packets of a client

The labels of the two charts announce the last 500 packets of client 1 and of client 2.  The window
is cut over both clients together, before their rows are split: it shows 500 of each only if neither
has more than half of it, and its numbers are the rows' only as far as they are doubles
(`charts_show_last500_iff`).
-/

namespace MqttServerTest

/-- The rows of the device `devId`, in ascending id. -/
def Db.timesOf (db : Db) (devId : ℕ) : List (Row Time) := db.times.rows.filter (ofDevice devId)

/-- The chart shows the rows `rs`: the `j`-th label is the id of the `j`-th row, and the `j`-th
value its time. -/
def Chart.Shows (c : Chart) (rs : List (Row Time)) : Prop :=
  c.labels = rs.map (fun r => (r.id : ℤ)) ∧ c.values = rs.map fun r => r.val.time.toInt

/-- What the labels of the charts announce. -/
def Page.ShowsLast500 (p : Page) (db : Db) : Prop :=
  p.myChart.Shows ((db.timesOf 1).rtake 500) ∧ p.myChart2.Shows ((db.timesOf 2).rtake 500)

/-- The id and the time of the row are doubles. -/
def IsExact (r : Row Time) : Prop :=
  number r.id = r.id ∧ number r.val.time.toInt = r.val.time.toInt

instance (r : Row Time) : Decidable (IsExact r) := inferInstanceAs (Decidable (_ ∧ _))

/-- A row with less than `2 ^ 53` ids before it and a gap of less than `2 ^ 53` ns (104 days). -/
theorem isExact_of_lt {r : Row Time} (hid : r.id < 2 ^ 53)
    (htime : r.val.time.toInt.natAbs < 2 ^ 53) : IsExact r :=
  ⟨number_of_lt (by rwa [Int.natAbs_natCast]), number_of_lt htime⟩

theorem lastTimes_eq_rtake (db : Db) : lastTimes db = db.times.rows.rtake 1000 :=
  (List.rtake_eq_reverse_take_reverse _ _).symm

/-- A chart of the last rows of a list shows other last rows only if they are the same. -/
theorem Chart.shows_of_iff {all rs rs' : List (Row Time)} (h : rs <:+ all) (h' : rs' <:+ all) :
    (Chart.of rs).Shows rs' ↔ rs = rs' ∧ ∀ r ∈ rs, IsExact r := by
  constructor
  · rintro ⟨hlabels, hvalues⟩
    have hlen : rs.length = rs'.length := by
      have hl := congrArg List.length hlabels
      rwa [Chart.of, List.length_map, List.length_map] at hl
    have heq : rs = rs' := by
      rw [List.suffix_iff_eq_drop.1 h, List.suffix_iff_eq_drop.1 h', hlen]
    subst heq
    exact ⟨rfl, fun r hr =>
      ⟨List.map_inj_left.1 hlabels r hr, List.map_inj_left.1 hvalues r hr⟩⟩
  · rintro ⟨rfl, hexact⟩
    exact ⟨List.map_congr_left fun r hr => (hexact r hr).1,
      List.map_congr_left fun r hr => (hexact r hr).2⟩

/-- A chart holds the last rows of its device. -/
theorem filter_lastTimes_suffix (db : Db) (devId : ℕ) :
    (lastTimes db).filter (ofDevice devId) <:+ db.timesOf devId := by
  rw [lastTimes_eq_rtake]
  exact (rtake_suffix _ _).filter _

/-- Every row is one of client 1 or of client 2. -/
def Db.OfTwoClients (db : Db) : Prop := ∀ v ∈ db.times.vals, v.deviceId = 1 ∨ v.deviceId = 2

instance (db : Db) : Decidable db.OfTwoClients := inferInstanceAs (Decidable (∀ v ∈ _, _))

theorem Db.OfTwoClients.row {db : Db} (h : db.OfTwoClients) {r : Row Time}
    (hr : r ∈ db.times.rows) : ofDevice 2 r = !ofDevice 1 r := by
  have hv : r.val ∈ db.times.vals := List.mem_map_of_mem hr
  rcases h r.val hv with hd | hd <;> simp [ofDevice, hd]

/-- What the callback shows once it has run. -/
theorem Page.showsLast500_iff {db : Db} (hdb : db.OfTwoClients) {p p' : Page}
    (h : p.update (api db) = some p') : p'.ShowsLast500 db ↔
      ((lastTimes db).countP (ofDevice 1) ≤ 500 ∧ (lastTimes db).countP (ofDevice 2) ≤ 500) ∧
        ∀ r ∈ lastTimes db, IsExact r := by
  obtain ⟨h₁, h₂⟩ := update_charts h
  have hhalves := filter_rtake_halves_iff (n := 1000) (m := 500) (p := ofDevice 1)
    (q := ofDevice 2) (fun r hr => hdb.row hr) rfl
  rw [← lastTimes_eq_rtake] at hhalves
  -- every row of the window is in one of the charts
  have hexact : (∀ r ∈ lastTimes db, IsExact r) ↔
      (∀ r ∈ (lastTimes db).filter (ofDevice 1), IsExact r) ∧
        ∀ r ∈ (lastTimes db).filter (ofDevice 2), IsExact r := by
    refine ⟨fun h => ⟨fun r hr => h r (List.mem_of_mem_filter hr),
      fun r hr => h r (List.mem_of_mem_filter hr)⟩, ?_⟩
    rintro ⟨he₁, he₂⟩ r hr
    rw [lastTimes_eq_rtake] at hr
    have hrow := hdb.row ((rtake_suffix _ _).subset hr)
    rw [← lastTimes_eq_rtake] at hr
    by_cases hd : ofDevice 1 r = true
    · exact he₁ r (List.mem_filter.2 ⟨hr, hd⟩)
    · exact he₂ r (List.mem_filter.2 ⟨hr, by rw [hrow, eq_false_of_ne_true hd]; rfl⟩)
  rw [ShowsLast500, h₁, h₂,
    Chart.shows_of_iff (filter_lastTimes_suffix db 1) (rtake_suffix _ _),
    Chart.shows_of_iff (filter_lastTimes_suffix db 2) (rtake_suffix _ _), ← hhalves, hexact]
  exact and_and_and_comm

/-- **When the charts show the last 500 packets.**  The callback runs to its end and each chart
shows the last 500 rows of its client, or all it has if it has fewer, if and only if there is a
session, neither client has more than 500 of the last 1000 rows, and the ids and times of these rows
are doubles. -/
theorem charts_show_last500_iff {db : Db} (hdb : db.OfTwoClients) (p : Page) :
    (∃ p', p.update (api db) = some p' ∧ p'.ShowsLast500 db) ↔
      db.sessions.rows ≠ [] ∧
      ((lastTimes db).countP (ofDevice 1) ≤ 500 ∧ (lastTimes db).countP (ofDevice 2) ≤ 500) ∧
        ∀ r ∈ lastTimes db, IsExact r := by
  rw [← Page.update_isSome_iff (p := p), Option.isSome_iff_exists]
  constructor
  · rintro ⟨p', h, hs⟩
    exact ⟨⟨p', h⟩, (Page.showsLast500_iff hdb h).1 hs⟩
  · rintro ⟨⟨p', h⟩, hs⟩
    exact ⟨p', h, (Page.showsLast500_iff hdb h).2 hs⟩

/-- A database with two devices and the rows `vs`. -/
def sampleDb (vs : List Time) (h : ∀ v ∈ vs, v.sessionId = 1 ∧ (v.deviceId = 1 ∨ v.deviceId = 2)) :
    Db where
  devices := ⟨(Table.create.insert ⟨"a", "10.0.0.2"⟩).insert ⟨"b", "10.0.0.3"⟩, by decide⟩
  sessions := Table.create.insert ⟨0, 0, 0⟩
  times := Table.create.insertAll vs
  session_fk v hv := by
    rw [Table.insertAll_vals] at hv
    rw [(h v hv).1]
    decide
  device_fk v hv := by
    rw [Table.insertAll_vals] at hv
    rcases (h v hv).2 with hd | hd <;> rw [hd] <;> decide

/-- Three packets of two clients. -/
def fewDb : Db := sampleDb [⟨1, 1000, 1⟩, ⟨1, 2000, 2⟩, ⟨1, 3000, 1⟩] (by decide)

theorem charts_show_last500_few :
    ∃ p', Page.load.update (api fewDb) = some p' ∧ p'.ShowsLast500 fewDb :=
  (@charts_show_last500_iff fewDb (by decide) Page.load).2
    ⟨by decide, ⟨by decide, by decide⟩, by decide⟩

/-- All of the last rows are of client 1. -/
def oneClient (n : ℕ) : Db :=
  sampleDb (List.replicate n ⟨1, 1000, 1⟩) fun v hv => by
    rw [List.eq_of_mem_replicate hv]
    exact ⟨rfl, Or.inl rfl⟩

theorem oneClient_vals (n : ℕ) : (oneClient n).times.vals = List.replicate n ⟨1, 1000, 1⟩ :=
  Table.insertAll_vals _ _

theorem oneClient_count (n : ℕ) : (lastTimes (oneClient n)).countP (ofDevice 1) = min 1000 n := by
  have hlen := congrArg List.length (oneClient_vals n)
  rw [Table.vals, List.length_map, List.length_replicate] at hlen
  rw [lastTimes_eq_rtake, List.countP_eq_length.2 ?_, length_rtake, hlen]
  intro r hr
  have hv : r.val ∈ (oneClient n).times.vals :=
    List.mem_map_of_mem ((rtake_suffix _ _).subset hr)
  rw [oneClient_vals] at hv
  simp [ofDevice, List.eq_of_mem_replicate hv]

/-- Client 1 has sent 501 packets and client 2 none. -/
theorem charts_not_last500 : ¬ ∀ db : Db, db.OfTwoClients → ∀ p : Page,
    ∃ p', p.update (api db) = some p' ∧ p'.ShowsLast500 db := by
  intro h
  have htwo : (oneClient 501).OfTwoClients := by
    intro v hv
    rw [oneClient_vals] at hv
    rw [List.eq_of_mem_replicate hv]
    exact Or.inl rfl
  obtain ⟨p', hp', hs⟩ := h (oneClient 501) htwo Page.load
  have hle := ((Page.showsLast500_iff htwo hp').1 hs).1.1
  rw [oneClient_count] at hle
  omega

end MqttServerTest
