import MqttServerTest.Data.Rounding
import MqttServerTest.Server.Database
import Mathlib.Data.Int.Init

/-!
# The dashboard

`api.php` answers with the last row of `Sessions` and, as three parallel arrays, with the last 1000
rows of `Times`; the callback of `update` in `index.php` splits the arrays by the device ids 1 and 2
into two charts.

The numbers of the answer are decimal strings, which the page converts with `Number`.  The texts of
the cards `min`, `max` and `media` are left out.

## Main results

* `Page.update_isSome_iff` : the callback runs to its end if there is a session.
* `Page.update_charts` : what the charts hold then.
-/

namespace MqttServerTest

/-! ### `api.php` -/

/-- The JSON array of `api.php`. -/
structure Answer where
  /-- `$data[0]` : `null` if there is no session. -/
  session : Option Session
  timesarray : List ℤ
  idarray : List ℤ
  devIdarray : List ℤ

/-- `SELECT * FROM (SELECT * FROM Times ORDER BY id DESC LIMIT 1000) sub ORDER BY id ASC` -/
def lastTimes (db : Db) : List (Row Time) := (db.times.rows.reverse.take 1000).reverse

/-- `SELECT * FROM Sessions ORDER BY id DESC LIMIT 1` -/
def lastSession (db : Db) : List (Row Session) := db.sessions.rows.reverse.take 1

/-- `api.php` -/
def api (db : Db) : Answer where
  session := (lastSession db).head?.map Row.val
  timesarray := (lastTimes db).map fun item => item.val.time.toInt
  idarray := (lastTimes db).map fun item => item.id
  devIdarray := (lastTimes db).map fun item => item.val.deviceId

/-! ### The callback -/

/-- `Number` of the decimal string of an integer: the nearest double. -/
def number (x : ℤ) : ℤ := x.sign * roundBits 53 x.natAbs

/-- A line chart. -/
structure Chart where
  labels : List ℤ
  /-- `datasets[0].data` -/
  values : List ℤ
  deriving DecidableEq, Repr

/-- The page, as far as the callback changes it. -/
structure Page where
  /-- `$(".ricevuti")` -/
  ricevuti : ℕ
  /-- `$(".qos0")` -/
  qos0 : ℕ
  /-- `$(".qos1")` -/
  qos1 : ℕ
  /-- `$(".puback")` -/
  puback : ℤ
  lossArray : List ℤ
  lossChart : Chart
  myChart : Chart
  myChart2 : Chart
  deriving DecidableEq, Repr

/-- One point more. -/
def Chart.push (c : Chart) (id time : ℤ) : Chart := ⟨c.labels ++ [id], c.values ++ [time]⟩

/-- The loop that splits `idArray` and `timesArray` by the client. -/
def split : List ℤ → List ℤ → List ℤ → Chart × Chart → Chart × Chart
  | id :: idArray, time :: timesArray, dev :: devId, (c₁, c₂) =>
    if dev = 1 then split idArray timesArray devId (c₁.push id time, c₂)
    else if dev = 2 then split idArray timesArray devId (c₁, c₂.push id time)
    else split idArray timesArray devId (c₁, c₂)
  | _, _, _, cs => cs

namespace Page

/-- The page when it is loaded. -/
def load : Page := ⟨0, 0, 0, 0, [], ⟨[], []⟩, ⟨[], []⟩, ⟨[], []⟩⟩

/-- The callback of `update`; it throws if `dati` is `null`. -/
def update (p : Page) (data : Answer) : Option Page :=
  data.session.map fun dati =>
    let timesArray := data.timesarray.map number
    let idArray := data.idarray.map number
    let lossArray := p.lossArray ++ [(dati.qos1Packets : ℤ) - dati.packetsSent]
    let indexesLossArray := (List.range lossArray.length).map Int.ofNat
    let devId := data.devIdarray.map number
    let charts := split idArray timesArray devId (⟨[], []⟩, ⟨[], []⟩)
    { ricevuti := dati.qos0Packets + dati.qos1Packets
      qos0 := dati.qos0Packets
      qos1 := dati.qos1Packets
      puback := dati.packetsSent
      lossArray
      lossChart := ⟨indexesLossArray, lossArray⟩
      myChart := charts.1
      myChart2 := charts.2 }

end Page

/-! ### `Number` -/

/-- An integer of at most 53 bits is a double. -/
theorem number_of_lt {x : ℤ} (h : x.natAbs < 2 ^ 53) : number x = x := by
  rw [number, roundBits_of_lt (by omega) h]
  exact Int.sign_mul_natAbs x

theorem number_natCast (n : ℕ) : number n = roundBits 53 n := by
  cases n with
  | zero => rfl
  | succ n =>
    have hsign : ((n + 1 : ℕ) : ℤ).sign = 1 := Int.sign_eq_one_of_pos (by omega)
    rw [number, Int.natAbs_natCast, hsign, Int.one_mul]

/-- No other id is taken for a client's. -/
theorem number_natCast_eq_iff {n m : ℕ} (hm : m < 2 ^ 53) : number n = m ↔ n = m := by
  rw [number_natCast, Int.natCast_inj]
  exact roundBits_eq_iff_of_lt (by omega) hm

/-! ### The charts -/

/-- The chart of the rows `rs`. -/
def Chart.of (rs : List (Row Time)) : Chart :=
  ⟨rs.map fun r => number r.id, rs.map fun r => number r.val.time.toInt⟩

/-- The rows of the device `devId`. -/
def ofDevice (devId : ℕ) (r : Row Time) : Bool := r.val.deviceId = devId

theorem Chart.of_snoc (rs : List (Row Time)) (r : Row Time) :
    Chart.of (rs ++ [r]) = (Chart.of rs).push (number r.id) (number r.val.time.toInt) := by
  simp [Chart.of, Chart.push]

/-- The loop puts the rows of the devices 1 and 2 into their charts. -/
theorem split_of (rs rs₁ rs₂ : List (Row Time)) :
    split (rs.map fun r => number r.id) (rs.map fun r => number r.val.time.toInt)
        (rs.map fun r => number r.val.deviceId) (Chart.of rs₁, Chart.of rs₂) =
      (Chart.of (rs₁ ++ rs.filter (ofDevice 1)), Chart.of (rs₂ ++ rs.filter (ofDevice 2))) := by
  induction rs generalizing rs₁ rs₂ with
  | nil => simp [split]
  | cons r rs ih =>
    have h₁ : number r.val.deviceId = 1 ↔ r.val.deviceId = 1 :=
      number_natCast_eq_iff (m := 1) (by decide)
    have h₂ : number r.val.deviceId = 2 ↔ r.val.deviceId = 2 :=
      number_natCast_eq_iff (m := 2) (by decide)
    simp only [List.map_cons, split, h₁, h₂]
    split_ifs with hd₁ hd₂
    · rw [← Chart.of_snoc, ih, List.filter_cons_of_pos (by simpa [ofDevice] using hd₁),
        List.filter_cons_of_neg (by simp [ofDevice, hd₁]), List.append_assoc]
      rfl
    · rw [← Chart.of_snoc, ih, List.filter_cons_of_neg (by simpa [ofDevice] using hd₁),
        List.filter_cons_of_pos (by simpa [ofDevice] using hd₂), List.append_assoc]
      rfl
    · rw [ih, List.filter_cons_of_neg (by simpa [ofDevice] using hd₁),
        List.filter_cons_of_neg (by simpa [ofDevice] using hd₂)]

theorem lastSession_eq_nil_iff {db : Db} : lastSession db = [] ↔ db.sessions.rows = [] := by
  simp [lastSession]

namespace Page

/-- The callback runs to its end if there is a session. -/
theorem update_isSome_iff {p : Page} {db : Db} :
    (p.update (api db)).isSome ↔ db.sessions.rows ≠ [] := by
  simp [update, api, ← lastSession_eq_nil_iff]

/-- **What the charts hold**: the rows that the answer has of the devices 1 and 2. -/
theorem update_charts {p p' : Page} {db : Db} (h : p.update (api db) = some p') :
    p'.myChart = Chart.of ((lastTimes db).filter (ofDevice 1)) ∧
      p'.myChart2 = Chart.of ((lastTimes db).filter (ofDevice 2)) := by
  obtain ⟨dati, -, rfl⟩ := Option.map_eq_some_iff.1 h
  have hsplit := split_of (lastTimes db) [] []
  simp only [api, List.map_map]
  exact ⟨congrArg Prod.fst hsplit, congrArg Prod.snd hsplit⟩

end Page

end MqttServerTest
