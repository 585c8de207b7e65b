import MqttServerTest.Server.Publish
import Mathlib.Algebra.Ring.Int.Defs
import Mathlib.Data.List.Sort
import Mathlib.Data.Rat.Defs

/-!
# The timer task

Once a second the timer task, holding the lock, writes the buffered gaps to `Times`, adds their
numbers to the row of the session and empties the buffers.

## Main results

* `sortedBy_map` : sorting commutes with a map that keeps the keys.
* `Buffers.flushBody_ok` : what a flush that commits has done to the database.
-/

namespace MqttServerTest

/-! ### Lists -/

/-- `sortedBy` : a stable sort. -/
def sortedBy {α : Type*} (key : α → ℤ) (l : List α) : List α :=
  l.insertionSort fun a b => key a ≤ key b

theorem sortedBy_perm {α : Type*} (key : α → ℤ) (l : List α) : (sortedBy key l).Perm l :=
  List.perm_insertionSort _ l

theorem sortedBy_map {α β : Type*} (key : β → ℤ) (f : α → β) (l : List α) :
    (sortedBy (fun a => key (f a)) l).map f = sortedBy key (l.map f) :=
  List.map_insertionSort _ _ f l fun _ _ _ _ => Iff.rfl

/-- A `mapM` that returns has returned one result for each element. -/
theorem forall₂_of_mapM_ok {α β ε : Type} {f : α → Except ε β} {l : List α} {l' : List β}
    (h : l.mapM f = .ok l') : List.Forall₂ (fun a b => f a = .ok b) l l' := by
  induction l generalizing l' with
  | nil =>
    simp only [List.mapM_nil] at h
    cases h; exact List.Forall₂.nil
  | cons a l ih =>
    simp only [List.mapM_cons] at h
    cases ha : f a with
    | error e => rw [ha] at h; cases h
    | ok b =>
      cases hl : l.mapM f with
      | error e => rw [ha, hl] at h; cases h
      | ok bs =>
        rw [ha, hl] at h
        cases h
        exact List.Forall₂.cons ha (ih hl)

theorem mapM_ok_of_forall {α β ε : Type} {f : α → Except ε β} {l : List α}
    (h : ∀ a ∈ l, ∃ b, f a = .ok b) : ∃ l', l.mapM f = .ok l' := by
  induction l with
  | nil => exact ⟨[], rfl⟩
  | cons a l ih =>
    obtain ⟨b, hb⟩ := h a List.mem_cons_self
    obtain ⟨bs, hbs⟩ := ih fun a' ha' => h a' (List.mem_cons_of_mem _ ha')
    exact ⟨b :: bs, by rw [List.mapM_cons, hb, hbs]; rfl⟩

theorem exists_of_mem_forall₂ {α β : Type*} {R : α → β → Prop} {l : List α} {l' : List β}
    (h : List.Forall₂ R l l') {b : β} (hb : b ∈ l') : ∃ a ∈ l, R a b := by
  induction h with
  | nil => cases hb
  | cons hab _ ih =>
    rcases List.mem_cons.1 hb with rfl | hb
    · exact ⟨_, List.mem_cons_self, hab⟩
    · obtain ⟨a, ha, hab'⟩ := ih hb
      exact ⟨a, List.mem_cons_of_mem _ ha, hab'⟩

theorem map_eq_of_forall₂ {α β γ : Type*} {R : α → β → Prop} {f : α → γ} {g : β → γ}
    {l : List α} {l' : List β} (h : List.Forall₂ R l l') (hR : ∀ a b, R a b → g b = f a) :
    l'.map g = l.map f := by
  induction h with
  | nil => rfl
  | cons hab _ ih => rw [List.map_cons, List.map_cons, ih, hR _ _ hab]

/-! ### The flush -/

/-- What the timer task logs about the gaps. -/
structure Statistics where
  min : Int64
  max : Int64
  average : ℚ

/-- `min()!!`, `max()!!` and `average()` of the gaps. -/
def statistics (bothTimes : List Int64) : Except Thrown Statistics :=
  match bothTimes.min?, bothTimes.max? with
  | some min, some max => .ok ⟨min, max, (bothTimes.map Int64.toInt).sum / bothTimes.length⟩
  | _, _ => .error .nullPointer

theorem statistics_ok_iff {l : List Int64} : (∃ st, statistics l = .ok st) ↔ l ≠ [] := by
  cases l with
  | nil => simp [statistics]
  | cons x xs => simp [statistics, List.max?_cons']

theorem statistics_nil : statistics [] = .error .nullPointer := rfl

namespace Buffers

/-- `packetsALO.size > 0 || packetsAMO.size > 0 || pubackSent > 0`. -/
def guard (b : Buffers) : Bool :=
  decide (0 < b.packetsALO.length) || decide (0 < b.packetsAMO.length) ||
    decide (0 < b.pubackSent)

/-- `packetsALO.plus(packetsAMO).sortedBy { it.first }`. -/
def sorted (b : Buffers) : List (ℤ × Int64) := sortedBy Prod.fst (b.packetsALO ++ b.packetsAMO)

/-- `bothTimes`. -/
def bothTimes (b : Buffers) : List Int64 := b.sorted.map Prod.snd

/-- The gaps in the two lists. -/
def gaps (b : Buffers) : List Int64 := (b.packetsALO ++ b.packetsAMO).map Prod.snd

/-- The lambda of the batch insert, for one pair. -/
def toTime (b : Buffers) (sesId : ℕ) (p : ℤ × Int64) : Except Thrown Time :=
  match b.mesToDevIdMap p.1 with
  | some devId => .ok ⟨sesId, p.2, devId⟩
  | none => .error .nullPointer

/-- The rows of the batch insert. -/
def newTimes (b : Buffers) (sesId : ℕ) : Except Thrown (List Time) :=
  b.sorted.mapM (b.toTime sesId)

/-- The body of the flush transaction.  The rows it has inserted are its result. -/
def flushBody (b : Buffers) (sesId : ℕ) (db : Db) : Except (Thrown × ℕ) (Db × List Time) :=
  match b.newTimes sesId with
  | .error e => .error (e, 0)
  | .ok vs => match db.batchInsert vs with
    | .error e => .error (e, vs.length)
    | .ok db' =>
      .ok (db'.addPackets sesId b.packetsAMO.length b.packetsALO.length b.pubackSent.toInt, vs)

/-- The flush transaction. -/
def flushTransaction (b : Buffers) (sesId : ℕ) : Transaction Db Thrown (List Time) where
  body := b.flushBody sesId
  cost _ := b.packetsALO.length + b.packetsAMO.length
  consume := Db.consumeTimes

/-- The buffers after a commit; the map of the message ids is not cleared. -/
def clear (b : Buffers) : Buffers := { b with packetsALO := [], packetsAMO := [], pubackSent := 0 }

/-! ### What the parts of a flush do -/

theorem guard_iff {b : Buffers} :
    b.guard = true ↔ b.packetsALO ++ b.packetsAMO ≠ [] ∨ 0 < b.pubackSent := by
  simp only [guard, Bool.or_eq_true, decide_eq_true_eq, List.length_pos_iff, ne_eq,
    List.append_eq_nil_iff]
  tauto

theorem sorted_perm (b : Buffers) : b.sorted.Perm (b.packetsALO ++ b.packetsAMO) :=
  sortedBy_perm _ _

theorem bothTimes_perm (b : Buffers) : b.bothTimes.Perm b.gaps := b.sorted_perm.map Prod.snd

theorem bothTimes_ne_nil_iff {b : Buffers} :
    b.bothTimes ≠ [] ↔ b.packetsALO ++ b.packetsAMO ≠ [] := by
  have h := b.sorted_perm
  constructor
  · rintro hb he
    rw [he] at h
    exact hb (by simp [bothTimes, h.eq_nil])
  · intro hb he
    rw [List.map_eq_nil_iff.1 he] at h
    exact hb h.nil_eq.symm

theorem toTime_ok {b : Buffers} {sesId : ℕ} {p : ℤ × Int64} {v : Time}
    (h : b.toTime sesId p = .ok v) :
    b.mesToDevIdMap p.1 = some v.deviceId ∧ v.time = p.2 ∧ v.sessionId = sesId := by
  simp only [toTime] at h
  cases hm : b.mesToDevIdMap p.1 with
  | none => simp [hm] at h
  | some devId =>
    simp only [hm, Except.ok.injEq] at h
    subst h
    exact ⟨rfl, rfl, rfl⟩

/-- The rows of the batch insert, one for each pair of the sorted buffers. -/
theorem newTimes_ok {b : Buffers} {sesId : ℕ} {vs : List Time} (h : b.newTimes sesId = .ok vs) :
    List.Forall₂ (fun p v => b.mesToDevIdMap p.1 = some v.deviceId ∧ v.time = p.2 ∧
      v.sessionId = sesId) b.sorted vs :=
  (forall₂_of_mapM_ok h).imp fun _ _ hv => toTime_ok hv

theorem newTimes_time {b : Buffers} {sesId : ℕ} {vs : List Time}
    (h : b.newTimes sesId = .ok vs) : vs.map Time.time = b.bothTimes :=
  map_eq_of_forall₂ (newTimes_ok h) fun _ _ hv => hv.2.1

/-- **What a flush that commits has done**: the rows of the batch are appended to `Times`, and
their numbers added to the counters of the session. -/
theorem flushBody_ok {b : Buffers} {sesId : ℕ} {db db' : Db} {vs : List Time}
    (h : b.flushBody sesId db = .ok (db', vs)) :
    b.newTimes sesId = .ok vs ∧ db'.devices = db.devices ∧
      db'.times = db.times.insertAll vs ∧ db'.sessions = (db.addPackets sesId
        b.packetsAMO.length b.packetsALO.length b.pubackSent.toInt).sessions := by
  simp only [flushBody] at h
  cases hn : b.newTimes sesId with
  | error e => simp [hn] at h
  | ok vs' =>
    cases hi : db.batchInsert vs' with
    | error e => simp [hn, hi] at h
    | ok db₁ =>
      simp only [hn, hi, Except.ok.injEq, Prod.mk.injEq] at h
      obtain ⟨rfl, rfl⟩ := h
      obtain ⟨hd, hs, ht⟩ := Db.batchInsert_ok hi
      refine ⟨rfl, hd, ht, ?_⟩
      simp only [Db.addPackets, Db.withSessions, hs]

/-- What the flush transaction can read: every table but for its counter. -/
def view (db : Db) : Devices × Table Session × List (Row Time) :=
  (db.devices, db.sessions, db.times.rows)

theorem stable_view (b : Buffers) (sesId : ℕ) : (b.flushTransaction sesId).Stable view :=
  fun _ _ => rfl

end Buffers

end MqttServerTest
