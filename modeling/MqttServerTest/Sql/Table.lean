import Mathlib.Data.List.Basic
import Mathlib.Data.List.Nodup
import Mathlib.Data.List.Pairwise
import Mathlib.Order.Basic

/-!
# Tables with an auto-increment key

A `Table α` is a list of rows in ascending key order together with the counter the next inserted
row takes its key from.  The counter only grows: a statement that is rolled back gives its rows
back but not the keys it has consumed (`Table.consume`).  That the keys ascend and lie below the
counter are fields of the structure, so no operation can build a table that reuses a key.

A `UniqueTable key` is a table with a unique index on `key`: an insert or an update that would
give two rows the same key value returns `none` and there is no other way to build one.

## Main results

* `Table.eq_of_id_eq` : a key belongs to one row.
* `Table.insertAll_rows`, `Table.insertAll_vals` : a batch insert appends its rows in order.
* `Table.update_ids` : an update keeps every key.
-/

namespace MqttServerTest

/-- A row: its primary key and its other columns. -/
structure Row (α : Type*) where
  id : ℕ
  val : α
  deriving DecidableEq, Repr

/-- A table whose primary key is an auto-increment column. -/
structure Table (α : Type*) where
  /-- The rows, in ascending key order. -/
  rows : List (Row α)
  /-- The key of the next inserted row. -/
  next : ℕ
  sorted : rows.Pairwise fun r r' => r.id < r'.id
  fresh : ∀ r ∈ rows, r.id < next

namespace Table

variable {α β : Type*}

/-- A new table; keys start at `1`. -/
def create : Table α := ⟨[], 1, List.Pairwise.nil, by simp⟩

/-- The primary keys. -/
def ids (t : Table α) : List ℕ := t.rows.map Row.id

/-- The other columns, in ascending key order. -/
def vals (t : Table α) : List α := t.rows.map Row.val

/-- `INSERT`: the new row takes the next key. -/
def insert (t : Table α) (a : α) : Table α where
  rows := t.rows ++ [⟨t.next, a⟩]
  next := t.next + 1
  sorted := List.pairwise_append.2 ⟨t.sorted, List.pairwise_singleton _ _, by
    intro r hr r' hr'
    rw [List.mem_singleton.1 hr']; exact t.fresh r hr⟩
  fresh := by
    intro r hr
    rcases List.mem_append.1 hr with hr | hr
    · exact Nat.lt_succ_of_lt (t.fresh r hr)
    · rw [List.mem_singleton.1 hr]; exact Nat.lt_succ_self _

/-- Insert the rows of a batch one after the other. -/
def insertAll (t : Table α) : List α → Table α
  | [] => t
  | a :: as => (t.insert a).insertAll as

/-- `UPDATE ... WHERE p`. -/
def update (t : Table α) (p : α → Bool) (f : α → α) : Table α where
  rows := t.rows.map fun r => if p r.val then ⟨r.id, f r.val⟩ else r
  next := t.next
  sorted := by
    refine List.pairwise_map.2 (t.sorted.imp fun {r r'} h => ?_)
    split_ifs <;> exact h
  fresh := by
    intro r hr
    obtain ⟨r₀, hr₀, rfl⟩ := List.mem_map.1 hr
    split_ifs <;> exact t.fresh r₀ hr₀

/-- `UPDATE ... WHERE id = i`. -/
def updateId (t : Table α) (i : ℕ) (f : α → α) : Table α where
  rows := t.rows.map fun r => if r.id = i then ⟨r.id, f r.val⟩ else r
  next := t.next
  sorted := by
    refine List.pairwise_map.2 (t.sorted.imp fun {r r'} h => ?_)
    split_ifs <;> exact h
  fresh := by
    intro r hr
    obtain ⟨r₀, hr₀, rfl⟩ := List.mem_map.1 hr
    split_ifs <;> exact t.fresh r₀ hr₀

/-- The rows a `WHERE p` selects, in ascending key order. -/
def select (t : Table α) (p : α → Bool) : List (Row α) := t.rows.filter fun r => p r.val

/-- The columns of the row with key `i`. -/
def get? (t : Table α) (i : ℕ) : Option α := (t.rows.find? fun r => r.id = i).map Row.val

/-- `n` keys are consumed by rows that are then rolled back. -/
def consume (t : Table α) (n : ℕ) : Table α :=
  ⟨t.rows, t.next + n, t.sorted, fun r hr => Nat.lt_add_right n (t.fresh r hr)⟩

@[simp] theorem create_rows : (create : Table α).rows = [] := rfl

@[simp] theorem insert_rows (t : Table α) (a : α) :
    (t.insert a).rows = t.rows ++ [⟨t.next, a⟩] := rfl

theorem mem_ids {t : Table α} {i : ℕ} : i ∈ t.ids ↔ ∃ r ∈ t.rows, r.id = i := List.mem_map

theorem ids_nodup (t : Table α) : t.ids.Nodup := by
  refine (List.pairwise_map.2 (t.sorted.imp fun {r r'} h => ?_) : t.ids.Pairwise (· ≠ ·))
  exact Nat.ne_of_lt h

/-- A key belongs to one row. -/
theorem eq_of_id_eq {t : Table α} {r r' : Row α} (hr : r ∈ t.rows) (hr' : r' ∈ t.rows)
    (h : r.id = r'.id) : r = r' :=
  List.inj_on_of_nodup_map t.ids_nodup hr hr' h

theorem get?_eq_some {t : Table α} {r : Row α} (hr : r ∈ t.rows) : t.get? r.id = some r.val := by
  unfold get?
  cases h : t.rows.find? fun r' => r'.id = r.id with
  | none => simpa using List.find?_eq_none.1 h r hr
  | some r' =>
    -- the row found has the key of `r`, so it is `r`
    have hid : r'.id = r.id := by simpa using List.find?_some h
    rw [eq_of_id_eq (List.mem_of_find?_eq_some h) hr hid]; rfl

theorem mem_of_get?_eq_some {t : Table α} {i : ℕ} {a : α} (h : t.get? i = some a) :
    (⟨i, a⟩ : Row α) ∈ t.rows := by
  unfold get? at h
  obtain ⟨r, hf, rfl⟩ := Option.map_eq_some_iff.1 h
  have hid : r.id = i := by simpa using List.find?_some hf
  rw [← hid]; exact List.mem_of_find?_eq_some hf

theorem get?_isSome_iff {t : Table α} {i : ℕ} : (t.get? i).isSome ↔ i ∈ t.ids := by
  rw [Option.isSome_iff_exists, mem_ids]
  constructor
  · rintro ⟨a, ha⟩; exact ⟨_, mem_of_get?_eq_some ha, rfl⟩
  · rintro ⟨r, hr, rfl⟩; exact ⟨_, get?_eq_some hr⟩

/-! ### Batch inserts -/

theorem insertAll_rows (t : Table α) (as : List α) :
    (t.insertAll as).rows = t.rows ++ (as.zipIdx t.next).map fun x => ⟨x.2, x.1⟩ := by
  induction as generalizing t with
  | nil => simp [insertAll]
  | cons a as ih => simp [insertAll, ih, insert]

@[simp] theorem insertAll_vals (t : Table α) (as : List α) :
    (t.insertAll as).vals = t.vals ++ as := by
  simp only [vals, insertAll_rows, List.map_append, List.map_map, List.append_cancel_left_eq]
  exact List.zipIdx_map_fst _ _

/-! ### Updates -/

@[simp] theorem update_ids (t : Table α) (p : α → Bool) (f : α → α) :
    (t.update p f).ids = t.ids := by
  simp only [ids, update, List.map_map]
  refine List.map_congr_left fun r _ => ?_
  simp only [Function.comp_apply]; split_ifs <;> rfl

@[simp] theorem updateId_ids (t : Table α) (i : ℕ) (f : α → α) :
    (t.updateId i f).ids = t.ids := by
  simp only [ids, updateId, List.map_map]
  refine List.map_congr_left fun r _ => ?_
  simp only [Function.comp_apply]; split_ifs <;> rfl

theorem mem_update {t : Table α} {p : α → Bool} {f : α → α} {r : Row α} :
    r ∈ (t.update p f).rows ↔
      ∃ r₀ ∈ t.rows, r = if p r₀.val then ⟨r₀.id, f r₀.val⟩ else r₀ := by
  simp only [update, List.mem_map, eq_comm]

theorem updateId_congr {t : Table α} {i : ℕ} {f g : α → α}
    (h : ∀ a, t.get? i = some a → f a = g a) : t.updateId i f = t.updateId i g := by
  have hrows : (t.updateId i f).rows = (t.updateId i g).rows := by
    refine List.map_congr_left fun r hr => ?_
    by_cases hi : r.id = i
    · rw [if_pos hi, if_pos hi, h r.val (hi ▸ get?_eq_some hr)]
    · rw [if_neg hi, if_neg hi]
  simp only [updateId, mk.injEq, and_true] at hrows ⊢
  exact hrows

theorem updateId_get? (t : Table α) (i j : ℕ) (f : α → α) :
    (t.updateId i f).get? j = if j = i then (t.get? j).map f else t.get? j := by
  cases h : t.get? j with
  | none =>
    -- an update adds no key
    have hn : (t.updateId i f).get? j = none := by
      rw [← Option.not_isSome_iff_eq_none, get?_isSome_iff, updateId_ids, ← get?_isSome_iff, h]
      simp
    rw [hn]; split_ifs <;> rfl
  | some a =>
    have hr := mem_of_get?_eq_some h
    have hm : (⟨j, if j = i then f a else a⟩ : Row α) ∈ (t.updateId i f).rows :=
      List.mem_map.2 ⟨_, hr, by split_ifs <;> rfl⟩
    rw [get?_eq_some hm]; split_ifs <;> rfl

end Table

/-! ### Unique indexes -/

/-- A table with a unique index on `key`. -/
structure UniqueTable {α κ : Type*} (key : α → κ) where
  table : Table α
  unique : (table.vals.map key).Nodup

namespace UniqueTable

variable {α κ : Type*} {key : α → κ}

/-- A new table. -/
def create : UniqueTable key := ⟨Table.create, List.nodup_nil⟩

/-- `n` keys are consumed by rows that are then rolled back. -/
def consume (t : UniqueTable key) (n : ℕ) : UniqueTable key := ⟨t.table.consume n, t.unique⟩

variable [DecidableEq κ]

/-- `INSERT`; `none` if the index already holds the key value of the new row. -/
def insert? (t : UniqueTable key) (a : α) : Option (UniqueTable key) :=
  if h : ((t.table.insert a).vals.map key).Nodup then some ⟨t.table.insert a, h⟩ else none

/-- `UPDATE ... WHERE p`; `none` if two rows would have the same key value. -/
def update? (t : UniqueTable key) (p : α → Bool) (f : α → α) : Option (UniqueTable key) :=
  if h : ((t.table.update p f).vals.map key).Nodup then some ⟨t.table.update p f, h⟩ else none

theorem insert?_eq_some {t t' : UniqueTable key} {a : α} (h : t.insert? a = some t') :
    t'.table = t.table.insert a := by
  unfold insert? at h
  split_ifs at h; cases h; rfl

theorem update?_eq_some {t t' : UniqueTable key} {p : α → Bool} {f : α → α}
    (h : t.update? p f = some t') : t'.table = t.table.update p f := by
  unfold update? at h
  split_ifs at h; cases h; rfl

end UniqueTable

end MqttServerTest
