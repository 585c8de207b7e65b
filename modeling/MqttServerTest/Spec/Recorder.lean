import Mathlib.Data.List.Induction
import Mathlib.Data.List.Perm.Basic
import Mathlib.Tactic.TypeStar

/-!
# Recorders

What a component is for that buffers values and stores them in batches: what is stored and what is
still pending are together what has been recorded, each value once and in order
(`Recorder.stored_append_pending`).  A component that may reorder the values of a batch is a
recorder up to `Recorder.Perm`, and still loses and duplicates nothing (`Recorder.Perm.recorded`).
-/

namespace MqttServerTest

/-- A recorder of values in `α`. -/
structure Recorder (α : Type*) where
  /-- The values that have been stored. -/
  stored : List α
  /-- The values recorded since the last flush. -/
  pending : List α

namespace Recorder

variable {α : Type*}

/-- What happens to a recorder. -/
inductive Op (α : Type*) where
  /-- `a` is recorded. -/
  | record (a : α)
  /-- The pending values are stored. -/
  | flush

/-- The value that is recorded, if any. -/
def Op.value? : Op α → Option α
  | .record a => some a
  | .flush => none

/-- One operation. -/
def step (r : Recorder α) : Op α → Recorder α
  | .record a => { r with pending := r.pending ++ [a] }
  | .flush => ⟨r.stored ++ r.pending, []⟩

/-- A new recorder after the operations `ops`. -/
def perform (ops : List (Op α)) : Recorder α := ops.foldl step ⟨[], []⟩

/-- The values recorded by the operations `ops`, in order. -/
def recorded (ops : List (Op α)) : List α := ops.filterMap Op.value?

theorem perform_snoc (ops : List (Op α)) (op : Op α) :
    perform (ops ++ [op]) = (perform ops).step op := List.foldl_append

/-- **A recorder loses, duplicates and reorders nothing.** -/
theorem stored_append_pending (ops : List (Op α)) :
    (perform ops).stored ++ (perform ops).pending = recorded ops := by
  induction ops using List.reverseRecOn with
  | nil => rfl
  | append_singleton ops op ih =>
    rw [perform_snoc, recorded, List.filterMap_append, ← recorded, ← ih]
    cases op with
    | record a => exact (List.append_assoc _ _ _).symm
    | flush => rfl

/-- The two recorders hold the same values, in any order. -/
structure Perm (r r' : Recorder α) : Prop where
  stored : r.stored.Perm r'.stored
  pending : r.pending.Perm r'.pending

theorem Perm.recorded {r : Recorder α} {ops : List (Op α)} (h : r.Perm (perform ops)) :
    (r.stored ++ r.pending).Perm (recorded ops) := by
  rw [← stored_append_pending]
  exact h.stored.append h.pending

end Recorder

end MqttServerTest
