import Mathlib.Data.Nat.Notation
import Mathlib.Tactic.TypeStar

/-!
# Transactions that are retried

`Transaction.run` is one call of a function that runs a body in a database transaction: an
attempt the database breaks off is rolled back and may be retried, any number of times; the last
attempt commits, or fails and its exception is rethrown.  What the database does to the attempts
is given by `Faults`.  An attempt is atomic: one that does not commit changes nothing but the
auto-increment counters (`Transaction.consume`), which a rollback does not give back.

## Main results

* `Transaction.run_ok` : a call that returns has run its body exactly once with effect, on the
  database as the rolled back attempts have left it.
* `Transaction.view_run_error` : a call that throws leaves the contents of the database as they
  were.
-/

namespace MqttServerTest

/-- What the database does to the attempts of one call. -/
structure Faults where
  /-- The attempts that are rolled back and retried, each with the number of keys it consumed. -/
  aborted : List ℕ
  /-- `some n` : the last attempt fails too, after consuming `n` keys. -/
  fatal : Option ℕ
  deriving DecidableEq, Repr

/-- Nothing goes wrong. -/
def Faults.nothing : Faults := ⟨[], none⟩

/-- Why a call has thrown. -/
inductive Failure (E : Type) where
  /-- The database failed. -/
  | database
  /-- The body threw `e`. -/
  | body (e : E)
  deriving DecidableEq, Repr

/-- A transaction on databases `D` that throws `E` or returns `A`. -/
structure Transaction (D E A : Type) where
  /-- What one undisturbed attempt does; an attempt that throws comes with the number of keys it
  has consumed. -/
  body : D → Except (E × ℕ) (D × A)
  /-- How many keys an attempt can consume at most. -/
  cost : D → ℕ
  /-- `n` keys are consumed. -/
  consume : D → ℕ → D

namespace Transaction

variable {D E A : Type} {V : Type*} (t : Transaction D E A)

/-- An attempt that the database breaks off after `n` keys. -/
def rollback (d : D) (n : ℕ) : D := t.consume d (min n (t.cost d))

/-- One call: the committed database afterwards, and the result or the exception. -/
def run (faults : Faults) (d : D) : D × Except (Failure E) A :=
  let d₁ := faults.aborted.foldl t.rollback d
  match faults.fatal with
  | some n => (t.rollback d₁ n, .error .database)
  | none => match t.body d₁ with
    | .ok (d₂, a) => (d₂, .ok a)
    | .error (e, n) => (t.consume d₁ n, .error (.body e))

/-- A reading of the database that does not depend on the auto-increment counters. -/
def Stable (view : D → V) : Prop := ∀ d n, view (t.consume d n) = view d

variable {t} {view : D → V} {faults : Faults} {d d' : D} {a : A}

theorem view_rollbacks (hv : t.Stable view) (ns : List ℕ) (d : D) :
    view (ns.foldl t.rollback d) = view d := by
  induction ns generalizing d with
  | nil => rfl
  | cons n ns ih => rw [List.foldl_cons, ih]; exact hv _ _

/-- **A call that returns** has committed one attempt, made on the database that the rolled back
attempts have left. -/
theorem run_ok (h : t.run faults d = (d', .ok a)) :
    faults.fatal = none ∧ t.body (faults.aborted.foldl t.rollback d) = .ok (d', a) := by
  unfold run at h
  cases hf : faults.fatal with
  | some n => simp [hf] at h
  | none =>
    -- the last attempt was not broken off, so its body decides
    refine ⟨rfl, ?_⟩
    simp only [hf] at h
    cases hb : t.body (faults.aborted.foldl t.rollback d) with
    | ok r =>
      obtain ⟨d₂, a₂⟩ := r
      simp only [hb, Prod.mk.injEq, Except.ok.injEq] at h
      rw [h.1, h.2]
    | error r => simp [hb] at h

/-- **A call that throws changes nothing** that can be read. -/
theorem view_run_error (hv : t.Stable view) {e : Failure E} (h : (t.run faults d).2 = .error e) :
    view (t.run faults d).1 = view d := by
  unfold run at h ⊢
  cases hf : faults.fatal with
  | some n => exact (hv _ _).trans (view_rollbacks hv _ d)
  | none =>
    simp only [hf] at h ⊢
    cases hb : t.body (faults.aborted.foldl t.rollback d) with
    | ok r => simp [hb] at h
    | error r => exact (hv _ _).trans (view_rollbacks hv _ d)

/-- A call that throws what its body throws has run the body on the database that the rolled back
attempts have left. -/
theorem run_body_error {e : E} (h : (t.run faults d).2 = .error (.body e)) :
    ∃ n, t.body (faults.aborted.foldl t.rollback d) = .error (e, n) := by
  unfold run at h
  cases hf : faults.fatal with
  | some n => simp [hf] at h
  | none =>
    simp only [hf] at h
    cases hb : t.body (faults.aborted.foldl t.rollback d) with
    | ok r => simp [hb] at h
    | error r =>
      simp only [hb, Except.error.injEq, Failure.body.injEq] at h
      exact ⟨r.2, by rw [← h]⟩

/-- A call returns if the last attempt is not disturbed and its body does not throw. -/
theorem run_of_body (hf : faults.fatal = none)
    (hb : t.body (faults.aborted.foldl t.rollback d) = .ok (d', a)) :
    t.run faults d = (d', .ok a) := by
  unfold run
  simp only [hf, hb]

end Transaction

end MqttServerTest
