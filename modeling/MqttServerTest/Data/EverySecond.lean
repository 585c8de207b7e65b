import Mathlib.Algebra.Ring.Nat
import Mathlib.Data.List.Nodup
import Mathlib.Data.Nat.Notation
import Mathlib.Logic.Function.Iterate

/-!
# Every second element

A queue of which a round takes every second element, beginning with the first (`evens`), and leaves
the others (`odds`).  `rounds k l` is what `k` rounds take, in order.

* `length_odds_iterate` : a round leaves half of the queue, rounded down.
* `rounds_eq_iff` : the order is that of the queue if there are at most two elements.
-/

namespace MqttServerTest

variable {α : Type*}

/-- The elements at even positions. -/
def evens : List α → List α
  | [] => []
  | [a] => [a]
  | a :: _ :: l => a :: evens l

/-- The elements at odd positions. -/
def odds : List α → List α
  | [] => []
  | [_] => []
  | _ :: b :: l => b :: odds l

/-- What the first `k` rounds take. -/
def rounds : ℕ → List α → List α
  | 0, _ => []
  | k + 1, l => evens l ++ rounds k (odds l)

theorem length_odds (l : List α) : (odds l).length = l.length / 2 := by
  induction l using odds.induct with
  | case1 => simp [odds]
  | case2 a => simp [odds]
  | case3 a b l ih =>
    rw [odds, List.length_cons, ih, List.length_cons, List.length_cons]
    omega

theorem length_odds_le (l : List α) : (odds l).length ≤ l.length := by
  rw [length_odds]
  exact Nat.div_le_self _ _

theorem length_odds_iterate (k : ℕ) (l : List α) : (odds^[k] l).length = l.length / 2 ^ k := by
  induction k generalizing l with
  | zero => simp
  | succ k ih =>
    rw [Function.iterate_succ_apply, ih, length_odds, Nat.div_div_eq_div_mul, Nat.pow_succ,
      Nat.mul_comm]

/-- How many rounds take everything. -/
theorem odds_iterate_eq_nil_iff {k : ℕ} {l : List α} : odds^[k] l = [] ↔ l.length < 2 ^ k := by
  rw [← List.length_eq_zero_iff, length_odds_iterate, Nat.div_eq_zero_iff]
  simp

theorem exists_evens_cons (a : α) (l : List α) : ∃ m, evens (a :: l) = a :: m := by
  cases l with
  | nil => exact ⟨[], rfl⟩
  | cons b l => exact ⟨evens l, rfl⟩

/-- The first round passes over the second element. -/
theorem exists_rounds (k : ℕ) (a b c : α) (l : List α) :
    ∃ m, rounds (k + 1) (a :: b :: c :: l) = a :: c :: m := by
  obtain ⟨m, hm⟩ := exists_evens_cons c l
  refine ⟨m ++ rounds k (odds (a :: b :: c :: l)), ?_⟩
  simp only [rounds, evens, hm, List.cons_append]

theorem rounds_nil (k : ℕ) : rounds k ([] : List α) = [] := by
  induction k with
  | zero => rfl
  | succ k ih => simp only [rounds, evens, odds, ih, List.append_nil]

/-- **The order** in which rounds take all of a queue of distinct elements. -/
theorem rounds_eq_iff {k : ℕ} {l : List α} (h : l.length < 2 ^ k) (hl : l.Nodup) :
    rounds k l = l ↔ l.length ≤ 2 := by
  match l, k with
  | [], k => simp [rounds_nil]
  | [a], k + 1 => simp [rounds, evens, odds, rounds_nil]
  | [a, b], k + 2 => simp [rounds, evens, odds, rounds_nil]
  | a :: b :: c :: l, k + 1 =>
    obtain ⟨m, hm⟩ := exists_rounds k a b c l
    rw [hm]
    constructor
    · intro he
      have hcb : c = b := by injection he with _ he; injection he
      simp [hcb] at hl
    · intro hlen
      simp only [List.length_cons] at hlen
      omega

end MqttServerTest
