import Mathlib.Data.List.Basic

/-!
# Consecutive elements

`consecutive l` are the pairs of neighbours in a list, in order.
-/

namespace MqttServerTest

variable {α β : Type*}

/-- Each element but the first, with the one before it. -/
def consecutive (l : List α) : List (α × α) := l.zip l.tail

theorem consecutive_cons_cons (a b : α) (l : List α) :
    consecutive (a :: b :: l) = (a, b) :: consecutive (b :: l) := rfl

theorem consecutive_snoc (l : List α) (b : α) :
    consecutive (l ++ [b]) = consecutive l ++ (l.getLast?.map fun a => (a, b)).toList := by
  induction l with
  | nil => rfl
  | cons a l ih =>
    cases l with
    | nil => rfl
    | cons a' l =>
      rw [List.cons_append, List.cons_append, consecutive_cons_cons, ← List.cons_append, ih,
        consecutive_cons_cons, List.cons_append, List.getLast?_cons_cons]

theorem consecutive_map (f : α → β) (l : List α) :
    consecutive (l.map f) = (consecutive l).map (Prod.map f f) := by
  rw [consecutive, ← List.map_tail, List.zip_map, consecutive]

/-! ### Partial functions -/

variable {f g : α → Option β} {l : List α}

/-- A partial function that is less defined than another one finds no more values in a list. -/
theorem length_filterMap_le (h : ∀ a ∈ l, ∀ b, f a = some b → g a = some b) :
    (l.filterMap f).length ≤ (l.filterMap g).length := by
  induction l with
  | nil => exact Nat.le_refl 0
  | cons a l ih =>
    have ih' := ih fun a' ha' => h a' (List.mem_cons_of_mem _ ha')
    cases hf : f a with
    | none =>
      rw [List.filterMap_cons_none hf]
      exact Nat.le_trans ih' ((List.sublist_cons_self a l).filterMap g).length_le
    | some b =>
      rw [List.filterMap_cons_some hf, List.filterMap_cons_some (h a List.mem_cons_self b hf)]
      exact Nat.succ_le_succ ih'

/-- It finds the same values exactly if it is defined wherever the other one is. -/
theorem filterMap_eq_filterMap_iff (h : ∀ a ∈ l, ∀ b, f a = some b → g a = some b) :
    l.filterMap f = l.filterMap g ↔ ∀ a ∈ l, f a = none → g a = none := by
  induction l with
  | nil => simp
  | cons a l ih =>
    have h' : ∀ a' ∈ l, ∀ b, f a' = some b → g a' = some b :=
      fun a' ha' => h a' (List.mem_cons_of_mem _ ha')
    rw [List.forall_mem_cons]
    cases hf : f a with
    | none =>
      rw [List.filterMap_cons_none hf]
      cases hg : g a with
      | none => rw [List.filterMap_cons_none hg, ih h']; simp
      | some c =>
        -- one value more than the first function can find
        rw [List.filterMap_cons_some hg]
        refine iff_of_false (fun he => ?_) (by simp)
        have hle := length_filterMap_le h'
        rw [he, List.length_cons] at hle
        omega
    | some b =>
      rw [List.filterMap_cons_some hf, List.filterMap_cons_some (h a List.mem_cons_self b hf),
        List.cons_inj_right, ih h']
      simp

end MqttServerTest
