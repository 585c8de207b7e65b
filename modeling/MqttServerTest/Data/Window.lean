import Mathlib.Data.List.DropRight
import Mathlib.Data.List.Infix

/-!
# Windows of a stream of two classes

A window holds the last elements of a stream (`List.rtake`).  The part of a window that belongs to
one class is a suffix of that class, so it is determined by its length
(`filter_rtake_eq_iff`).  If the stream has two classes and the window is twice as long as what
each class should show, it shows both exactly if neither has more than its half
(`filter_rtake_halves_iff`).  Two classes are together all of a list if every element is in one of
them (`map_filter_append_perm_iff`).
-/

namespace MqttServerTest

variable {α : Type*} {l w : List α} {p q : α → Bool} {m n : ℕ}

theorem length_rtake (l : List α) (n : ℕ) : (l.rtake n).length = min n l.length := by
  rw [List.rtake, List.length_drop]
  omega

theorem rtake_suffix (l : List α) (n : ℕ) : l.rtake n <:+ l := List.drop_suffix _ _

/-- A suffix is determined by its length. -/
theorem eq_rtake_iff (h : w <:+ l) : w = l.rtake n ↔ w.length = min n l.length := by
  constructor
  · rintro rfl
    exact length_rtake l n
  · intro hlen
    have hle := h.length_le
    have hdrop : l.length - w.length = l.length - n := by omega
    rw [List.rtake, ← hdrop]
    exact List.suffix_iff_eq_drop.1 h

/-- What a window shows of the class `p`. -/
theorem filter_rtake_eq_iff : (l.rtake n).filter p = (l.filter p).rtake m ↔
    (l.rtake n).countP p = min m (l.countP p) := by
  rw [eq_rtake_iff ((rtake_suffix l n).filter p), ← List.countP_eq_length_filter,
    ← List.countP_eq_length_filter]

theorem countP_add_countP_of_not (h : ∀ a ∈ l, q a = !p a) :
    l.countP p + l.countP q = l.length := by
  have hq : l.countP q = l.countP fun a => ¬ p a := by
    refine List.countP_congr fun a ha => ?_
    rw [h a ha]
    simp
  rw [hq]
  exact (List.length_eq_countP_add_countP p).symm

/-- A class that is disjoint from `p` is a part of the rest. -/
theorem filter_sublist_filter_not (h : ∀ a ∈ l, p a = true → q a = false) :
    (l.filter q).Sublist (l.filter fun a => !p a) := by
  have hq : l.filter q = (l.filter fun a => !p a).filter q := by
    rw [List.filter_filter]
    refine List.filter_congr fun a ha => ?_
    cases hp : p a with
    | false => simp
    | true => simp [h a ha hp]
  rw [hq]
  exact List.filter_sublist

/-- **Two disjoint classes** are together, as a list of images, all of a list exactly if each of its
elements is in one of them. -/
theorem map_filter_append_perm_iff {β : Type*} (f : α → β)
    (h : ∀ a ∈ l, p a = true → q a = false) :
    ((l.filter p).map f ++ (l.filter q).map f).Perm (l.map f) ↔
      ∀ a ∈ l, p a = true ∨ q a = true := by
  constructor
  · intro hperm a ha
    have hall := hperm.length_eq
    have hnot := countP_add_countP_of_not (l := l) (p := p) (q := fun a => !p a) fun _ _ => rfl
    rw [List.length_append, List.length_map, List.length_map, List.length_map] at hall
    rw [List.countP_eq_length_filter, List.countP_eq_length_filter] at hnot
    cases hp : p a with
    | true => exact Or.inl rfl
    | false =>
      -- the second class is the whole rest
      have hrest := (filter_sublist_filter_not h).eq_of_length (by omega)
      have hmem : a ∈ l.filter q := by
        rw [hrest]
        exact List.mem_filter.2 ⟨ha, by rw [hp]; rfl⟩
      exact Or.inr (List.mem_filter.1 hmem).2
  · intro hall
    have hq : ∀ a ∈ l, q a = !p a := by
      intro a ha
      cases hp : p a with
      | true => exact h a ha hp
      | false => exact (hall a ha).resolve_left (by rw [hp]; exact Bool.false_ne_true)
    rw [← List.map_append, List.filter_congr hq]
    exact (List.filter_append_perm p l).map f

/-- **A window of two classes** shows the last `m` elements of each exactly if it holds at most `m`
elements of each. -/
theorem filter_rtake_halves_iff (h : ∀ a ∈ l, q a = !p a) (hn : n = 2 * m) :
    ((l.rtake n).filter p = (l.filter p).rtake m ∧ (l.rtake n).filter q = (l.filter q).rtake m) ↔
      (l.rtake n).countP p ≤ m ∧ (l.rtake n).countP q ≤ m := by
  have hw : ∀ a ∈ l.rtake n, q a = !p a := fun a ha => h a ((rtake_suffix l n).subset ha)
  have hall := countP_add_countP_of_not h
  have hwin := countP_add_countP_of_not hw
  have hp : (l.rtake n).countP p ≤ l.countP p := (rtake_suffix l n).sublist.countP_le
  have hq : (l.rtake n).countP q ≤ l.countP q := (rtake_suffix l n).sublist.countP_le
  rw [length_rtake] at hwin
  rw [filter_rtake_eq_iff, filter_rtake_eq_iff]
  -- either the window is the whole stream, or it is full
  omega

end MqttServerTest
