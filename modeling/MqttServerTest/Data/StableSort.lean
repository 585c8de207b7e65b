import Mathlib.Data.List.Sort
import Mathlib.Data.Prod.Lex
import Mathlib.Order.Lex

/-!
# Sorting by a key, stably

`List.insertionSort` by a key is stable: it changes no sublist of elements with one key
(`filter_insertionSort`), and it is the only sorted list with these sublists
(`eq_of_pairwise_of_filter`).  It puts every element in the place that is given by the number of
elements with a smaller key and of earlier ones with the same key (`getElem?_place`).
-/

namespace MqttServerTest

namespace StableSort

variable {α β κ : Type*} [LinearOrder κ] (key : α → κ)

/-! ### Stability -/

theorem filter_orderedInsert (a : α) (l : List α) (k : κ) :
    (l.orderedInsert (fun a b => key a ≤ key b) a).filter (fun x => key x = k) =
      (a :: l).filter fun x => key x = k := by
  induction l with
  | nil => rfl
  | cons b l ih =>
    rw [List.orderedInsert_cons]
    split_ifs with hab
    · rfl
    · -- `a` has passed `b`, so they have not the same key
      have hne : ¬ (key a = k ∧ key b = k) := fun h => hab (h.1.trans h.2.symm).le
      rw [List.filter_cons, ih]
      simp only [List.filter_cons, decide_eq_true_eq]
      split_ifs with hb ha
      · exact absurd ⟨ha, hb⟩ hne
      · rfl
      · rfl
      · rfl

/-- **Stability**: the elements with one key stay in order. -/
theorem filter_insertionSort (l : List α) (k : κ) :
    (l.insertionSort fun a b => key a ≤ key b).filter (fun x => key x = k) =
      l.filter fun x => key x = k := by
  induction l with
  | nil => rfl
  | cons a l ih =>
    rw [List.insertionSort_cons, filter_orderedInsert, List.filter_cons, ih, List.filter_cons]

theorem pairwise_insertionSort (l : List α) :
    (l.insertionSort fun a b => key a ≤ key b).Pairwise fun a b => key a ≤ key b := by
  have : Std.Total fun a b : α => key a ≤ key b := ⟨fun a b => le_total (key a) (key b)⟩
  have : IsTrans α fun a b => key a ≤ key b := ⟨fun a b c => le_trans⟩
  exact List.pairwise_insertionSort _ l

variable {key}

/-- **Uniqueness**: a sorted list is determined by the sublists of the elements with one key. -/
theorem eq_of_pairwise_of_filter {l l' : List α} (h : l.Pairwise fun a b => key a ≤ key b)
    (h' : l'.Pairwise fun a b => key a ≤ key b)
    (hf : ∀ k, l.filter (fun x => key x = k) = l'.filter fun x => key x = k) : l = l' := by
  induction l generalizing l' with
  | nil =>
    cases l' with
    | nil => rfl
    | cons b l' =>
      have hb := hf (key b)
      simp at hb
  | cons a l ih =>
    have hmem : ∀ x, x ∈ a :: l ↔ x ∈ l' := fun x => by
      have hx := congrArg (x ∈ ·) (hf (key x))
      simpa only [List.mem_filter, decide_true, and_true, eq_iff_iff] using hx
    cases l' with
    | nil => exact absurd ((hmem a).1 List.mem_cons_self) List.not_mem_nil
    | cons b l' =>
      -- both heads have the least key
      have hab : key a ≤ key b := by
        rcases List.mem_cons.1 ((hmem b).2 List.mem_cons_self) with rfl | hb
        · exact le_rfl
        · exact List.rel_of_pairwise_cons h hb
      have hba : key b ≤ key a := by
        rcases List.mem_cons.1 ((hmem a).1 List.mem_cons_self) with rfl | ha
        · exact le_rfl
        · exact List.rel_of_pairwise_cons h' ha
      have hk : key b = key a := le_antisymm hba hab
      have hhead := hf (key a)
      simp only [List.filter_cons, hk, decide_true, ↓reduceIte, List.cons.injEq] at hhead
      obtain ⟨rfl, -⟩ := hhead
      rw [ih h.of_cons h'.of_cons fun k => ?_]
      have hfk := hf k
      simp only [List.filter_cons] at hfk
      split_ifs at hfk
      · exact (List.cons.inj hfk).2
      · exact hfk

/-! ### Places -/

/-- Where the element `x.1`, at position `x.2` of `l`, is after sorting. -/
def place (key : α → κ) (l : List α) (x : α × ℕ) : ℕ :=
  l.zipIdx.countP fun y => key y.1 < key x.1 ∨ key y.1 = key x.1 ∧ y.2 < x.2

/-- The position in a strictly sorted list is the number of smaller elements. -/
theorem countP_lt_of_pairwise {l : List α} (h : l.Pairwise fun a b => key a < key b) {p : ℕ}
    (hp : p < l.length) : (l.countP fun y => key y < key l[p]) = p := by
  induction l generalizing p with
  | nil => cases hp
  | cons a l ih =>
    have hlt := (List.pairwise_cons.1 h).1
    cases p with
    | zero =>
      simp only [List.getElem_cons_zero, List.countP_eq_zero, decide_eq_true_eq, not_lt]
      intro x hx
      rcases List.mem_cons.1 hx with rfl | hx
      · exact le_rfl
      · exact (hlt x hx).le
    | succ p =>
      have hp' : p < l.length := Nat.lt_of_succ_lt_succ hp
      have ha : key a < key l[p] := hlt _ (List.getElem_mem hp')
      rw [List.getElem_cons_succ, List.countP_cons, ih h.of_cons hp']
      simp only [ha, decide_true, ↓reduceIte]

/-- The key of an element with its position. -/
def numbered (key : α → κ) (x : α × ℕ) : κ ×ₗ ℕ := toLex (key x.1, x.2)

theorem numbered_lt_iff {x y : α × ℕ} :
    numbered key y < numbered key x ↔ key y.1 < key x.1 ∨ key y.1 = key x.1 ∧ y.2 < x.2 :=
  Prod.Lex.lt_iff

theorem key_le_of_numbered_le {x y : α × ℕ} (h : numbered key y ≤ numbered key x) :
    key y.1 ≤ key x.1 := by
  rcases Prod.Lex.le_iff.1 h with h | h
  · exact h.le
  · exact h.1.le

variable (key)

/-- The elements with their positions, sorted by key and position. -/
def sortNumbered (l : List α) : List (α × ℕ) :=
  l.zipIdx.insertionSort fun x y => numbered key x ≤ numbered key y

theorem sortNumbered_perm (l : List α) : (sortNumbered key l).Perm l.zipIdx :=
  List.perm_insertionSort _ _

theorem sortNumbered_pairwise (l : List α) :
    (sortNumbered key l).Pairwise fun x y => numbered key x < numbered key y := by
  have hn : ((sortNumbered key l).map Prod.snd).Nodup := by
    rw [((sortNumbered_perm key l).map Prod.snd).nodup_iff, List.zipIdx_map_snd]
    exact List.nodup_range'
  have hle := pairwise_insertionSort (numbered key) l.zipIdx
  refine (hle.and (List.pairwise_map.1 hn)).imp fun {x y} h => lt_of_le_of_ne h.1 fun he => h.2 ?_
  exact congrArg (fun p => (ofLex p).2) he

/-- Without the positions this is the sorted list. -/
theorem sortNumbered_map_fst (l : List α) :
    (sortNumbered key l).map Prod.fst = l.insertionSort fun a b => key a ≤ key b := by
  refine eq_of_pairwise_of_filter ?_ (pairwise_insertionSort key l) fun k => ?_
  · refine List.pairwise_map.2 ((sortNumbered_pairwise key l).imp fun {x y} h => ?_)
    exact key_le_of_numbered_le h.le
  · -- the elements with key `k` are in the order of their positions in both lists
    have hz : l.zipIdx.Pairwise fun x y => x.2 < y.2 := by
      refine List.pairwise_map.1 ?_
      rw [List.zipIdx_map_snd]
      exact List.pairwise_lt_range'
    have hs : ((sortNumbered key l).filter fun x => key x.1 = k).Pairwise fun x y =>
        x.2 < y.2 := by
      refine ((sortNumbered_pairwise key l).filter _).imp_of_mem fun {x y} hx hy h => ?_
      have hkx := of_decide_eq_true (List.mem_filter.1 hx).2
      have hky := of_decide_eq_true (List.mem_filter.1 hy).2
      rcases numbered_lt_iff.1 h with h | h
      · rw [hkx, hky] at h
        exact absurd h (lt_irrefl k)
      · exact h.2
    have he : (sortNumbered key l).filter (fun x => key x.1 = k) =
        l.zipIdx.filter fun x => key x.1 = k := by
      refine List.Perm.eq_of_pairwise ?_ hs (hz.filter _) ((sortNumbered_perm key l).filter _)
      intro x y _ _ hxy hyx
      exact absurd (hxy.trans hyx) (lt_irrefl _)
    rw [filter_insertionSort, List.filter_map]
    conv_rhs => rw [← List.zipIdx_map_fst 0 l, List.filter_map]
    exact congrArg (List.map Prod.fst) he

theorem place_getElem {l : List α} {p : ℕ} (hp : p < (sortNumbered key l).length) :
    place key l (sortNumbered key l)[p] = p := by
  rw [place, ← (sortNumbered_perm key l).countP_eq]
  simp only [← numbered_lt_iff]
  exact countP_lt_of_pairwise (sortNumbered_pairwise key l) hp

/-- Every element is in its place after sorting. -/
theorem getElem?_place (l : List α) {x : α × ℕ} (hx : x ∈ l.zipIdx) :
    (sortNumbered key l)[place key l x]? = some x := by
  obtain ⟨p, hp, rfl⟩ := List.getElem_of_mem ((sortNumbered_perm key l).mem_iff.2 hx)
  rw [place_getElem, List.getElem?_eq_getElem hp]

/-- A column is unchanged by sorting exactly if every element has the value of the one whose
position it gets. -/
theorem map_insertionSort_eq_iff (col : α → β) (l : List α) :
    (l.insertionSort fun a b => key a ≤ key b).map col = l.map col ↔
      ∀ x ∈ l.zipIdx, (l.map col)[place key l x]? = some (col x.1) := by
  rw [← sortNumbered_map_fst, List.map_map]
  constructor
  · intro h x hx
    rw [← h, List.getElem?_map, getElem?_place key l hx]
    rfl
  · intro h
    have hlen := (sortNumbered_perm key l).length_eq
    rw [List.length_zipIdx] at hlen
    refine List.ext_getElem? fun p => ?_
    by_cases hp : p < (sortNumbered key l).length
    · have hx := h _ ((sortNumbered_perm key l).mem_iff.1 (List.getElem_mem hp))
      rw [place_getElem] at hx
      rw [hx, List.getElem?_map, List.getElem?_eq_getElem hp]
      rfl
    · rw [List.getElem?_eq_none (by simpa using hp), List.getElem?_eq_none (by simp; omega)]

end StableSort

end MqttServerTest
