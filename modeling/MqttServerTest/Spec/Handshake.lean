import Mathlib.Data.Nat.Notation
import Mathlib.Tactic.TypeStar

/-!
# Exactly once

What a receiver has to do with the messages of one packet id that are to be delivered exactly once.
A message comes in parts.  The sender may send it again until it knows that it has arrived; then it
releases the packet id, again perhaps more than once, and may use it for another message.

* `Sent.deliver` : a receiver with one bit.
* `Sent.deliver_divide` : it does not look into the parts.
* `Exchange.deliver_flatMap_sent` : what it delivers of complete exchanges.
-/

namespace MqttServerTest

/-- What a receiver gets with some packet id. -/
inductive Sent (α : Type*) where
  | part (m : α)
  /-- A message is complete. -/
  | complete
  /-- The packet id is free. -/
  | release
  deriving DecidableEq, Repr

namespace Sent

variable {α β : Type*}

/-- Whether a message waits for the release of its packet id. -/
def waits : Bool → List (Sent α) → Bool
  | w, [] => w
  | w, part _ :: l => waits w l
  | _, complete :: l => waits true l
  | _, release :: l => waits false l

/-- What is delivered. -/
def deliver : Bool → List (Sent α) → List α
  | _, [] => []
  | w, part m :: l => if w then deliver w l else m :: deliver w l
  | _, complete :: l => deliver true l
  | _, release :: l => deliver false l

theorem waits_append (w : Bool) (l l' : List (Sent α)) :
    waits w (l ++ l') = waits (waits w l) l' := by
  induction l generalizing w with
  | nil => rfl
  | cons x l ih => cases x <;> exact ih _

theorem deliver_append (w : Bool) (l l' : List (Sent α)) :
    deliver w (l ++ l') = deliver w l ++ deliver (waits w l) l' := by
  induction l generalizing w with
  | nil => rfl
  | cons x l ih =>
    cases x with
    | part m =>
      simp only [List.cons_append, deliver, waits]
      split
      · exact ih w
      · rw [ih w, List.cons_append]
    | complete => exact ih true
    | release => exact ih false

/-- What begins and ends while no message waits can be looked at alone. -/
theorem deliver_flatMap {ι : Type*} {f : ι → List (Sent α)} {g : ι → List α} {xs : List ι}
    (h : ∀ x ∈ xs, deliver false (f x) = g x ∧ waits false (f x) = false) :
    deliver false (xs.flatMap f) = xs.flatMap g := by
  induction xs with
  | nil => rfl
  | cons x xs ih =>
    obtain ⟨hdeliver, hwaits⟩ := h x List.mem_cons_self
    rw [List.flatMap_cons, deliver_append, hdeliver, hwaits,
      ih fun y hy => h y (List.mem_cons_of_mem x hy), List.flatMap_cons]

/-- Every part is divided. -/
def divide (f : α → List β) : Sent α → List (Sent β)
  | part m => (f m).map part
  | complete => [complete]
  | release => [release]

theorem deliver_parts (w : Bool) (ms : List α) :
    deliver w (ms.map part) = if w then [] else ms := by
  induction ms with
  | nil => cases w <;> rfl
  | cons m ms ih => cases w <;> simp_all [deliver]

/-- Parts of one message. -/
def message (ms : List α) : List (Sent α) := ms.map part ++ [complete]

theorem deliver_message (w : Bool) (ms : List α) :
    deliver w (message ms) = if w then [] else ms := by
  rw [message, deliver_append, deliver_parts]
  exact List.append_nil _

theorem waits_message (w : Bool) (ms : List α) : waits w (message ms) = true := by
  rw [message, waits_append]
  rfl

/-- A message that waits is not delivered again. -/
theorem deliver_again (again : List (List α)) :
    deliver true (again.flatMap message) = [] ∧ waits true (again.flatMap message) = true := by
  induction again with
  | nil => exact ⟨rfl, rfl⟩
  | cons ms again ih =>
    rw [List.flatMap_cons, deliver_append, waits_append, waits_message, deliver_message]
    exact ih

theorem deliver_releases (w : Bool) (n : ℕ) :
    deliver w (List.replicate n (release : Sent α)) = [] ∧
      waits w (List.replicate (n + 1) (release : Sent α)) = false := by
  induction n generalizing w with
  | zero => exact ⟨rfl, rfl⟩
  | succ n ih => exact ⟨(ih false).1, (ih false).2⟩

end Sent

/-- The parts of a message as it is sent first and as it is sent again, and how often its packet
id is released again. -/
structure Exchange (α : Type*) where
  first : List α
  again : List (List α)
  releases : ℕ

namespace Exchange

variable {α : Type*}

/-- What the receiver gets of an exchange. -/
def sent (x : Exchange α) : List (Sent α) :=
  Sent.message x.first ++ x.again.flatMap Sent.message ++
    List.replicate (x.releases + 1) Sent.release

theorem waits_sent (w : Bool) (x : Exchange α) : Sent.waits w x.sent = false := by
  rw [sent, Sent.waits_append]
  exact (Sent.deliver_releases _ _).2

theorem deliver_sent (x : Exchange α) : Sent.deliver false x.sent = x.first := by
  obtain ⟨hagain, hwaits⟩ := Sent.deliver_again x.again
  rw [sent, Sent.deliver_append, Sent.deliver_append, Sent.waits_append, Sent.waits_message,
    Sent.deliver_message, hagain, (Sent.deliver_releases _ _).1, List.append_nil, List.append_nil]
  rfl

/-- **Exactly once**: every message of an exchange is delivered as it is sent first. -/
theorem deliver_flatMap_sent (xs : List (Exchange α)) :
    Sent.deliver false (xs.flatMap sent) = xs.flatMap first :=
  Sent.deliver_flatMap fun x _ => ⟨x.deliver_sent, x.waits_sent false⟩

end Exchange

end MqttServerTest
