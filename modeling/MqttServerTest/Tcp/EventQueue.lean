import MqttServerTest.Machine.Basic
import Mathlib.Data.List.Nodup
import Mathlib.Data.List.Perm.Subperm
import Mathlib.Data.Nat.Notation

/-!
# The event queue of TCP

LwIP hands the events of a connection to the task `async_tcp` through a bounded queue, which blocks
who sends to it when it is full.  When a connection is closed, the task removes the events that are
left for it: `_remove_events_with_arg` takes every packet off the front and sends the others to the
back again, until the first one of them is at the front.  In between, LwIP may send more.

* `EventQueue.removal_correct` : however the two tasks take turns, no packet of another connection
  is lost or doubled, those that were there keep their order, and what is left for the connection
  has come in the meantime.
* `EventQueue.services_le` : the task makes three steps for every packet at most, and it only ever
  waits for a full queue.
* `EventQueue.stuck_iff` : if LwIP fills the queue while the task holds a packet, both wait for
  ever.
-/

namespace MqttServerTest

namespace AsyncTcp

/-- `lwip_event_packet_t` : where it has been allocated, and the connection. -/
structure EventPacket where
  address : ℕ
  arg : ℕ
  deriving DecidableEq, Repr

/-- Where the task is in `_remove_events_with_arg`. -/
inductive RemovalPc where
  /-- In the first loop. -/
  | seek
  /-- At the `xQueueSend` of the first loop. -/
  | sendFirst (first : EventPacket)
  /-- At the test of the second loop. -/
  | peek (first : EventPacket)
  /-- At the `xQueueReceive` of the second loop. -/
  | receive (first : EventPacket)
  /-- At the `xQueueSend` of the second loop. -/
  | sendPacket (first packet : EventPacket)
  | returned (result : Bool)
  deriving DecidableEq, Repr

/-- The packet that the task has taken off the queue. -/
def RemovalPc.held : RemovalPc → List EventPacket
  | .sendFirst first => [first]
  | .sendPacket _ packet => [packet]
  | _ => []

structure EventQueue where
  /-- From the front to the back. -/
  queue : List EventPacket
  pc : RemovalPc
  deriving DecidableEq, Repr

/-- Who moves. -/
inductive QueueLabel where
  /-- The task `async_tcp`. -/
  | service
  /-- `_send_async_event` -/
  | send (packet : EventPacket)
  /-- `_prepend_async_event` -/
  | prepend (packet : EventPacket)
  deriving DecidableEq, Repr

namespace EventQueue

variable (capacity arg : ℕ)

/-- The packets that are in memory. -/
def live (s : EventQueue) : List EventPacket := s.pc.held ++ s.queue

/-- `malloc` returns an address that is not in use. -/
def Fresh (s : EventQueue) (packet : EventPacket) : Prop :=
  packet.address ∉ s.live.map EventPacket.address

instance (s : EventQueue) (packet : EventPacket) : Decidable (s.Fresh packet) :=
  inferInstanceAs (Decidable (_ ∉ _))

/-- The next step of `_remove_events_with_arg`; `none` while it has to wait. -/
def serve (s : EventQueue) : Option EventQueue :=
  match s.pc with
  | .seek => match s.queue with
    | [] => some { s with pc := .returned false }
    | packet :: queue =>
      some ⟨queue, if packet.arg = arg then .seek else .sendFirst packet⟩
  | .sendFirst first =>
    if s.queue.length < capacity then some ⟨s.queue ++ [first], .peek first⟩ else none
  | .peek first => match s.queue with
    | [] => some { s with pc := .returned true }
    | packet :: _ =>
      some { s with
        pc := if packet.address = first.address then .returned true else .receive first }
  | .receive first => match s.queue with
    | [] => some { s with pc := .returned false }
    | packet :: queue =>
      some ⟨queue, if packet.arg = arg then .peek first else .sendPacket first packet⟩
  | .sendPacket first packet =>
    if s.queue.length < capacity then some ⟨s.queue ++ [packet], .peek first⟩ else none
  | .returned _ => none

/-- One step. -/
def step (s : EventQueue) : QueueLabel → Option EventQueue
  | .service => s.serve capacity arg
  | .send packet =>
    if s.queue.length < capacity ∧ s.Fresh packet then
      some { s with queue := s.queue ++ [packet] }
    else none
  | .prepend packet =>
    if s.queue.length < capacity ∧ s.Fresh packet then
      some { s with queue := packet :: s.queue }
    else none

end EventQueue

/-- The removal of the events of `arg` from `queue`, with LwIP. -/
def removal (capacity arg : ℕ) (queue : List EventPacket) : Machine EventQueue QueueLabel where
  init := ⟨queue, .seek⟩
  step := EventQueue.step capacity arg

/-- What LwIP sends. -/
def QueueLabel.pushed : QueueLabel → List EventPacket
  | .service => []
  | .send packet => [packet]
  | .prepend packet => [packet]

/-- What LwIP has sent in the run `ls`. -/
def pushed (ls : List QueueLabel) : List EventPacket := ls.flatMap QueueLabel.pushed

/-- The steps of the task in the run `ls`. -/
def services (ls : List QueueLabel) : ℕ := ls.countP (· = .service)

/-- The packets of this connection. -/
def same (arg : ℕ) (packets : List EventPacket) : List EventPacket :=
  packets.filter (·.arg = arg)

/-- The packets of the other connections. -/
def others (arg : ℕ) (packets : List EventPacket) : List EventPacket :=
  packets.filter (·.arg ≠ arg)

namespace EventQueue

variable {capacity arg : ℕ}

/-! ### What is in memory -/

/-- The task frees only packets of this connection. -/
theorem live_serve {s s' : EventQueue} (h : s.serve capacity arg = some s') :
    s'.live.Perm s.live ∨ ∃ p, p.arg = arg ∧ s.live.Perm (p :: s'.live) := by
  obtain ⟨queue, pc⟩ := s
  cases pc with
  | seek =>
    cases queue with
    | nil => cases h; exact .inl (.refl _)
    | cons p queue =>
      simp only [serve, Option.some.injEq] at h
      subst h
      split
      · exact .inr ⟨p, ‹_›, .refl _⟩
      · exact .inl (.refl _)
  | sendFirst f =>
    simp only [serve] at h
    split at h <;> cases h
    exact .inl (List.perm_append_singleton f queue)
  | peek f =>
    cases queue with
    | nil => cases h; exact .inl (.refl _)
    | cons p queue =>
      simp only [serve, Option.some.injEq] at h
      subst h
      split <;> exact .inl (.refl _)
  | receive f =>
    cases queue with
    | nil => cases h; exact .inl (.refl _)
    | cons p queue =>
      simp only [serve, Option.some.injEq] at h
      subst h
      split
      · exact .inr ⟨p, ‹_›, .refl _⟩
      · exact .inl (.refl _)
  | sendPacket f p =>
    simp only [serve] at h
    split at h <;> cases h
    exact .inl (List.perm_append_singleton p queue)
  | returned b => cases h

/-- LwIP adds a packet at a free address. -/
theorem live_push {s s' : EventQueue} {l : QueueLabel} (h : s.step capacity arg l = some s')
    (hl : l ≠ .service) : ∃ p, l.pushed = [p] ∧ s.Fresh p ∧ s'.live.Perm (p :: s.live) := by
  cases l with
  | service => exact absurd rfl hl
  | send p =>
    simp only [step] at h
    split at h <;> cases h
    refine ⟨p, rfl, (‹_ ∧ _› : _ ∧ _).2, ?_⟩
    rw [live, live, ← List.append_assoc]
    exact List.perm_append_singleton p _
  | prepend p =>
    simp only [step] at h
    split at h <;> cases h
    exact ⟨p, rfl, (‹_ ∧ _› : _ ∧ _).2, List.perm_middle⟩

/-- Two packets in memory have different addresses. -/
theorem nodup_run {queue : List EventPacket} {ls : List QueueLabel} {s : EventQueue}
    (hq : (queue.map EventPacket.address).Nodup)
    (h : (removal capacity arg queue).run ls = some s) :
    (s.live.map EventPacket.address).Nodup := by
  refine Machine.Reachable.invariant (I := fun s => (s.live.map EventPacket.address).Nodup)
    (Machine.Reachable.of_run h) hq ?_
  intro s l s' _ hs hst
  by_cases hl : l = .service
  · subst hl
    obtain hp | ⟨p, -, hp⟩ := live_serve hst
    · exact (hp.map _).nodup_iff.2 hs
    · rw [(hp.map _).nodup_iff, List.map_cons, List.nodup_cons] at hs
      exact hs.2
  · obtain ⟨p, -, hfresh, hp⟩ := live_push hst hl
    rw [(hp.map _).nodup_iff, List.map_cons, List.nodup_cons]
    exact ⟨hfresh, hs⟩

@[simp] theorem others_append (ps qs : List EventPacket) :
    others arg (ps ++ qs) = others arg ps ++ others arg qs := List.filter_append ..

theorem pushed_append (ls : List QueueLabel) (l : QueueLabel) :
    pushed (ls ++ [l]) = pushed ls ++ l.pushed := by
  rw [pushed, List.flatMap_append, List.flatMap_singleton]
  rfl

theorem pushed_service (ls : List QueueLabel) : pushed (ls ++ [.service]) = pushed ls := by
  rw [pushed_append]
  exact List.append_nil _

/-- The packets of the other connections: those of the queue and those that LwIP has sent. -/
theorem others_run {queue : List EventPacket} {ls : List QueueLabel} {s : EventQueue}
    (h : (removal capacity arg queue).run ls = some s) :
    (others arg s.live).Perm (others arg (queue ++ pushed ls)) := by
  refine Machine.run_induction (M := removal capacity arg queue) (P := fun ls s =>
    (others arg s.live).Perm (others arg (queue ++ pushed ls))) ?_ ?_ h
  · rw [pushed, List.flatMap_nil, List.append_nil]
    exact .refl _
  · intro ls s l s' _ ih hst
    by_cases hl : l = .service
    · subst hl
      rw [pushed_service]
      obtain hp | ⟨p, harg, hp⟩ := live_serve hst
      · exact (hp.filter _).trans ih
      · have hs := hp.filter (·.arg ≠ arg)
        rw [List.filter_cons_of_neg (by simp [harg])] at hs
        exact hs.symm.trans ih
    · obtain ⟨p, hpushed, -, hp⟩ := live_push hst hl
      rw [pushed_append, hpushed, ← List.append_assoc, others_append]
      refine (hp.filter _).trans ?_
      rw [← List.singleton_append, List.filter_append]
      exact (List.perm_append_comm.trans (ih.append_right _))

/-! ### The order -/

/-- Where the packets of other connections that were in the queue are (`old`), in this order, when
LwIP has sent `new`.  In the second loop, `X` is in front of the first packet and `Y` behind it. -/
inductive Phase (arg : ℕ) (old new : List EventPacket) : EventQueue → Prop
  | seek {queue : List EventPacket} (h : old.Sublist queue) : Phase arg old new ⟨queue, .seek⟩
  | sendFirst {f : EventPacket} {queue : List EventPacket} (hf : f.arg ≠ arg)
      (h : old.Sublist (f :: queue)) : Phase arg old new ⟨queue, .sendFirst f⟩
  | peek {f : EventPacket} {X Y old₁ old₂ : List EventPacket} (hf : f.arg ≠ arg)
      (hold : old = old₁ ++ old₂) (h₁ : old₁.Sublist (f :: Y)) (h₂ : old₂.Sublist X)
      (hsame : (same arg Y).Subperm (same arg new)) : Phase arg old new ⟨X ++ f :: Y, .peek f⟩
  | receive {f : EventPacket} {X Y old₁ old₂ : List EventPacket} (hf : f.arg ≠ arg) (hX : X ≠ [])
      (hold : old = old₁ ++ old₂) (h₁ : old₁.Sublist (f :: Y)) (h₂ : old₂.Sublist X)
      (hsame : (same arg Y).Subperm (same arg new)) : Phase arg old new ⟨X ++ f :: Y, .receive f⟩
  | sendPacket {f p : EventPacket} {X Y old₁ old₂ : List EventPacket} (hf : f.arg ≠ arg)
      (hp : p.arg ≠ arg) (hold : old = old₁ ++ old₂) (h₁ : old₁.Sublist (f :: Y))
      (h₂ : old₂.Sublist (p :: X)) (hsame : (same arg Y).Subperm (same arg new)) :
      Phase arg old new ⟨X ++ f :: Y, .sendPacket f p⟩
  | returned {queue : List EventPacket} {b : Bool} (h : old.Sublist queue)
      (hsame : (same arg queue).Subperm (same arg new)) :
      Phase arg old new ⟨queue, .returned b⟩

/-- A sublist of the packets of other connections does not contain a packet of this one. -/
theorem sublist_of_cons {p : EventPacket} {old queue : List EventPacket}
    (hold : ∀ x ∈ old, x.arg ≠ arg) (hp : p.arg = arg) (h : old.Sublist (p :: queue)) :
    old.Sublist queue := by
  cases h with
  | cons _ h => exact h
  | cons_cons _ h => exact absurd hp (hold p List.mem_cons_self)

theorem same_append_of_ne {p : EventPacket} (hp : p.arg ≠ arg) (Y : List EventPacket) :
    same arg (Y ++ [p]) = same arg Y := by
  rw [same, List.filter_append, List.filter_cons_of_neg (by simpa using hp), List.filter_nil,
    List.append_nil]
  rfl

theorem same_cons_of_ne {p : EventPacket} (hp : p.arg ≠ arg) (Y : List EventPacket) :
    same arg (p :: Y) = same arg Y := List.filter_cons_of_neg (by simpa using hp)

theorem Phase.serve {old new : List EventPacket} {s s' : EventQueue} (hs : Phase arg old new s)
    (hold : ∀ x ∈ old, x.arg ≠ arg) (hnodup : (s.live.map EventPacket.address).Nodup)
    (h : s.serve capacity arg = some s') : Phase arg old new s' := by
  cases hs with
  | @seek queue hq =>
    cases queue with
    | nil => cases h; exact .returned hq List.nil_subperm
    | cons p queue =>
      simp only [EventQueue.serve, Option.some.injEq] at h
      subst h
      split
      · exact .seek (sublist_of_cons hold ‹_› hq)
      · exact .sendFirst ‹_› hq
  | @sendFirst f queue hf hq =>
    simp only [EventQueue.serve] at h
    split at h <;> cases h
    cases hq with
    | cons _ hq => exact .peek hf rfl (List.nil_sublist _) hq List.nil_subperm
    | @cons_cons old' _ _ hq =>
      exact .peek hf (show f :: old' = [f] ++ old' from rfl) (.refl _) hq List.nil_subperm
  | @peek f X Y old₁ old₂ hf hsplit h₁ h₂ hsame =>
    cases X with
    | nil =>
      simp only [EventQueue.serve, List.nil_append, if_true, Option.some.injEq] at h
      subst h
      rw [List.sublist_nil.1 h₂, List.append_nil] at hsplit
      exact .returned (hsplit ▸ h₁) (by rwa [same_cons_of_ne hf])
    | cons p X =>
      have hne : p.address ≠ f.address := by
        intro he
        simp [live, RemovalPc.held, he] at hnodup
      simp only [EventQueue.serve, List.cons_append, if_neg hne, Option.some.injEq] at h
      subst h
      exact .receive hf (List.cons_ne_nil p X) hsplit h₁ h₂ hsame
  | @receive f X Y old₁ old₂ hf hX hsplit h₁ h₂ hsame =>
    cases X with
    | nil => exact absurd rfl hX
    | cons p X =>
      simp only [EventQueue.serve, List.cons_append, Option.some.injEq] at h
      subst h
      split
      · have hold₂ : ∀ x ∈ old₂, x.arg ≠ arg := by
          intro x hx
          exact hold x (hsplit ▸ List.mem_append_right _ hx)
        exact .peek hf hsplit h₁ (sublist_of_cons hold₂ ‹_› h₂) hsame
      · exact .sendPacket hf ‹_› hsplit h₁ h₂ hsame
  | @sendPacket f p X Y old₁ old₂ hf hp hsplit h₁ h₂ hsame =>
    simp only [EventQueue.serve] at h
    split at h <;> cases h
    rw [List.append_assoc, List.cons_append]
    have hsame' : (same arg (Y ++ [p])).Subperm (same arg new) := by
      rwa [same_append_of_ne hp]
    cases h₂ with
    | cons _ h₂ =>
      exact .peek hf hsplit (h₁.trans (List.sublist_append_left (f :: Y) [p])) h₂ hsame'
    | @cons_cons old₂' _ _ h₂ =>
      -- an old packet goes behind the others
      have hsplit' : old = (old₁ ++ [p]) ++ old₂' := by rw [hsplit, List.append_assoc]; rfl
      exact .peek hf hsplit' (h₁.append_right [p]) h₂ hsame'
  | returned _ _ => cases h

theorem subperm_same_append {ps qs : List EventPacket} (h : (same arg ps).Subperm (same arg qs))
    (p : EventPacket) : (same arg ps).Subperm (same arg (qs ++ [p])) := by
  refine h.trans ?_
  rw [same, same, List.filter_append]
  exact (List.sublist_append_left _ _).subperm

theorem subperm_same_push {ps qs : List EventPacket} (h : (same arg ps).Subperm (same arg qs))
    (p : EventPacket) : (same arg (ps ++ [p])).Subperm (same arg (qs ++ [p])) := by
  rw [same, same, List.filter_append, List.filter_append]
  exact (List.subperm_append_right _).2 h

theorem Phase.send {old new : List EventPacket} {queue : List EventPacket} {pc : RemovalPc}
    (hs : Phase arg old new ⟨queue, pc⟩) (p : EventPacket) :
    Phase arg old (new ++ [p]) ⟨queue ++ [p], pc⟩ := by
  cases hs with
  | seek h => exact .seek (h.trans (List.sublist_append_left _ _))
  | @sendFirst f _ hf h => exact .sendFirst hf (h.trans (List.sublist_append_left (f :: queue) _))
  | @peek f X Y old₁ old₂ hf hsplit h₁ h₂ hsame =>
    rw [List.append_assoc, List.cons_append]
    exact .peek hf hsplit (h₁.trans (List.sublist_append_left (f :: Y) _)) h₂
      (subperm_same_push hsame p)
  | @receive f X Y old₁ old₂ hf hX hsplit h₁ h₂ hsame =>
    rw [List.append_assoc, List.cons_append]
    exact .receive hf hX hsplit (h₁.trans (List.sublist_append_left (f :: Y) _)) h₂
      (subperm_same_push hsame p)
  | @sendPacket f q X Y old₁ old₂ hf hq hsplit h₁ h₂ hsame =>
    rw [List.append_assoc, List.cons_append]
    exact .sendPacket hf hq hsplit (h₁.trans (List.sublist_append_left (f :: Y) _)) h₂
      (subperm_same_push hsame p)
  | returned h hsame =>
    exact .returned (h.trans (List.sublist_append_left _ _)) (subperm_same_push hsame p)

theorem Phase.prepend {old new : List EventPacket} {queue : List EventPacket} {pc : RemovalPc}
    (hs : Phase arg old new ⟨queue, pc⟩) (p : EventPacket) :
    Phase arg old (new ++ [p]) ⟨p :: queue, pc⟩ := by
  cases hs with
  | seek h => exact .seek (h.cons p)
  | @sendFirst f _ hf h =>
    refine .sendFirst hf (h.trans ?_)
    exact (List.sublist_cons_self p queue).cons_cons f
  | @peek f X Y old₁ old₂ hf hsplit h₁ h₂ hsame =>
    exact .peek (X := p :: X) hf hsplit h₁ (h₂.cons p) (subperm_same_append hsame p)
  | @receive f X Y old₁ old₂ hf hX hsplit h₁ h₂ hsame =>
    exact .receive (X := p :: X) hf (List.cons_ne_nil p X) hsplit h₁ (h₂.cons p)
      (subperm_same_append hsame p)
  | @sendPacket f q X Y old₁ old₂ hf hq hsplit h₁ h₂ hsame =>
    refine .sendPacket (X := p :: X) hf hq hsplit h₁ (h₂.trans ?_) (subperm_same_append hsame p)
    exact (List.sublist_cons_self p X).cons_cons q
  | returned h hsame =>
    refine .returned (h.cons p) (List.Subperm.trans ?_ (subperm_same_push hsame p))
    have hperm : (p :: queue).Perm (queue ++ [p]) := (List.perm_append_singleton p queue).symm
    exact (hperm.filter _).subperm

theorem phase_run {queue : List EventPacket} {ls : List QueueLabel} {s : EventQueue}
    (hq : (queue.map EventPacket.address).Nodup)
    (h : (removal capacity arg queue).run ls = some s) :
    Phase arg (others arg queue) (pushed ls) s := by
  refine Machine.run_induction (M := removal capacity arg queue) (P := fun ls s =>
    Phase arg (others arg queue) (pushed ls) s) ?_ ?_ h
  · exact .seek List.filter_sublist
  · intro ls s l s' hls ih hst
    cases l with
    | service =>
      rw [pushed_service]
      have hold : ∀ x ∈ others arg queue, x.arg ≠ arg := by
        intro x hx
        simpa using (List.mem_filter.1 hx).2
      exact ih.serve hold (nodup_run hq hls) hst
    | send p =>
      rw [pushed_append]
      simp only [removal, step] at hst
      split at hst <;> cases hst
      exact ih.send p
    | prepend p =>
      rw [pushed_append]
      simp only [removal, step] at hst
      split at hst <;> cases hst
      exact ih.prepend p

/-- A permutation of a sublist is the list. -/
theorem eq_of_perm_others {old queue : List EventPacket} (hsub : old.Sublist queue)
    (hperm : queue.Perm old) : queue = old :=
  (hsub.eq_of_length hperm.length_eq.symm).symm

theorem same_append_others_perm (arg : ℕ) (queue : List EventPacket) :
    (same arg queue ++ others arg queue).Perm queue := by
  have h := List.filter_append_perm (fun p : EventPacket => decide (p.arg = arg)) queue
  simpa only [same, others, ne_eq, decide_not] using h

/-- **The removal**, however the tasks take turns: no packet of another connection is lost or
doubled; those that were there keep their order; and the packets that are left for this connection
have been sent in the meantime.  Without LwIP, what is left is what has to be left. -/
theorem removal_correct {queue : List EventPacket} {ls : List QueueLabel} {s : EventQueue}
    {b : Bool} (hq : (queue.map EventPacket.address).Nodup)
    (h : (removal capacity arg queue).run ls = some s) (hpc : s.pc = .returned b) :
    (others arg s.queue).Perm (others arg (queue ++ pushed ls)) ∧
      (others arg queue).Sublist s.queue ∧
      (same arg s.queue).Subperm (same arg (pushed ls)) ∧
      (pushed ls = [] → s.queue = others arg queue) := by
  have hothers := others_run h
  have hphase := phase_run hq h
  obtain ⟨packets, pc⟩ := s
  cases hpc
  cases hphase with
  | returned hsub hsame =>
    refine ⟨hothers, hsub, hsame, ?_⟩
    intro hnone
    rw [hnone] at hothers hsame
    rw [List.append_nil] at hothers
    have hnil : same arg packets = [] := List.subperm_nil.1 hsame
    have hperm := same_append_others_perm arg packets
    rw [hnil, List.nil_append] at hperm
    exact eq_of_perm_others hsub (hperm.symm.trans hothers)

/-- Packets of two connections; LwIP sends another one during the removal, and it overtakes. -/
def mixed : List EventPacket := [⟨1, 7⟩, ⟨2, 9⟩, ⟨3, 7⟩, ⟨4, 9⟩]

def overtaken : List QueueLabel :=
  [.service, .service, .service, .send ⟨5, 9⟩, .service, .service, .service, .service, .service,
    .service]

theorem removal_correct_overtaken :
    (others 7 [⟨2, 9⟩, ⟨5, 9⟩, ⟨4, 9⟩]).Perm (others 7 (mixed ++ [⟨5, 9⟩])) ∧
      (others 7 mixed).Sublist [⟨2, 9⟩, ⟨5, 9⟩, ⟨4, 9⟩] ∧
      (same 7 [⟨2, 9⟩, ⟨5, 9⟩, ⟨4, 9⟩]).Subperm (same 7 [⟨5, 9⟩]) ∧
      (pushed overtaken = [] → [⟨2, 9⟩, ⟨5, 9⟩, ⟨4, 9⟩] = others 7 mixed) := by
  have hrun : (removal 32 7 mixed).run overtaken =
      some ⟨[⟨2, 9⟩, ⟨5, 9⟩, ⟨4, 9⟩], .returned true⟩ := by decide
  exact removal_correct (by decide) hrun rfl

/-! ### How long it takes -/

/-- The packets in front of the first one. -/
def before (f : EventPacket) (queue : List EventPacket) : List EventPacket :=
  queue.takeWhile (·.address ≠ f.address)

/-- How many steps the task has still to do at most, if LwIP sends nothing. -/
def remaining (s : EventQueue) : ℕ := match s.pc with
  | .seek => 3 * s.queue.length + 3
  | .sendFirst _ => 3 * s.queue.length + 2
  | .peek f => 3 * (before f s.queue).length + 1
  | .receive f => 3 * (before f s.queue).length
  | .sendPacket f _ => 3 * (before f s.queue).length + 2
  | .returned _ => 0

theorem before_append {f : EventPacket} {X : List EventPacket}
    (h : f.address ∉ X.map EventPacket.address) (Y : List EventPacket) :
    before f (X ++ f :: Y) = X := by
  have hX : ∀ x ∈ X, decide (x.address ≠ f.address) = true := by
    intro x hx
    exact decide_eq_true fun he => h (List.mem_map.2 ⟨x, hx, he⟩)
  rw [before, List.takeWhile_append_of_pos hX, List.takeWhile_cons_of_neg (by simp),
    List.append_nil]

theorem notMem_before {f : EventPacket} {X Y : List EventPacket} (as : List EventPacket)
    (h : ((as ++ (X ++ f :: Y)).map EventPacket.address).Nodup) :
    f.address ∉ X.map EventPacket.address := by
  intro hf
  simp only [List.map_append, List.map_cons, List.nodup_append, List.mem_cons] at h
  exact h.2.1.2.2 _ hf _ (.inl rfl) rfl

theorem remaining_serve {old new : List EventPacket} {s s' : EventQueue}
    (hs : Phase arg old new s) (hnodup : (s.live.map EventPacket.address).Nodup)
    (h : s.serve capacity arg = some s') : s'.remaining + 1 ≤ s.remaining := by
  cases hs with
  | @seek queue _ =>
    cases queue with
    | nil => cases h; decide
    | cons p queue =>
      simp only [EventQueue.serve, Option.some.injEq] at h
      subst h
      split <;> simp only [remaining, List.length_cons] <;> omega
  | @sendFirst f queue _ _ =>
    have hf := notMem_before [] (Y := [])
      (((List.perm_append_singleton f queue).map EventPacket.address).nodup_iff.2 hnodup)
    simp only [EventQueue.serve] at h
    split at h <;> cases h
    simp only [remaining, before_append hf]
    omega
  | @peek f X Y _ _ _ _ _ _ _ =>
    have hf := notMem_before [] hnodup
    cases X with
    | nil =>
      simp only [EventQueue.serve, List.nil_append, if_true, Option.some.injEq] at h
      subst h
      simp only [remaining]
      omega
    | cons p X =>
      have hne : p.address ≠ f.address := fun he => hf (by simp [he])
      simp only [EventQueue.serve, List.cons_append, if_neg hne, Option.some.injEq] at h
      subst h
      simp only [remaining, List.cons_append]
      omega
  | @receive f X Y _ _ _ hX _ _ _ _ =>
    have hf := notMem_before [] hnodup
    cases X with
    | nil => exact absurd rfl hX
    | cons p X =>
      have hf' : f.address ∉ X.map EventPacket.address := fun h => hf (List.mem_cons_of_mem _ h)
      simp only [EventQueue.serve, List.cons_append, Option.some.injEq] at h
      subst h
      have hbefore := before_append hf Y
      split <;> simp only [remaining, hbefore, before_append hf', List.length_cons] <;> omega
  | @sendPacket f p X Y _ _ _ _ _ _ _ _ =>
    have hf := notMem_before [p] hnodup
    simp only [EventQueue.serve] at h
    split at h <;> cases h
    have hbefore := before_append hf (Y ++ [p])
    rw [← List.cons_append, ← List.append_assoc] at hbefore
    simp only [remaining, hbefore, before_append hf]
    omega
  | returned _ _ => cases h

theorem remaining_push {old new : List EventPacket} {s s' : EventQueue} {l : QueueLabel}
    (hs : Phase arg old new s) (hnodup : (s.live.map EventPacket.address).Nodup)
    (h : s.step capacity arg l = some s') (hl : l ≠ .service) :
    s'.remaining ≤ s.remaining + 3 := by
  have hf {f : EventPacket} {X Y : List EventPacket} (h : s.live = s.pc.held ++ (X ++ f :: Y)) :
      f.address ∉ X.map EventPacket.address := notMem_before _ (h ▸ hnodup)
  cases l with
  | service => exact absurd rfl hl
  | send p =>
    simp only [step] at h
    split at h <;> cases h
    cases hs with
    | seek _ => simp only [remaining, List.length_append, List.length_singleton]; omega
    | sendFirst _ _ => simp only [remaining, List.length_append, List.length_singleton]; omega
    | peek | receive | sendPacket =>
      simp only [remaining, List.append_assoc, List.cons_append, before_append (hf rfl)]
      omega
    | returned _ _ => exact Nat.zero_le _
  | prepend p =>
    simp only [step] at h
    split at h <;> cases h
    rename_i hfresh
    cases hs with
    | seek _ => simp only [remaining, List.length_cons]; omega
    | sendFirst _ _ => simp only [remaining, List.length_cons]; omega
    | @peek f X Y | @receive f X Y | @sendPacket f _ X Y =>
      have hne : f.address ∉ (p :: X).map EventPacket.address := by
        intro hmem
        rw [List.map_cons, List.mem_cons] at hmem
        obtain he | hmem := hmem
        · exact hfresh.2 (by simp [live, ← he])
        · exact hf rfl hmem
      have hbefore := before_append hne Y
      rw [List.cons_append] at hbefore
      simp only [remaining, hbefore, before_append (hf rfl), List.length_cons]
      omega
    | returned _ _ => exact Nat.zero_le _

/-- Only a send waits. -/
theorem waits_of_serve {s : EventQueue} (h : s.serve capacity arg = none) :
    (∃ b, s.pc = .returned b) ∨ (∃ p, s.pc.held = [p]) ∧ capacity ≤ s.queue.length := by
  obtain ⟨queue, pc⟩ := s
  cases pc with
  | seek => cases queue <;> cases h
  | sendFirst f =>
    simp only [serve] at h
    split at h
    · cases h
    · exact .inr ⟨⟨f, rfl⟩, Nat.le_of_not_lt ‹_›⟩
  | peek f => cases queue <;> cases h
  | receive f => cases queue <;> cases h
  | sendPacket f p =>
    simp only [serve] at h
    split at h
    · cases h
    · exact .inr ⟨⟨p, rfl⟩, Nat.le_of_not_lt ‹_›⟩
  | returned b => exact .inl ⟨b, rfl⟩

theorem services_add_remaining_le {queue : List EventPacket} {ls : List QueueLabel}
    {s : EventQueue} (hq : (queue.map EventPacket.address).Nodup)
    (h : (removal capacity arg queue).run ls = some s) :
    services ls + s.remaining ≤ 3 * (queue.length + (pushed ls).length) + 3 := by
  refine Machine.run_induction (M := removal capacity arg queue) (P := fun ls s =>
    services ls + s.remaining ≤ 3 * (queue.length + (pushed ls).length) + 3) ?_ ?_ h
  · simp [services, pushed, remaining, removal]
  · intro ls s l s' hls ih hst
    have hphase := phase_run hq hls
    have hnodup := nodup_run hq hls
    by_cases hl : l = .service
    · subst hl
      have hstep := remaining_serve hphase hnodup hst
      rw [pushed_service, services, List.countP_append]
      simp only [services] at ih
      simp only [List.countP_singleton, decide_true, if_true]
      omega
    · have hstep := remaining_push hphase hnodup hst hl
      obtain ⟨p, hp, -, -⟩ := live_push hst hl
      rw [pushed_append, hp, services, List.countP_append]
      simp only [services] at ih
      simp only [List.countP_singleton, hl, decide_false, Bool.false_eq_true, if_false,
        List.length_append, List.length_singleton]
      omega

/-- **How long the removal takes**: every packet that is there or is sent costs the task three steps
at most, and as long as it has not returned, it only waits while it holds a packet and the queue is
full. -/
theorem services_le {queue : List EventPacket} {ls : List QueueLabel} {s : EventQueue}
    (hq : (queue.map EventPacket.address).Nodup)
    (h : (removal capacity arg queue).run ls = some s) :
    services ls + s.remaining ≤ 3 * (queue.length + (pushed ls).length) + 3 ∧
      (s.serve capacity arg = none →
        (∃ b, s.pc = .returned b) ∨ (∃ p, s.pc.held = [p]) ∧ capacity ≤ s.queue.length) :=
  ⟨services_add_remaining_le hq h, waits_of_serve⟩

theorem services_le_overtaken : services overtaken + 0 ≤ 3 * (mixed.length + 1) + 3 ∧
    (EventQueue.serve 32 7 ⟨[⟨2, 9⟩, ⟨5, 9⟩, ⟨4, 9⟩], .returned true⟩ = none →
      (∃ b, RemovalPc.returned true = .returned b) ∨
        (∃ p, RemovalPc.held (.returned true) = [p]) ∧ 32 ≤ 3) := by
  have hrun : (removal 32 7 mixed).run overtaken =
      some ⟨[⟨2, 9⟩, ⟨5, 9⟩, ⟨4, 9⟩], .returned true⟩ := by decide
  exact services_le (by decide) hrun

/-! ### When it hangs -/

/-- The task has not returned, and nobody can move. -/
def Stuck (capacity arg : ℕ) (s : EventQueue) : Prop :=
  (∀ b, s.pc ≠ .returned b) ∧ ∀ l, s.step capacity arg l = none

theorem Stuck.full {s : EventQueue} (h : Stuck capacity arg s) :
    (∃ p, s.pc.held = [p]) ∧ capacity ≤ s.queue.length := by
  obtain ⟨b, hb⟩ | hfull := waits_of_serve (h.2 .service)
  · exact absurd hb (h.1 b)
  · exact hfull

theorem stuck_of_full {queue : List EventPacket} {f : EventPacket}
    (h : capacity ≤ queue.length) : Stuck capacity arg ⟨queue, .sendFirst f⟩ := by
  have hroom : ¬ queue.length < capacity := Nat.not_lt.2 h
  refine ⟨nofun, ?_⟩
  intro l
  cases l <;> simp [step, serve, hroom]

/-- Nothing is in memory but what was there and what LwIP has sent. -/
theorem length_live_le {queue : List EventPacket} {ls : List QueueLabel} {s : EventQueue}
    (h : (removal capacity arg queue).run ls = some s) :
    s.live.length ≤ queue.length + (pushed ls).length := by
  refine Machine.run_induction (M := removal capacity arg queue) (P := fun ls s =>
    s.live.length ≤ queue.length + (pushed ls).length) (Nat.le_refl _) ?_ h
  intro ls s l s' _ ih hst
  by_cases hl : l = .service
  · subst hl
    rw [pushed_service]
    obtain hp | ⟨p, -, hp⟩ := live_serve hst
    · exact hp.length_eq ▸ ih
    · have hlen := hp.length_eq
      rw [List.length_cons] at hlen
      omega
  · obtain ⟨p, hpushed, -, hp⟩ := live_push hst hl
    rw [pushed_append, hpushed, hp.length_eq, List.length_cons, List.length_append,
      List.length_singleton]
    omega

theorem exists_fresh (s : EventQueue) (a : ℕ) : ∃ p : EventPacket, p.arg = a ∧ s.Fresh p := by
  have hbound (as : List ℕ) : ∃ n, ∀ x ∈ as, x < n := by
    induction as with
    | nil => exact ⟨0, nofun⟩
    | cons a as ih =>
      obtain ⟨n, hn⟩ := ih
      refine ⟨n + a + 1, ?_⟩
      intro x hx
      obtain rfl | hx := List.mem_cons.1 hx
      · omega
      · have := hn x hx
        omega
  obtain ⟨n, hn⟩ := hbound (s.live.map EventPacket.address)
  exact ⟨⟨n, a⟩, rfl, fun h => Nat.lt_irrefl n (hn n h)⟩

/-- LwIP can fill the queue. -/
theorem exists_fill (arg : ℕ) (init : List EventPacket) {n : ℕ} {s : EventQueue}
    (h : s.queue.length + n = capacity) :
    ∃ (ls : List QueueLabel) (s' : EventQueue),
      (removal capacity arg init).runFrom s ls = some s' ∧ s'.pc = s.pc ∧
        s'.queue.length = capacity ∧ (pushed ls).length = n := by
  induction n generalizing s with
  | zero => exact ⟨[], s, rfl, rfl, h, rfl⟩
  | succ n ih =>
    obtain ⟨p, -, hp⟩ := exists_fresh s arg
    have hstep : s.step capacity arg (.send p) = some { s with queue := s.queue ++ [p] } := by
      rw [step, if_pos ⟨by omega, hp⟩]
    obtain ⟨ls, s', hrun, hpc, hlen, hpushed⟩ := @ih { s with queue := s.queue ++ [p] } (by
      rw [List.length_append, List.length_singleton]
      omega)
    refine ⟨.send p :: ls, s', Machine.runFrom_cons.2 ⟨_, hstep, hrun⟩, hpc, hlen, ?_⟩
    rw [pushed, List.flatMap_cons, QueueLabel.pushed, List.length_append, List.length_singleton,
      ← pushed, hpushed]
    omega

/-- **When both tasks wait for ever**: LwIP can bring it about with `k` packets exactly if these and
those of the queue are more than it has room for. -/
theorem stuck_iff {queue : List EventPacket} (hlen : queue.length < capacity) (k : ℕ) :
    (∃ ls s, (removal capacity arg queue).run ls = some s ∧ Stuck capacity arg s ∧
      (pushed ls).length ≤ k) ↔ capacity < queue.length + k := by
  constructor
  · rintro ⟨ls, s, hrun, hstuck, hk⟩
    obtain ⟨⟨p, hp⟩, hfull⟩ := hstuck.full
    have hlive := length_live_le hrun
    rw [live, hp, List.length_append, List.length_singleton] at hlive
    omega
  · intro hk
    -- another connection comes first, and the task takes its packet
    obtain ⟨p, harg, hp⟩ := exists_fresh ⟨queue, .seek⟩ (arg + 1)
    have hfirst : (removal capacity arg queue).run [.prepend p, .service] =
        some ⟨queue, .sendFirst p⟩ := by
      refine Machine.runFrom_cons.2 ⟨⟨p :: queue, .seek⟩, if_pos ⟨hlen, hp⟩, ?_⟩
      refine Machine.runFrom_cons.2 ⟨_, ?_, rfl⟩
      simp [removal, step, serve, harg]
    have hroom : queue.length + (capacity - queue.length) = capacity := by omega
    obtain ⟨ls, s, hrun, hpc, hfull, hpushed⟩ :=
      exists_fill arg queue (s := ⟨queue, .sendFirst p⟩) hroom
    obtain ⟨packets, pc⟩ := s
    cases hpc
    refine ⟨[.prepend p, .service] ++ ls, ⟨packets, .sendFirst p⟩, ?_, stuck_of_full hfull.ge, ?_⟩
    · rw [Machine.run_append hfirst]
      exact hrun
    · simp only [pushed, List.flatMap_append, List.length_append] at hpushed ⊢
      simp only [List.flatMap_cons, List.flatMap_nil, QueueLabel.pushed, List.length_append,
        List.length_singleton, List.length_nil, hpushed]
      omega

theorem stuck_iff_mixed : (∃ ls s, (removal 32 7 mixed).run ls = some s ∧ Stuck 32 7 s ∧
    (pushed ls).length ≤ 29) ↔ 32 < mixed.length + 29 :=
  stuck_iff (by decide) 29

end EventQueue

end AsyncTcp

end MqttServerTest
