import MqttServerTest.Server.Resets
import Mathlib.Data.Int.Notation
import Mathlib.Data.List.Count

/-!
# Every PUBACK is counted once

A handler increments `pubackSent` without the lock, and a tick that has committed what it has read
of it sets it to zero.  An increment between the two is lost.  The counter has 32 bits, and the
ticks do not set it to zero as long as no gap is committed: it can also wrap.  The total of the
session is exact if neither has happened (`pubacks_counted_iff`).
-/

namespace MqttServerTest

/-- An increment is pending: the packet is acknowledged and not yet counted. -/
def HandlerPc.isPending : HandlerPc → Bool
  | .acknowledged _ => true
  | _ => false

/-- The number of increments that are pending. -/
def World.pending (w : World) : ℕ := w.endpoints.countP fun e => e.pc.isPending

/-- The amount of a commit whose reset of `pubackSent` is still to come. -/
def TimerPc.justCommitted : TimerPc → ℤ
  | .committed a | .cleared a => a.packetsSent
  | _ => 0

/-- The tick under way has committed and not yet set `pubackSent` to zero. -/
def TimerPc.afterCommit : TimerPc → Bool
  | .committed _ | .cleared _ => true
  | _ => false

theorem TimerPc.afterCommit_of_inAttempt {pc : TimerPc} (h : pc.inAttempt = true) :
    pc.afterCommit = false := by
  cases pc <;> first | rfl | cases h

/-- The call of `publishAcknowledge`. -/
def Label.isAcknowledge : Label → Bool
  | .acknowledge _ _ => true
  | _ => false

/-- The increment of `pubackSent`. -/
def Label.isIncrement : Label → Bool
  | .increment _ => true
  | _ => false

/-- The statement is a call of `publishAcknowledge`. -/
def Micro.isAcknowledge : Micro → Bool
  | .other l => l.isAcknowledge
  | _ => false

/-- The number of calls of `publishAcknowledge`. -/
def acknowledgements (ls : List Micro) : ℕ := ls.countP Micro.isAcknowledge

/-- The increments seen in a run. -/
structure Increments where
  /-- Since `pubackSent` was last set to zero. -/
  sinceZero : ℕ
  /-- Since `pubackSent` was last read for an update. -/
  sinceRead : ℕ
  /-- The most there have been between two times that `pubackSent` was set to zero. -/
  most : ℕ
  /-- Between the last read of a tick and its `pubackSent = 0`. -/
  lost : ℕ
  /-- Missing in what the ticks have committed, because the counter had wrapped when it was read. -/
  wrapped : ℤ
  deriving DecidableEq, Repr

/-- What a 32-bit counter has missed of `n` increments. -/
def missed (n : ℕ) : ℤ := n - (Int32.ofNat n).toInt

namespace Increments

/-- The increments that the last read for an update has seen. -/
def read (c : Increments) : ℕ := c.sinceZero - c.sinceRead

/-- `pubackSent` is incremented. -/
def increment (c : Increments) : Increments :=
  { c with
    sinceZero := c.sinceZero + 1
    sinceRead := c.sinceRead + 1
    most := max c.most (c.sinceZero + 1) }

/-- The statement `l` is performed. -/
def next (c : Increments) : Micro → Increments
  | .other l => if l.isIncrement then c.increment else c
  | .read => { c with sinceRead := 0 }
  | .commit => { c with wrapped := c.wrapped + missed c.read }
  | .zero => { c with sinceZero := 0, lost := c.lost + c.sinceRead }
  | _ => c

end Increments

/-- The increments of the run `ls`. -/
def increments (ls : List Micro) : Increments := ls.foldl Increments.next ⟨0, 0, 0, 0, 0⟩

theorem acknowledgements_snoc (ls : List Micro) (l : Micro) :
    acknowledgements (ls ++ [l]) = acknowledgements ls + if l.isAcknowledge then 1 else 0 := by
  rw [acknowledgements, List.countP_append, List.countP_singleton]; rfl

theorem increments_snoc (ls : List Micro) (l : Micro) :
    increments (ls ++ [l]) = (increments ls).next l := List.foldl_append

variable {keepsGoing : Bool}

/-! ### What the handlers do to the counters -/

section Handlers

variable {w w' : World} {l : Label} {es : List Event} {pc : TimerPc}

/-- A connection moves on in its handler. -/
theorem countP_set_add {es : List Endpoint} {i : ℕ} {e : Endpoint} (f : HandlerPc → Bool)
    (he : es[i]? = some e) (e' : Endpoint) :
    (es.set i e').countP (fun e => f e.pc) + (if f e.pc then 1 else 0) =
      es.countP (fun e => f e.pc) + if f e'.pc then 1 else 0 := by
  obtain ⟨hi, rfl⟩ := List.getElem?_eq_some_iff.1 he
  have hle := List.boole_getElem_le_countP (p := fun e : Endpoint => f e.pc) hi
  rw [List.countP_set hi]
  omega

/-- Nothing but an increment changes `pubackSent` outside a tick. -/
theorem Step.pubackSent (hst : Step keepsGoing w l w' es) (ha : pc.admits l = true) :
    w'.buffers.pubackSent = if l.isIncrement then w.buffers.pubackSent + 1
      else w.buffers.pubackSent := by
  cases hst with
  | connect a => simp [Label.isIncrement]
  | handle i e level m curr _ hl =>
    have hsent : (w.handle i e level m curr).1.buffers.pubackSent = w.buffers.pubackSent :=
      Buffers.record_pubackSent _ _ _ _ _ _
    rcases hl with ⟨rfl, -⟩ | ⟨rfl, -⟩ <;> exact hsent
  | tickCommits => cases pc <;> cases ha
  | _ => rfl

/-- Together, the increments and the pending packets grow by those acknowledged. -/
theorem Step.pending_add (hst : Step keepsGoing w l w' es) (ha : pc.admits l = true) :
    w'.pending + (if l.isIncrement then 1 else 0) =
      w.pending + if l.isAcknowledge then 1 else 0 := by
  cases hst with
  | connect a =>
    have hpend : (w.connect a).pending = w.pending := by
      rcases w.connect_endpoints a with hw | ⟨devId, hw⟩
      · simp only [World.pending, hw]
      · simp only [World.pending, hw, List.countP_append]; rfl
    rw [hpend]; rfl
  | handle i e level m curr he hl =>
    have hset := countP_set_add HandlerPc.isPending he ⟨e.devId, curr, .idle⟩
    have hnot : e.pc.isPending = false := by
      rcases hl with ⟨-, -, hpc⟩ | ⟨-, -, hpc⟩ <;> rw [hpc] <;> rfl
    rw [hnot] at hset
    have hpend : (w.handle i e level m curr).1.pending = w.pending := hset
    rw [hpend]
    rcases hl with ⟨rfl, -⟩ | ⟨rfl, -⟩ <;> rfl
  | @acknowledge i e m he hpc =>
    have hset := countP_set_add HandlerPc.isPending he { e with pc := .acknowledged m }
    rw [hpc] at hset
    exact hset
  | @increment i e m he hpc =>
    have hset := countP_set_add HandlerPc.isPending he { e with pc := .counted m }
    rw [hpc] at hset
    exact hset
  | tickCommits => cases pc <;> cases ha
  | _ => rfl

end Handlers

/-! ### What a 32-bit counter misses -/

theorem missed_nonneg (n : ℕ) : 0 ≤ missed n := by
  rw [missed]
  rcases Nat.lt_or_ge n (2 ^ 31) with h | h
  · rw [Int32.toInt_ofNat_of_lt h, Int.sub_self]
  · have hlt := (Int32.ofNat n).toInt_lt
    omega

/-- Nothing is missed of less than `2 ^ 31` increments. -/
theorem missed_eq_zero_iff {n : ℕ} : missed n = 0 ↔ n < 2 ^ 31 := by
  constructor
  · intro h
    have hlt := (Int32.ofNat n).toInt_lt
    simp only [missed] at h
    omega
  · intro h
    rw [missed, Int32.toInt_ofNat_of_lt h, Int.sub_self]

/-! ### The balance -/

/-- What the attempt under way has read of `pubackSent`, and when. -/
def Increments.Attempt (c : Increments) (s : Threads) : Prop :=
  match s.pc with
  | .prepared _ a | .updated _ a _ =>
    c.sinceRead ≤ c.sinceZero ∧ a.packetsSent = (Int32.ofNat c.read).toInt
  | .committed a | .cleared a =>
    c.sinceRead ≤ c.sinceZero ∧ a.packetsSent = (Int32.ofNat c.read).toInt ∧
      missed c.read ≤ c.wrapped
  | _ => True

/-- The counter holds the increments since it was last set to zero, as far as it can, and whatever
has been missed is still missing. -/
structure Increments.Agrees (c : Increments) (s : Threads) : Prop where
  sent : s.world.buffers.pubackSent = Int32.ofNat c.sinceZero
  attempt : c.Attempt s
  le_most : c.sinceZero ≤ c.most
  wrapped_nonneg : 0 ≤ c.wrapped
  wrapped_eq : c.most < 2 ^ 31 → c.wrapped = 0
  short : 2 ^ 31 ≤ c.most → 2 ^ 31 ≤ c.sinceZero ∨ 0 < c.lost ∨ 0 < c.wrapped

/-- The increments that a tick has committed and not yet taken off `pubackSent`. -/
def Increments.justCommitted (c : Increments) (pc : TimerPc) : ℕ :=
  if pc.afterCommit then c.read else 0

/-- Acknowledged packets are in the row of the session or missed by it, or counted since
`pubackSent` was last set to zero, or pending, or lost; those just committed are both in the row
and counted. -/
def Increments.Balances (c : Increments) (acks : ℕ) (s : Threads) : Prop :=
  ∃ r, s.row = some r ∧ r.packetsSent + c.wrapped + c.sinceZero + s.world.pending + c.lost =
    acks + c.justCommitted s.pc

namespace Increments

variable {c : Increments} {acks : ℕ} {s s' : Threads} {l : Micro} {es : List Event}

/-- No lost increment is found again. -/
theorem lost_le_next (c : Increments) (l : Micro) : c.lost ≤ (c.next l).lost := by
  cases l with
  | other l =>
    simp only [next]
    split_ifs <;> exact Nat.le_refl _
  | zero => exact Nat.le_add_right _ _
  | _ => exact Nat.le_refl _

/-- Nor does a commit find again what another has missed. -/
theorem wrapped_le_next (c : Increments) (l : Micro) : c.wrapped ≤ (c.next l).wrapped := by
  cases l with
  | other l =>
    simp only [next]
    split_ifs <;> exact Int.le_refl _
  | commit => exact Int.le_add_of_nonneg_right (missed_nonneg _)
  | _ => exact Int.le_refl _

/-- Other threads do not read. -/
theorem sinceRead_le_other (c : Increments) (l : Label) :
    c.sinceRead ≤ (c.next (.other l)).sinceRead := by
  simp only [next]
  split_ifs
  · exact Nat.le_succ _
  · exact Nat.le_refl _

/-- An increment after the read is not seen by it. -/
theorem increment_read (h : c.sinceRead ≤ c.sinceZero) : c.increment.read = c.read := by
  simp only [increment, read]
  omega

theorem justCommitted_of_inAttempt (c : Increments) {pc : TimerPc} (h : pc.inAttempt = true) :
    c.justCommitted pc = 0 := by
  rw [justCommitted, TimerPc.afterCommit_of_inAttempt h]; rfl

theorem Attempt.justCommitted_increment (h : c.Attempt s) :
    c.increment.justCommitted s.pc = c.justCommitted s.pc := by
  rcases s with ⟨w, pc⟩
  cases pc <;> first | rfl | exact increment_read h.1

theorem Attempt.increment (h : c.Attempt s) : c.increment.Attempt s := by
  rcases s with ⟨w, pc⟩
  cases pc <;> simp only [Attempt] at h ⊢ <;> rw [increment_read h.1] <;>
    exact ⟨Nat.succ_le_succ h.1, h.2⟩

namespace Agrees

theorem start : (⟨0, 0, 0, 0, 0⟩ : Increments).Agrees Threads.start :=
  ⟨rfl, trivial, Nat.le_refl _, Int.le_refl _, fun _ => rfl, fun h => absurd h (by decide)⟩

/-- A statement of the timer thread that does not concern the counter. -/
theorem keep (h : c.Agrees s) (hsent : s'.world.buffers.pubackSent = s.world.buffers.pubackSent)
    (hatt : c.Attempt s') : c.Agrees s' :=
  { h with
    sent := hsent.trans h.sent
    attempt := hatt }

/-- `++pubackSent` -/
theorem increment {w : World} (h : c.Agrees s)
    (hsent : w.buffers.pubackSent = s.world.buffers.pubackSent + 1) :
    c.increment.Agrees ⟨w, s.pc⟩ where
  sent := by
    rw [hsent, h.sent]
    exact (Int32.ofNat_add _ _).symm
  attempt := h.attempt.increment
  le_most := Nat.le_max_right _ _
  wrapped_nonneg := h.wrapped_nonneg
  wrapped_eq hm := h.wrapped_eq (Nat.lt_of_le_of_lt (Nat.le_max_left _ _) hm)
  short hm := by
    have hshort := h.short
    simp only [Increments.increment] at hm ⊢
    omega

theorem read {vs : List Time} (h : c.Agrees s) :
    (c.next .read).Agrees ⟨s.world, .prepared vs s.world.buffers.amounts⟩ :=
  { h with
    attempt := by
      refine ⟨Nat.zero_le _, ?_⟩
      rw [show s.world.buffers.amounts.packetsSent = s.world.buffers.pubackSent.toInt from rfl,
        h.sent]
      rfl }

/-- A commit misses what the counter has missed at the read. -/
theorem commit {db : Db} {vs : List Time} {a : Session} {row : Option Session} (h : c.Agrees s)
    (hpc : s.pc = .updated vs a row) : (c.next .commit).Agrees
      ⟨{ s.world with db := db.writeSession s.world.sesId row }, .committed a⟩ := by
  have hatt := h.attempt
  simp only [Attempt, hpc] at hatt
  have hmissed := missed_nonneg c.read
  have hwrapped := h.wrapped_nonneg
  refine ⟨h.sent, ⟨hatt.1, hatt.2, ?_⟩, h.le_most, ?_, fun hm => ?_, fun hm => ?_⟩
  · show missed c.read ≤ c.wrapped + missed c.read
    omega
  · show 0 ≤ c.wrapped + missed c.read
    omega
  · have hread : c.read < 2 ^ 31 :=
      Nat.lt_of_le_of_lt ((Nat.sub_le _ _).trans h.le_most) hm
    show c.wrapped + missed c.read = 0
    rw [h.wrapped_eq hm, missed_eq_zero_iff.2 hread, Int.add_zero]
  · refine (h.short hm).imp_right fun hs => hs.imp_right fun hpos => ?_
    show 0 < c.wrapped + missed c.read
    omega

/-- When `pubackSent` is set to zero, a counter that has wrapped has been committed so, or the
increments after the read are lost. -/
theorem zero {a : Session} (h : c.Agrees s) (hpc : s.pc = .cleared a) :
    (c.next .zero).Agrees ⟨{ s.world with buffers := s.world.buffers.zero }, .finished⟩ := by
  have hatt := h.attempt
  simp only [Attempt, hpc] at hatt
  obtain ⟨-, -, hle⟩ := hatt
  refine ⟨rfl, trivial, Nat.zero_le _, h.wrapped_nonneg, h.wrapped_eq, fun hm => Or.inr ?_⟩
  show 0 < c.lost + c.sinceRead ∨ 0 < c.wrapped
  rcases h.short hm with hz | hlost | hpos
  · rcases Nat.eq_zero_or_pos c.sinceRead with hr | hr
    · refine Or.inr (Int.lt_of_lt_of_le ?_ hle)
      have hne : missed c.read ≠ 0 := fun h0 => by
        have hlt := missed_eq_zero_iff.1 h0
        simp only [Increments.read, hr] at hlt
        omega
      have hnonneg := missed_nonneg c.read
      omega
    · exact Or.inl (Nat.add_pos_right _ hr)
  · exact Or.inl (Nat.add_pos_left hlost _)
  · exact Or.inr hpos

theorem step (h : c.Agrees s) (hst : ThreadStep keepsGoing s l s' es) : (c.next l).Agrees s' := by
  have hatt := h.attempt
  cases hst with
  | @other w _ l ha hst =>
    have hsent := hst.pubackSent ha
    simp only [next]
    split_ifs at hsent ⊢
    · exact h.increment hsent
    · exact h.keep hsent hatt
  | read vs hpc => exact h.read
  | update vs a hpc =>
    simp only [Attempt, hpc] at hatt
    exact h.keep rfl hatt
  | commit vs a row hpc => exact h.commit hpc
  | clear a hpc =>
    simp only [Attempt, hpc] at hatt
    exact h.keep rfl hatt
  | zero a hpc => exact h.zero hpc
  | _ => exact h.keep rfl trivial

/-- **What the counter holds** after any run. -/
theorem of_run {ls : List Micro} (h : (threads keepsGoing).run ls = some s) :
    (increments ls).Agrees s := by
  refine Machine.run_induction (M := threads keepsGoing)
    (P := fun ls s => (increments ls).Agrees s) start ?_ h
  intro ls s l s' _ ih hst
  obtain ⟨es, he⟩ := Machine.ofExec_step.1 hst
  rw [increments_snoc]
  exact ih.step (threadStep_of_exec he)

/-- What a tick has committed and not yet taken off `pubackSent` misses part of what the commits
miss, and nothing if the counter has not wrapped. -/
theorem justCommitted (h : c.Agrees s) : ∃ m, 0 ≤ m ∧ m ≤ c.wrapped ∧
    s.pc.justCommitted = c.justCommitted s.pc - m ∧ (missed c.sinceZero = 0 → m = 0) := by
  have hatt := h.attempt
  cases hpc : s.pc.afterCommit with
  | false =>
    refine ⟨0, Int.le_refl _, h.wrapped_nonneg, ?_, fun _ => rfl⟩
    rcases s with ⟨w, pc⟩
    cases pc <;> first | rfl | cases hpc
  | true =>
    have hread : c.sinceRead ≤ c.sinceZero ∧ s.pc.justCommitted = (Int32.ofNat c.read).toInt ∧
        missed c.read ≤ c.wrapped := by
      rcases s with ⟨w, pc⟩
      cases pc <;> first | exact hatt | cases hpc
    refine ⟨missed c.read, missed_nonneg _, hread.2.2, ?_, fun hz => ?_⟩
    · rw [hread.2.1, missed, Increments.justCommitted, hpc]
      simp only [↓reduceIte]
      omega
    · rw [missed_eq_zero_iff] at hz ⊢
      exact Nat.lt_of_le_of_lt (Nat.sub_le _ _) hz

/-- Nothing is missing exactly if no increment has been lost and the counter has never wrapped. -/
theorem missing_eq_zero_iff (h : c.Agrees s) :
    c.lost = 0 ∧ c.wrapped = 0 ∧ missed c.sinceZero = 0 ↔ c.lost = 0 ∧ c.most < 2 ^ 31 := by
  rw [missed_eq_zero_iff]
  constructor
  · rintro ⟨hlost, hwrapped, hz⟩
    refine ⟨hlost, Nat.lt_of_not_le fun hm => ?_⟩
    have hshort := h.short hm
    omega
  · rintro ⟨hlost, hm⟩
    exact ⟨hlost, h.wrapped_eq hm, Nat.lt_of_le_of_lt h.le_most hm⟩

end Agrees

namespace Balances

theorem start : (⟨0, 0, 0, 0, 0⟩ : Increments).Balances 0 Threads.start :=
  ⟨⟨0, 0, 0⟩, by decide, rfl⟩

/-- A statement of the timer thread that changes none of the counters. -/
theorem keep {c' : Increments} (h : c.Balances acks s) (hwrapped : c'.wrapped = c.wrapped)
    (hz : c'.sinceZero = c.sinceZero) (hlost : c'.lost = c.lost) (hrow : s'.row = s.row)
    (hpend : s'.world.pending = s.world.pending)
    (hpc : c'.justCommitted s'.pc = c.justCommitted s.pc) : c'.Balances acks s' := by
  rw [Balances, hwrapped, hz, hlost, hrow, hpend, hpc]
  exact h

/-- Another thread moves. -/
theorem other {w : World} {l : Label} (h : c.Balances acks s) (hatt : c.Attempt s)
    (hl : l ≠ .cancel) (ha : s.pc.admits l = true) (hst : Step keepsGoing s.world l w es) :
    (c.next (.other l)).Balances (acks + if l.isAcknowledge then 1 else 0) ⟨w, s.pc⟩ := by
  obtain ⟨r, hr, htotal⟩ := h
  have hcount := hst.pending_add ha
  have hrow : (⟨w, s.pc⟩ : Threads).row = some r := by
    rcases (hst.tables_of_admits ha).2 with ⟨-, hs⟩ | ⟨hc, -⟩
    · rw [← hr]
      simp only [Threads.row, hst.sesId, hs]
    · exact absurd hc hl
  refine ⟨r, hrow, ?_⟩
  simp only [next]
  cases hi : l.isIncrement with
  | false =>
    rw [hi] at hcount
    simp only [Bool.false_eq_true, ↓reduceIte] at hcount ⊢
    omega
  | true =>
    rw [hi] at hcount
    simp only [↓reduceIte, hatt.justCommitted_increment] at hcount ⊢
    simp only [increment]
    omega

/-- A commit moves what was read to the row of the session. -/
theorem commit {db : Db} {vs : List Time} {a : Session} {row : Option Session}
    (h : c.Balances acks s) (hatt : c.Attempt s) (hheld : s.Held)
    (hpc : s.pc = .updated vs a row) (hdb : s.world.db.batchInsert vs = .ok db) :
    (c.next .commit).Balances acks
      ⟨{ s.world with db := db.writeSession s.world.sesId row }, .committed a⟩ := by
  obtain ⟨r, hr, htotal⟩ := h
  have hrow := Threads.row_commit hheld hpc hdb
  rw [hr] at hrow
  refine ⟨r.add a, hrow, ?_⟩
  simp only [Attempt, hpc] at hatt
  rw [hpc] at htotal
  have hnone : c.justCommitted (.updated vs a row) = 0 := rfl
  have hmissed : missed c.read = c.read - a.packetsSent := by rw [hatt.2]; rfl
  show r.packetsSent + a.packetsSent + (c.wrapped + missed c.read) + c.sinceZero +
    s.world.pending + c.lost = acks + c.read
  omega

/-- The reset of `pubackSent` loses the increments since the read. -/
theorem zero {a : Session} (h : c.Balances acks s) (hatt : c.Attempt s)
    (hpc : s.pc = .cleared a) : (c.next .zero).Balances acks
      ⟨{ s.world with buffers := s.world.buffers.zero }, .finished⟩ := by
  obtain ⟨r, hr, htotal⟩ := h
  simp only [Attempt, hpc] at hatt
  refine ⟨r, hr, ?_⟩
  rw [hpc] at htotal
  have hjust : c.justCommitted (.cleared a) = c.sinceZero - c.sinceRead := rfl
  show r.packetsSent + c.wrapped + 0 + s.world.pending + (c.lost + c.sinceRead : ℕ) = acks + 0
  omega

theorem step (h : c.Balances acks s) (hatt : c.Attempt s) (hheld : s.Held)
    (hl : l ≠ .other .cancel) (hst : ThreadStep keepsGoing s l s' es) :
    (c.next l).Balances (acks + if l.isAcknowledge then 1 else 0) s' := by
  cases hst with
  | other l ha hst => exact h.other hatt (fun he => hl (he ▸ rfl)) ha hst
  | acquire hpc => exact h.keep rfl rfl rfl rfl rfl (by rw [hpc]; rfl)
  | guardFails hpc => exact h.keep rfl rfl rfl rfl rfl (by rw [hpc]; rfl)
  | guardThrows hpc => exact h.keep rfl rfl rfl rfl rfl (by rw [hpc]; rfl)
  | guardHolds hpc => exact h.keep rfl rfl rfl rfl rfl (by rw [hpc]; rfl)
  | insertThrows e n hpc => exact h.keep rfl rfl rfl rfl rfl (by rw [hpc]; rfl)
  | insert vs hpc => exact h.keep rfl rfl rfl rfl rfl (by rw [hpc]; rfl)
  | read vs hpc => exact h.keep rfl rfl rfl rfl rfl (by rw [hpc]; rfl)
  | update vs a hpc => exact h.keep rfl rfl rfl rfl rfl (by rw [hpc]; rfl)
  | commit vs a row hpc hdb => exact h.commit hatt hheld hpc hdb
  | rollback n hpc => exact h.keep rfl rfl rfl rfl rfl (c.justCommitted_of_inAttempt hpc).symm
  | fail n hpc => exact h.keep rfl rfl rfl rfl rfl (c.justCommitted_of_inAttempt hpc).symm
  | clear a hpc => exact h.keep rfl rfl rfl rfl rfl (by rw [hpc]; rfl)
  | zero a hpc => exact h.zero hatt hpc
  | release hpc => exact h.keep rfl rfl rfl rfl rfl (by rw [hpc]; rfl)

theorem of_run {ls : List Micro} (h : (threads keepsGoing).run ls = some s)
    (hc : .other .cancel ∉ ls) : (increments ls).Balances (acknowledgements ls) s := by
  refine Machine.run_induction (M := threads keepsGoing)
    (P := fun ls s => .other .cancel ∉ ls → (increments ls).Balances (acknowledgements ls) s)
    (fun _ => start) ?_ h hc
  intro ls s l s' hls ih hst hc
  obtain ⟨es, he⟩ := Machine.ofExec_step.1 hst
  have hI := ih fun hm => hc (List.mem_append_left _ hm)
  have hl : l ≠ .other .cancel := by
    rintro rfl
    exact hc (by simp)
  rw [increments_snoc, acknowledgements_snoc]
  exact hI.step (Agrees.of_run hls).attempt (.of_reachable (.of_run hls)) hl
    (threadStep_of_exec he)

end Balances

end Increments

/-- The session total is exact: committed and uncommitted PUBACKs, less the amount that a tick has
committed and not yet taken off `pubackSent`, are the calls of `publishAcknowledge`. -/
def Threads.Exact (s : Threads) (acks : ℕ) : Prop :=
  ∃ r, s.world.db.sessions.get? s.world.sesId = some r ∧
    r.packetsSent + s.world.buffers.pubackSent.toInt - s.pc.justCommitted = acks

/-- **When every PUBACK is counted once.**  After every run without resets and with no increment
pending, the session total is exact if and only if no increment has fallen between the read of
`pubackSent` for an update and the `pubackSent = 0` of the same tick, and `pubackSent` has never
been incremented `2 ^ 31` times without being set to zero. -/
theorem pubacks_counted_iff {ls : List Micro} {s : Threads}
    (h : (threads keepsGoing).run ls = some s) (hc : .other .cancel ∉ ls)
    (hp : ∀ e ∈ s.world.endpoints, ∀ m, e.pc ≠ .acknowledged m) :
    s.Exact (acknowledgements ls) ↔
      (increments ls).lost = 0 ∧ (increments ls).most < 2 ^ 31 := by
  obtain ⟨r, hr, htotal⟩ := Increments.Balances.of_run h hc
  have hagrees := Increments.Agrees.of_run h
  have hpend : s.world.pending = 0 := by
    refine List.countP_eq_zero.2 fun e he hpe => ?_
    cases hpc : e.pc with
    | acknowledged m => exact hp e he m hpc
    | idle => rw [hpc] at hpe; cases hpe
    | counted m => rw [hpc] at hpe; cases hpe
  rw [hpend] at htotal
  -- the total is off by what is lost, by what the commits and by what the counter has missed
  have hexact : s.Exact (acknowledgements ls) ↔ (increments ls).lost = 0 ∧
      (increments ls).wrapped = 0 ∧ missed (increments ls).sinceZero = 0 := by
    obtain ⟨m, hm₀, hm, hjust, hmz⟩ := hagrees.justCommitted
    have hsent : s.world.buffers.pubackSent.toInt =
        (increments ls).sinceZero - missed (increments ls).sinceZero := by
      rw [hagrees.sent, missed]
      omega
    have hmissed := missed_nonneg (increments ls).sinceZero
    have hiff : s.Exact (acknowledgements ls) ↔
        r.packetsSent + s.world.buffers.pubackSent.toInt - s.pc.justCommitted =
          acknowledgements ls := by
      refine ⟨fun ⟨r', hr', he⟩ => ?_, fun he => ⟨r, hr, he⟩⟩
      rw [show s.world.db.sessions.get? s.world.sesId = some r from hr, Option.some.injEq] at hr'
      exact hr' ▸ he
    rw [hiff]
    omega
  exact hexact.trans hagrees.missing_eq_zero_iff

/-- A QoS 1 packet is counted after the tick has read `pubackSent` and before it sets it to
zero. -/
def lostIncrementRun : List Micro :=
  [.other (.connect ⟨"10.0.0.2", "esp", .nothing⟩), .other (.atMostOnce 0 (-1) 1000),
    .other (.atMostOnce 0 (-1) 2000), .acquire, .guard, .insert, .read, .update,
    .other (.acknowledge 0 1), .other (.increment 0), .commit, .clear, .zero, .release]

theorem pubacks_counted_iff_lost : ∃ s, (threads false).run lostIncrementRun = some s ∧
    (s.Exact (acknowledgements lostIncrementRun) ↔
      (increments lostIncrementRun).lost = 0 ∧ (increments lostIncrementRun).most < 2 ^ 31) :=
  ⟨_, rfl, @pubacks_counted_iff false lostIncrementRun _ rfl (by decide) (by
    intro e he m
    have hpc : e.pc = .counted 1 := by
      rw [show e = ⟨1, 2000, .counted 1⟩ from List.mem_singleton.1 he]
    rw [hpc]
    exact HandlerPc.noConfusion)⟩

theorem pubacks_lost : ¬ ∀ ls s, (threads false).run ls = some s → .other .cancel ∉ ls →
    (∀ e ∈ s.world.endpoints, ∀ m, e.pc ≠ .acknowledged m) → s.Exact (acknowledgements ls) := by
  intro h
  obtain ⟨r, hr, hexact⟩ := h lostIncrementRun _ rfl (by decide) (by
    intro e he m
    rw [show e = ⟨1, 2000, .counted 1⟩ from List.mem_singleton.1 he]
    exact HandlerPc.noConfusion)
  rw [show r = ⟨1, 0, 0⟩ from (Option.some.inj hr).symm] at hexact
  exact absurd hexact (by decide)

end MqttServerTest
