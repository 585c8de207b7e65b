import MqttServerTest.Firmware.Loop

/-!
# Which PUBACKs a round reports

`pubacks` is incremented by the TCP task and carries no packet id; the loop prints it one second
after the QoS 1 burst and then resets it.  A printed total is the number of PUBACKs delivered since
the last reset, so a PUBACK is included in the totals that are printed between its delivery and the
next reset.  This is one total, and that of its own round, exactly if it is delivered before the
total of its round is printed (`pubacks_reported`).  One that comes later is in the total of a later
round, or, between the print and the reset, in none.
-/

namespace MqttServerTest

namespace LoopEvent

/-- A PUBACK has been counted. -/
def isPuback : LoopEvent → Bool
  | .puback _ => true
  | _ => false

/-- The round whose total has been printed, if any. -/
def printedRound? : LoopEvent → Option ℕ
  | .printed round _ => some round
  | _ => none

/-- The loop has neither printed nor reset `pubacks`. -/
def quiet : LoopEvent → Bool
  | .printed _ _ | .reset => false
  | _ => true

end LoopEvent

/-- The number of PUBACKs delivered since the last reset. -/
def pubacksSinceReset (es : List LoopEvent) : ℕ :=
  (es.reverse.takeWhile fun e => e ≠ .reset).countP LoopEvent.isPuback

/-- The rounds whose totals include a PUBACK that is followed by `rest`: those printed before the
next reset. -/
def includedIn (rest : List LoopEvent) : List ℕ :=
  (rest.takeWhile fun e => e ≠ .reset).filterMap LoopEvent.printedRound?

theorem pubacksSinceReset_append {es new : List LoopEvent} (h : .reset ∉ new) :
    pubacksSinceReset (es ++ new) = pubacksSinceReset es + new.countP LoopEvent.isPuback := by
  have hnew : ∀ e ∈ new.reverse, decide (e ≠ LoopEvent.reset) = true := fun e he =>
    decide_eq_true fun hr => h (hr ▸ List.mem_reverse.1 he)
  rw [pubacksSinceReset, List.reverse_append, List.takeWhile_append_of_pos hnew,
    List.countP_append, List.countP_reverse, Nat.add_comm]
  rfl

theorem pubacksSinceReset_reset (es : List LoopEvent) : pubacksSinceReset (es ++ [.reset]) = 0 := by
  simp [pubacksSinceReset]

theorem includedIn_append {new rest : List LoopEvent} (h : ∀ e ∈ new, e.quiet = true) :
    includedIn (new ++ rest) = includedIn rest := by
  have hnew : ∀ e ∈ new, decide (e ≠ LoopEvent.reset) = true := fun e he =>
    decide_eq_true fun hr => by simpa [hr, LoopEvent.quiet] using h e he
  have hnone : new.filterMap LoopEvent.printedRound? = [] := by
    refine List.filterMap_eq_nil_iff.2 fun e he => ?_
    have hq := h e he
    cases e with
    | printed => cases hq
    | _ => rfl
  rw [includedIn, List.takeWhile_append_of_pos hnew, List.filterMap_append, hnone, List.nil_append]
  rfl

/-! ### The next total -/

/-- The totals that are printed before the next reset. -/
def Loop.nextReport (s : Loop) : List ℕ :=
  match s.pc with
  | .idle => [s.round + 1]
  | .reset => []
  | _ => [s.round]

theorem nextReport_of_unreported {s : Loop} (h : s.pc.unreported = true) :
    s.nextReport = [s.round] := by
  unfold Loop.nextReport
  cases hpc : s.pc with
  | idle => rw [hpc] at h; cases h
  | reset => rw [hpc] at h; cases h
  | _ => rfl

theorem quiet_publish (s : Loop) (p : Packet) (pc : LoopPc) (anns : List (ℕ × ℕ)) :
    ∀ e ∈ (s.publish p pc).2 ++ anns.map fun a => LoopEvent.announced a.1 a.2,
      e.quiet = true := by
  intro e he
  rcases List.mem_append.1 he with he | he
  · rcases s.publish_events p pc with hes | hes <;> rw [hes] at he <;>
      simp only [List.mem_cons, List.not_mem_nil, or_false] at he
    · rcases he with rfl | rfl <;> rfl
    · rw [he]
      rfl
  · obtain ⟨a, -, rfl⟩ := List.mem_map.1 he
    rfl

/-- A PUBACK delivered now is included in the totals printed before the next reset. -/
theorem includedIn_of_execFrom {s s' : Loop} {ks : List LoopLabel} {es : List LoopEvent}
    (h : Machine.execFrom Loop.exec s ks = some (s', es)) (hr : .reset ∈ es) :
    includedIn es = s.nextReport := by
  revert hr
  -- on the steps; a step before the next reset leaves the next total what it is, or prints it
  refine Machine.execFrom_induction
    (P := fun s es => .reset ∈ es → includedIn es = s.nextReport) (G := fun _ => True) ?_ ?_ h
    fun _ _ => trivial
  · intro hr
    cases hr
  · intro s l s₁ es₁ es _ hst ih hr
    have hquiet : (∀ e ∈ es₁, e.quiet = true) → s₁.nextReport = s.nextReport →
        includedIn (es₁ ++ es) = s.nextReport := by
      intro hq hnext
      have hr' : .reset ∈ es := (List.mem_append.1 hr).resolve_left fun hmem => by
        cases hq _ hmem
      rw [includedIn_append hq, ih hr', hnext]
    cases loopStep_of_exec hst with
    | notConnected => exact hquiet (by simp) rfl
    | begin button2 button1 rand hpc =>
      refine hquiet (by simp [LoopEvent.quiet]) ?_
      simp only [Loop.nextReport, hpc]
    | publish p pc anns hpc hpc' =>
      refine hquiet (quiet_publish s p pc anns) ?_
      rw [nextReport_of_unreported hpc, nextReport_of_unreported (by rwa [Loop.publish_pc]),
        Loop.publish_round]
    | leave pc hpc hpc' =>
      refine hquiet (by simp) ?_
      rw [nextReport_of_unreported hpc, nextReport_of_unreported hpc']
    | report hpc =>
      have hr' : .reset ∈ es := by simpa using hr
      have hrest : includedIn es = [] := ih hr'
      rw [Loop.nextReport, hpc]
      show includedIn (.printed s.round s.pubacks :: es) = [s.round]
      rw [← hrest]
      rfl
    | reset hpc =>
      rw [Loop.nextReport, hpc]
      rfl
    | puback r => exact hquiet (by simp [LoopEvent.quiet]) rfl
    | room space => exact hquiet (by simp) rfl
    | connection up => exact hquiet (by simp) rfl

/-! ### What has been printed -/

/-- What the loop has counted and printed. -/
structure Reports (s : Loop) (es : List LoopEvent) : Prop where
  pubacks : s.pubacks = pubacksSinceReset es
  /-- The packets in flight are those of a round that has begun. -/
  inFlight : ∀ r ∈ s.inFlight, 0 < r ∧ r ≤ s.round
  begun : s.pc.unreported = true → 0 < s.round
  printed : ∀ r, (∃ n, .printed r n ∈ es) ↔
    0 < r ∧ (r < s.round ∨ r = s.round ∧ s.pc.unreported = false)

namespace Reports

variable {s s' : Loop} {es new : List LoopEvent}

theorem start : Reports Loop.start [] where
  pubacks := rfl
  inFlight r hr := by cases hr
  begun h := by cases h
  printed r := by
    simp only [Loop.start, List.not_mem_nil, exists_const, false_iff]
    omega

/-- A step that prints and resets nothing. -/
theorem keep (h : Reports s es) (hq : ∀ e ∈ new, e.quiet = true)
    (hp : s'.pubacks = s.pubacks + new.countP LoopEvent.isPuback)
    (hf : ∀ r ∈ s'.inFlight, 0 < r ∧ r ≤ s'.round) (hround : s'.round = s.round)
    (hpc : s'.pc.unreported = s.pc.unreported) : Reports s' (es ++ new) where
  pubacks := by
    rw [hp, h.pubacks, pubacksSinceReset_append fun hr => by cases hq _ hr]
  inFlight := hf
  begun := by rw [hpc, hround]; exact h.begun
  printed r := by
    rw [hpc, hround, ← h.printed r]
    refine exists_congr fun n => ?_
    rw [List.mem_append, or_iff_left fun hmem => by cases hq _ hmem]

/-- A quiet step that counts no PUBACK. -/
theorem same (h : Reports s es) (hq : ∀ e ∈ new, e.quiet = true)
    (hn : ∀ e ∈ new, e.isPuback = false) (hp : s'.pubacks = s.pubacks)
    (hf : ∀ r ∈ s'.inFlight, r ∈ s.inFlight) (hround : s'.round = s.round)
    (hpc : s'.pc.unreported = s.pc.unreported) : Reports s' (es ++ new) := by
  refine h.keep hq ?_ (fun r hr => ?_) hround hpc
  · rw [hp, List.countP_eq_zero.2 fun e he => by simp [hn e he]]
    rfl
  · rw [hround]
    exact h.inFlight r (hf r hr)

theorem publish (h : Reports s es) {p : Packet} {pc : LoopPc} (anns : List (ℕ × ℕ))
    (hpc : s.pc.unreported = true) (hpc' : pc.unreported = true) :
    Reports (s.publish p pc).1
      (es ++ ((s.publish p pc).2 ++ anns.map fun a => .announced a.1 a.2)) := by
  have hcount : ((s.publish p pc).2 ++ anns.map fun a => LoopEvent.announced a.1 a.2).countP
      LoopEvent.isPuback = 0 := by
    rw [List.countP_append, List.countP_map]
    have hzero : anns.countP (LoopEvent.isPuback ∘ fun a => .announced a.1 a.2) = 0 :=
      List.countP_eq_zero.2 fun a _ => Bool.false_ne_true
    rcases s.publish_events p pc with hes | hes <;> rw [hes, hzero] <;> rfl
  refine h.keep (quiet_publish s p pc anns) ?_ (fun r hr => ?_) (s.publish_round p pc) ?_
  · rw [hcount, Loop.publish_pubacks]
    rfl
  · rw [Loop.publish_round]
    rcases s.mem_publish_inFlight p pc hr with hr | rfl
    · exact h.inFlight r hr
    · exact ⟨h.begun hpc, Nat.le_refl _⟩
  · rw [Loop.publish_pc, hpc, hpc']

theorem step {l : LoopLabel} (h : Reports s es) (hst : LoopStep s l s' new) :
    Reports s' (es ++ new) := by
  cases hst with
  | notConnected => exact h.same (by simp) (by simp) rfl (fun _ hr => hr) rfl rfl
  | begin button2 button1 rand hpc =>
    -- every round before has been reported
    refine ⟨?_, fun r hr => ?_, fun _ => Nat.succ_pos _, fun r => ?_⟩
    · rw [pubacksSinceReset_append (by simp), ← h.pubacks]
      rfl
    · have hf := h.inFlight r hr
      dsimp only
      omega
    · have hpr := h.printed r
      simp only [hpc, LoopPc.unreported, and_true] at hpr
      simp only [List.mem_append, List.mem_singleton, reduceCtorEq, or_false, hpr,
        LoopPc.unreported, Bool.true_eq_false, and_false]
      omega
  | publish p pc anns hpc hpc' => exact h.publish anns hpc hpc'
  | leave pc hpc hpc' =>
    exact h.same (by simp) (by simp) rfl (fun _ hr => hr) rfl (hpc'.trans hpc.symm)
  | report hpc =>
    refine ⟨?_, h.inFlight, fun hun => (by cases hun), fun r => ?_⟩
    · rw [pubacksSinceReset_append (by simp), ← h.pubacks]
      rfl
    · have hpr := h.printed r
      have hb := h.begun (by rw [hpc]; rfl)
      simp only [hpc, LoopPc.unreported, Bool.true_eq_false, and_false, or_false] at hpr
      simp only [List.mem_append, List.mem_singleton, LoopEvent.printed.injEq, exists_or, hpr,
        exists_and_left, exists_eq, and_true, LoopPc.unreported]
      omega
  | reset hpc =>
    refine ⟨(pubacksSinceReset_reset es).symm, h.inFlight, fun hun => (by cases hun), fun r => ?_⟩
    have hpr := h.printed r
    rw [hpc] at hpr
    simp only [List.mem_append, List.mem_singleton, reduceCtorEq, or_false]
    exact hpr
  | puback r hr =>
    refine h.keep (by simp [LoopEvent.quiet]) rfl (fun r' hr' => ?_) rfl rfl
    exact h.inFlight r' (List.mem_of_mem_erase hr')
  | room space => exact h.same (by simp) (by simp) rfl (fun _ hr => hr) rfl rfl
  | connection up =>
    refine h.same (by simp) (by simp) rfl (fun r hr => ?_) rfl rfl
    cases up with
    | true => exact hr
    | false => cases hr

theorem of_run {ls : List LoopLabel} (h : loopMachine.run ls = some s) :
    Reports s (loopMachine.events ls) :=
  Machine.emitted_invariant start (fun _ _ _ _ _ _ hI hst => hI.step (loopStep_of_exec hst)) h

end Reports

/-! ### What a total includes -/

section

variable {s s' : Loop} {l : LoopLabel} {new : List LoopEvent}

theorem LoopStep.of_printed (hst : LoopStep s l s' new) {r n : ℕ} (h : .printed r n ∈ new) :
    new = [.printed r n] ∧ n = s.pubacks := by
  cases hst with
  | publish p pc anns => cases quiet_publish s p pc anns _ h
  | report =>
    rw [List.mem_singleton, LoopEvent.printed.injEq] at h
    obtain ⟨rfl, rfl⟩ := h
    exact ⟨rfl, rfl⟩
  | _ => simp at h

theorem LoopStep.of_puback (hst : LoopStep s l s' new) {r : ℕ} (h : .puback r ∈ new) :
    new = [.puback r] ∧ r ∈ s.inFlight ∧ s'.nextReport = s.nextReport := by
  cases hst with
  | publish p pc anns =>
    rcases List.mem_append.1 h with h | h
    · rcases s.publish_events p pc with hes | hes <;> rw [hes] at h <;> simp at h
    · simp at h
  | puback r' hr =>
    rw [List.mem_singleton, LoopEvent.puback.injEq] at h
    subst h
    exact ⟨rfl, hr, rfl⟩
  | _ => simp at h

end

/-- The next total is that of the round of a packet in flight exactly if none has been printed for
this round. -/
theorem Reports.nextReport_iff {s : Loop} {es : List LoopEvent} (h : Reports s es) {r : ℕ}
    (hr : r ∈ s.inFlight) : s.nextReport = [r] ↔ ∀ n, .printed r n ∉ es := by
  obtain ⟨hpos, hle⟩ := h.inFlight r hr
  rw [← not_exists, h.printed r]
  cases hpc : s.pc with
  | idle =>
    simp only [Loop.nextReport, hpc, List.cons.injEq, and_true, LoopPc.unreported]
    omega
  | reset =>
    simp only [Loop.nextReport, hpc, List.nil_eq, reduceCtorEq, LoopPc.unreported, and_true,
      false_iff, not_not]
    omega
  | _ =>
    simp only [Loop.nextReport, hpc, List.cons.injEq, and_true, LoopPc.unreported,
      Bool.true_eq_false, and_false, or_false]
    omega

theorem singleton_split {α : Type*} {os os' : List α} {o o' : α} (h : os ++ o :: os' = [o']) :
    os = [] ∧ os' = [] := by
  cases os with
  | nil => exact ⟨rfl, (List.cons.inj h).2⟩
  | cons => simp at h

/-- **What a round reports.**  In every run, whatever the rounds and the delays of the PUBACKs,
every printed total is the number of the PUBACKs delivered since the last reset.  A PUBACK after
which the loop comes to a reset is included in exactly one printed total, that of the round which
has published the acknowledged packet, exactly if it is delivered before the total of this round is
printed. -/
theorem pubacks_reported {ls : List LoopLabel} {s : Loop} (h : loopMachine.run ls = some s) :
    (∀ pre k n post, loopMachine.events ls = pre ++ .printed k n :: post →
      n = pubacksSinceReset pre) ∧
    ∀ pre r rest, loopMachine.events ls = pre ++ .puback r :: rest → .reset ∈ rest →
      (includedIn rest = [r] ↔ ∀ n, .printed r n ∉ pre) := by
  refine ⟨fun pre k n post he => ?_, fun pre r rest he hreset => ?_⟩
  · obtain ⟨ks, l, ms, s₁, s₂, os₁, os₂, os, -, hks, hst, -, rfl, -⟩ := Machine.emitted_split h he
    obtain ⟨hone, hn⟩ := (loopStep_of_exec hst).of_printed (List.mem_append_right _
      List.mem_cons_self)
    obtain ⟨rfl, -⟩ := singleton_split hone
    rw [hn, List.append_nil]
    exact (Reports.of_run hks).pubacks
  · obtain ⟨ks, l, ms, s₁, s₂, os₁, os₂, os, -, hks, hst, hms, rfl, rfl⟩ :=
      Machine.emitted_split h he
    obtain ⟨hone, hr, hnext⟩ := (loopStep_of_exec hst).of_puback (List.mem_append_right _
      List.mem_cons_self)
    obtain ⟨rfl, rfl⟩ := singleton_split hone
    rw [List.append_nil, List.nil_append, includedIn_of_execFrom hms hreset, hnext]
    exact (Reports.of_run hks).nextReport_iff hr

/-- Two rounds of one packet; the PUBACK of the first comes in the second. -/
def lateRun : List LoopLabel :=
  [.connection true, .room 100, .loop true false 1] ++ List.replicate 7 .next ++
    [.loop true false 1, .puback 1] ++ List.replicate 7 .next

theorem pubacks_reported_late : ∃ s, loopMachine.run lateRun = some s ∧
    ∀ pre r rest, loopMachine.events lateRun = pre ++ .puback r :: rest → .reset ∈ rest →
      (includedIn rest = [r] ↔ ∀ n, .printed r n ∉ pre) :=
  ⟨_, rfl, (@pubacks_reported lateRun _ rfl).2⟩

/-- The PUBACK of the only packet comes after the total has been printed and before `pubacks` is
reset: it is in no total. -/
def windowRun : List LoopLabel :=
  [.connection true, .room 100, .loop true false 1] ++ List.replicate 6 .next ++ [.puback 1, .next]

theorem pubacks_misreported : ¬ ∀ ls s, loopMachine.run ls = some s → ∀ pre r rest,
    loopMachine.events ls = pre ++ .puback r :: rest → .reset ∈ rest → includedIn rest = [r] := by
  intro h
  have hnone : includedIn [.reset] = [1] := h windowRun _ rfl
    ((loopMachine.events windowRun).take 9) 1 [.reset] (by decide) (by decide)
  revert hnone
  decide

end MqttServerTest
