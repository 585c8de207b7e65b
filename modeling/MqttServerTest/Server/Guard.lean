import MqttServerTest.Server.History
import MqttServerTest.Server.Pubacks

/-!
# The guard of a tick

The guard holds if there is a gap in the lists or `pubackSent` is positive; the statistics that it
protects are of the gaps alone, and throw if there are none (`statistics_defined_iff`).  The lists
hold the gaps recorded since the last commit, but for the moment between a commit and the two
`clear()`s.
-/

namespace MqttServerTest

/-- If the guard holds, the statistics are of at least one gap and do not throw. -/
def World.StatisticsDefined (w : World) : Prop :=
  w.buffers.guard = true →
    w.buffers.bothTimes ≠ [] ∧ ∃ st, statistics w.buffers.bothTimes = .ok st

variable {keepsGoing : Bool}

/-! ### The lists -/

/-- While a tick holds the lock, no other thread records a gap or commits. -/
theorem Step.silent_of_admits {w w' : World} {l : Label} {es : List Event} {pc : TimerPc}
    (hst : Step keepsGoing w l w' es) (ha : pc.admits l = true) (hpc : pc ≠ .idle) :
    (∀ e ∈ es, e.isCommit = false) ∧ appended es = [] := by
  cases hst with
  | handle i e level m curr _ hl =>
    rcases hl with ⟨rfl, -⟩ | ⟨rfl, -⟩ <;> cases pc <;> first | exact absurd rfl hpc | cases ha
  | tickCommits => cases pc <;> cases ha
  | _ => exact ⟨by simp [Event.isCommit], rfl⟩

theorem TimerPc.ne_committed {pc : TimerPc} (h : pc.inAttempt = true) (a : Session) :
    pc ≠ .committed a := by
  rintro rfl
  cases h

/-- What the lists hold; those of a tick that has committed are to be cleared. -/
def Threads.Buffered (s : Threads) (es : List Event) : Prop :=
  match s.pc with
  | .committed _ => window es = []
  | _ => Tracks s.world es

namespace Threads.Buffered

variable {s s' : Threads} {l : Micro} {es new : List Event}

theorem of_tracks (h : Tracks s.world es) (hpc : ∀ a, s.pc ≠ .committed a) :
    s.Buffered es := by
  rcases s with ⟨w, pc⟩
  cases pc <;> first | exact h | exact absurd rfl (hpc _)

theorem tracks (h : s.Buffered es) (hpc : ∀ a, s.pc ≠ .committed a) :
    Tracks s.world es := by
  rcases s with ⟨w, pc⟩
  cases pc <;> first | exact h | exact absurd rfl (hpc _)

/-- Another thread moves. -/
theorem other {w : World} {l : Label} (h : s.Buffered es) (ha : s.pc.admits l = true)
    (hst : Step keepsGoing s.world l w new) : (⟨w, s.pc⟩ : Threads).Buffered (es ++ new) := by
  rcases s with ⟨w₀, pc⟩
  cases pc with
  | committed a =>
    obtain ⟨hc, hn⟩ := hst.silent_of_admits ha TimerPc.noConfusion
    show window (es ++ new) = []
    rw [window_append hc, hn, List.append_nil]
    exact h
  | _ => exact Tracks.step h hst

/-- A statement of the timer thread that leaves the lists as they are. -/
theorem keep (h : s.Buffered es) (hpc : ∀ a, s.pc ≠ .committed a)
    (hp : s'.world.buffers.packets = s.world.buffers.packets)
    (hm : s'.world.buffers.mesToDevIdMap = s.world.buffers.mesToDevIdMap)
    (hc : ∀ e ∈ new, e.isCommit = false) (hn : appended new = [])
    (hpc' : ∀ a, s'.pc ≠ .committed a) : s'.Buffered (es ++ new) :=
  .of_tracks ((h.tracks hpc).keep hp hm hc hn) hpc'

theorem step (h : s.Buffered es) (hst : ThreadStep keepsGoing s l s' new) :
    s'.Buffered (es ++ new) := by
  cases hst with
  | other l ha hst => exact h.other ha hst
  | commit vs => exact window_committed es vs
  | clear a hpc =>
    simp only [Threads.Buffered, hpc] at h
    exact Tracks.empty rfl rfl (by rw [List.append_nil, h])
  | zero a hpc =>
    have hp : s.world.buffers.zero.packets = s.world.buffers.packets := by
      funext level
      cases level <;> rfl
    exact h.keep (by simp [hpc]) hp rfl (by simp) rfl (by simp)
  | rollback n hin => exact h.keep (TimerPc.ne_committed hin) rfl rfl (by simp) rfl (by simp)
  | fail n hin =>
    exact h.keep (TimerPc.ne_committed hin) rfl rfl (by simp [Event.isCommit]) rfl
      (by simp [throw])
  | guardThrows hpc =>
    exact h.keep (by simp [hpc]) rfl rfl (by simp [Event.isCommit]) rfl (by simp [throw])
  | insertThrows e n hpc =>
    exact h.keep (by simp [hpc]) rfl rfl (by simp [Event.isCommit]) rfl (by simp [throw])
  | _ => exact h.keep (by simp [*]) rfl rfl (by simp) rfl (by simp)

/-- **What the lists hold** after any run. -/
theorem of_run {ls : List Micro} (h : (threads keepsGoing).run ls = some s) :
    s.Buffered (threads.events keepsGoing ls) :=
  Machine.emitted_invariant (show Threads.start.Buffered [] from Tracks.start)
    (fun _ _ _ _ _ _ hI hst => hI.step (threadStep_of_exec hst)) h

end Threads.Buffered

/-! ### The statistics -/

/-- **When the statistics are defined.**  In every run, a tick that evaluates its guard goes on to
its transaction or does nothing exactly if `pubackSent`, which has counted the increments since it
was last set to zero, is not positive, or a gap has been recorded since the last commit. -/
theorem statistics_defined_iff {ls : List Micro} {s : Threads}
    (h : (threads keepsGoing).run ls = some s) (hpc : s.pc = .acquired) :
    s.world.StatisticsDefined ↔
      (0 < Int32.ofNat (increments ls).sinceZero → window (threads.events keepsGoing ls) ≠ []) := by
  have ht : Tracks s.world (threads.events keepsGoing ls) :=
    (Threads.Buffered.of_run h).tracks (by simp [hpc])
  rw [World.StatisticsDefined, statistics_ok_iff, and_self, Buffers.guard_iff,
    ← Buffers.bothTimes_ne_nil_iff, ht.bothTimes_ne_nil_iff, (Increments.Agrees.of_run h).sent]
  tauto

/-- The first packet of a connection, sent with QoS 1, and the tick after it. -/
def firstPacketRun : List Micro :=
  [.other (.connect ⟨"10.0.0.2", "esp", .nothing⟩), .other (.acknowledge 0 1),
    .other (.increment 0), .other (.atLeastOnce 0 1000), .acquire]

theorem statistics_defined_iff_firstPacket :
    ∃ s, (threads false).run firstPacketRun = some s ∧ (s.world.StatisticsDefined ↔
      (0 < Int32.ofNat (increments firstPacketRun).sinceZero →
        window (threads.events false firstPacketRun) ≠ [])) :=
  ⟨_, rfl, @statistics_defined_iff false firstPacketRun _ rfl rfl⟩

theorem statistics_undefined : ¬ ∀ ls s, (threads false).run ls = some s → s.pc = .acquired →
    s.world.StatisticsDefined := by
  intro h
  obtain ⟨hb, -⟩ := h firstPacketRun _ rfl rfl (by decide)
  exact hb (by decide)

end MqttServerTest
