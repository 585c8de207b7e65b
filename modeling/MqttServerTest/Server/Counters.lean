import MqttServerTest.Server.History

/-!
# What the session counters count

`QOS0Packets` and `QOS1Packets` grow by the lengths of the two lists, so that they count recorded
gaps.  The first packet of a connection has no gap, and a flush needs one: right after any commit
the two counters together are less than the number of packets received
(`counters_short_of_received`).
-/

namespace MqttServerTest

/-- The counter of a level. -/
def Session.packets (s : Session) : Level → ℕ
  | .atMostOnce => s.qos0Packets
  | .atLeastOnce => s.qos1Packets

/-- The number of gaps recorded with a level. -/
def recorded (level : Level) (es : List Event) : ℕ :=
  (appended es).countP fun r => r.level = level

/-- The number of packets of a level whose `synchronized` block is completed. -/
def received (level : Level) (es : List Event) : ℕ := es.count (.received level)

theorem recorded_append (level : Level) (es new : List Event) :
    recorded level (es ++ new) = recorded level es + recorded level new := by
  rw [recorded, appended_append, List.countP_append]; rfl

theorem received_append (level : Level) (es new : List Event) :
    received level (es ++ new) = received level es + received level new := List.count_append

/-! ### The counters count gaps -/

/-- The counters of the session and the lists together count the recorded gaps. -/
def Counts (w : World) (es : List Event) : Prop :=
  ∃ s, w.db.sessions.get? w.sesId = some s ∧
    ∀ level, s.packets level + (w.buffers.packets level).length = recorded level es

namespace Counts

variable {w w' : World} {es new : List Event}

theorem start : Counts World.start [] :=
  ⟨⟨0, 0, 0⟩, by decide, fun level => by cases level <;> rfl⟩

/-- A step that neither records nor commits. -/
theorem keep (h : Counts w es) (hs : w'.sesId = w.sesId)
    (hdb : w'.db.sessions = w.db.sessions)
    (hb : ∀ level, w'.buffers.packets level = w.buffers.packets level)
    (hr : ∀ level, recorded level new = 0) : Counts w' (es ++ new) := by
  obtain ⟨s, hs', hc⟩ := h
  refine ⟨s, by rw [hs, hdb, hs'], fun level => ?_⟩
  rw [hb, recorded_append, hr, Nat.add_zero, hc]

/-- A `synchronized` block that records a gap. -/
theorem add (h : Counts w es) (r : Record) (hs : w'.sesId = w.sesId)
    (hdb : w'.db.sessions = w.db.sessions)
    (hb : w'.buffers = w.buffers.add r.level r.devId r.pair) (ha : appended new = [r]) :
    Counts w' (es ++ new) := by
  obtain ⟨s, hs', hc⟩ := h
  refine ⟨s, by rw [hs, hdb, hs'], fun level => ?_⟩
  have hrec : recorded level new = if r.level = level then 1 else 0 := by
    simp [recorded, ha, List.countP_singleton]
  rw [hb, recorded_append, hrec, ← hc level]
  by_cases hl : level = r.level
  · subst hl
    rw [Buffers.add_packets_self, List.length_append, List.length_singleton, if_pos rfl]
    omega
  · rw [Buffers.add_packets_of_ne _ _ _ hl, if_neg (Ne.symm hl)]
    omega

/-- A flush that commits moves the lengths of the lists to the counters. -/
theorem commit {faults : Faults} {db : Db} {vs : List Time} (h : Counts w es)
    (hr : (w.buffers.flushTransaction w.sesId).run faults w.db = (db, .ok vs)) :
    ∃ s, db.sessions.get? w.sesId = some s ∧ ∀ level, s.packets level = recorded level es := by
  obtain ⟨s, hs, hc⟩ := h
  obtain ⟨-, -, -, hdb⟩ := World.flush_ok_db hr
  refine ⟨_, by rw [hdb, Db.addPackets_get?, hs]; rfl, fun level => ?_⟩
  rw [← hc level]
  cases level <;> rfl

theorem step {keepsGoing : Bool} {l : Label} (h : Counts w es) (hl : l ≠ .cancel)
    (hst : Step keepsGoing w l w' new) : Counts w' (es ++ new) := by
  cases hst with
  | connect a => exact h.keep (by simp) (by simp) (fun level => by simp) fun _ => rfl
  | handle i e level m curr =>
    by_cases hg : IsGap e.prev curr
    · rw [World.handle_of_isGap hg]
      exact h.add ⟨i, e.devId, level, m, curr - e.prev⟩ rfl rfl rfl rfl
    · rw [World.handle_of_not_isGap hg]
      exact h.keep rfl rfl (fun _ => rfl) fun _ => rfl
  | acknowledge => exact h.keep rfl rfl (fun _ => rfl) fun _ => rfl
  | increment => exact h.keep rfl rfl (fun level => by cases level <;> rfl) fun _ => rfl
  | exactlyOnce => exact h.keep rfl rfl (fun _ => rfl) fun _ => rfl
  | tickNothing => exact h.keep rfl rfl (fun _ => rfl) fun _ => rfl
  | tickNoGaps => exact h.keep rfl rfl (fun _ => rfl) fun _ => rfl
  | tickFails faults _ _ hr =>
    obtain ⟨-, hs, -⟩ := World.flush_error_db hr
    exact h.keep rfl hs (fun _ => rfl) fun _ => rfl
  | tickCommits vs faults _ _ hr =>
    obtain ⟨s, hs, hc⟩ := h.commit hr
    refine ⟨s, hs, fun level => ?_⟩
    rw [recorded_append, ← hc level]
    cases level <;> rfl
  | cancel => exact absurd rfl hl

theorem of_run {keepsGoing : Bool} {ls : List Label} (h : (server keepsGoing).run ls = some w)
    (hc : .cancel ∉ ls) : Counts w (server.events keepsGoing ls) :=
  Machine.emitted_invariant_of (P := fun l => l ≠ Label.cancel) start
    (fun _ _ _ _ _ _ hl hI hst => hI.step hl (step_of_exec hst)) h
    fun _ hl he => hc (he ▸ hl)

end Counts

/-! ### Not every packet has a gap -/

/-- The number of packets of either level whose `synchronized` block is completed. -/
def receivedTotal (es : List Event) : ℕ := received .atMostOnce es + received .atLeastOnce es

theorem receivedTotal_append (es new : List Event) :
    receivedTotal (es ++ new) = receivedTotal es + receivedTotal new := by
  simp only [receivedTotal, received_append]
  omega

theorem recorded_add_recorded (es : List Event) :
    recorded .atMostOnce es + recorded .atLeastOnce es = (appended es).length := by
  simp only [recorded]
  induction appended es with
  | nil => rfl
  | cons r rs ih =>
    rw [List.countP_cons, List.countP_cons, List.length_cons, ← ih]
    cases hl : r.level <;> simp <;> omega

/-- No more gaps are recorded than packets received, and fewer as soon as a connection has
received a packet: its first one has no gap. -/
structure Lags (w : World) (es : List Event) : Prop where
  le : (appended es).length ≤ receivedTotal es
  lt : (∃ e ∈ w.endpoints, e.prev ≠ 0) ∨ appended es ≠ [] →
    (appended es).length < receivedTotal es

namespace Lags

variable {w w' : World} {es new : List Event}

theorem start : Lags World.start [] where
  le := Nat.zero_le _
  lt h := by simp [World.start, appended] at h

/-- A step that handles no packet. -/
theorem keep (h : Lags w es) (he : ∀ e ∈ w'.endpoints, e.prev ≠ 0 → ∃ e' ∈ w.endpoints,
    e'.prev = e.prev) (ha : appended new = []) (hr : receivedTotal new = 0) :
    Lags w' (es ++ new) := by
  have happ : appended (es ++ new) = appended es := by rw [appended_append, ha, List.append_nil]
  have hrec : receivedTotal (es ++ new) = receivedTotal es := by
    rw [receivedTotal_append, hr, Nat.add_zero]
  refine ⟨by rw [happ, hrec]; exact h.le, fun hor => ?_⟩
  rw [happ] at hor ⊢
  rw [hrec]
  refine h.lt (hor.imp ?_ id)
  rintro ⟨e, hmem, hprev⟩
  obtain ⟨e', hmem', heq⟩ := he e hmem hprev
  exact ⟨e', hmem', heq ▸ hprev⟩

/-- A step that handles a packet, and leaves fewer gaps recorded than packets received. -/
theorem handled (hr : receivedTotal new = 1)
    (hlt : (appended (es ++ new)).length < receivedTotal es + 1) : Lags w' (es ++ new) := by
  have hrec : receivedTotal (es ++ new) = receivedTotal es + 1 := by
    rw [receivedTotal_append, hr]
  rw [← hrec] at hlt
  exact ⟨Nat.le_of_lt hlt, fun _ => hlt⟩

/-- The time of the previous packet is kept by a connection that moves on. -/
theorem prev_of_mem_set {es : List Endpoint} {i : ℕ} {e e' : Endpoint} (he : es[i]? = some e)
    (hp : e'.prev = e.prev) : ∀ x ∈ es.set i e', x.prev ≠ 0 → ∃ y ∈ es, y.prev = x.prev := by
  intro x hx _
  rcases List.mem_or_eq_of_mem_set hx with hx | rfl
  · exact ⟨x, hx, rfl⟩
  · exact ⟨e, List.mem_of_getElem? he, hp.symm⟩

theorem step {keepsGoing : Bool} {l : Label} (h : Lags w es)
    (hst : Step keepsGoing w l w' new) : Lags w' (es ++ new) := by
  have hself : ∀ e ∈ w.endpoints, e.prev ≠ 0 → ∃ e' ∈ w.endpoints, e'.prev = e.prev :=
    fun e he _ => ⟨e, he, rfl⟩
  cases hst with
  | connect a =>
    refine h.keep ?_ rfl rfl
    intro e he hp
    rcases w.connect_endpoints a with hw | ⟨devId, hw⟩
    · exact ⟨e, hw ▸ he, rfl⟩
    · rw [hw, List.mem_append, List.mem_singleton] at he
      rcases he with he | rfl
      · exact ⟨e, he, rfl⟩
      · exact absurd rfl hp
  | handle i e level m curr he _ =>
    by_cases hg : IsGap e.prev curr
    · -- the connection has already received a packet
      have hlt := h.lt (Or.inl ⟨e, List.mem_of_getElem? he, hg.1⟩)
      rw [World.handle_of_isGap hg]
      refine handled (by cases level <;> rfl) ?_
      rw [appended_append, List.length_append]
      exact Nat.succ_lt_succ hlt
    · rw [World.handle_of_not_isGap hg]
      refine handled (by cases level <;> rfl) ?_
      rw [appended_append, List.length_append]
      exact Nat.lt_succ_of_le h.le
  | acknowledge m he _ => exact h.keep (prev_of_mem_set he rfl) rfl rfl
  | increment he _ => exact h.keep (prev_of_mem_set he rfl) rfl rfl
  | exactlyOnce => exact h.keep hself rfl rfl
  | tickNothing => exact h.keep hself rfl rfl
  | tickNoGaps => exact h.keep hself rfl rfl
  | tickFails => exact h.keep hself rfl rfl
  | tickCommits => exact h.keep hself rfl rfl
  | cancel => exact h.keep hself rfl rfl

theorem of_run {keepsGoing : Bool} {ls : List Label} (h : (server keepsGoing).run ls = some w) :
    Lags w (server.events keepsGoing ls) :=
  Machine.emitted_invariant start (fun _ _ _ _ _ _ hI hst => hI.step (step_of_exec hst)) h

end Lags

/-- The counters of the session are the numbers of packets received. -/
def CountsReceived (w : World) (es : List Event) : Prop :=
  ∃ s, w.db.sessions.get? w.sesId = some s ∧
    s.qos0Packets = received .atMostOnce es ∧ s.qos1Packets = received .atLeastOnce es

/-- **The counters are short of the packets received.**  Right after a tick commits in a run
without resets, the counters of the session are the numbers of gaps recorded, which is never all
of the packets received. -/
theorem counters_short_of_received {keepsGoing : Bool} {ls : List Label} {w w' : World}
    {faults : Faults} {vs : List Time} (h : (server keepsGoing).run ls = some w)
    (hc : .cancel ∉ ls) (ht : w.exec keepsGoing (.tick faults) = some (w', [.committed vs])) :
    (∃ s, w'.db.sessions.get? w'.sesId = some s ∧
      (∀ level, s.packets level = recorded level (server.events keepsGoing ls)) ∧
      s.qos0Packets + s.qos1Packets < receivedTotal (server.events keepsGoing ls)) ∧
      ¬ CountsReceived w' (server.events keepsGoing ls) := by
  have hstep := step_of_exec ht
  have hcommit : CommitAt [.committed vs] [] vs := ⟨[], rfl⟩
  obtain ⟨-, hb, faults', hr⟩ := hstep.of_commitAt hcommit
  obtain ⟨s, hs, hs'⟩ := (Counts.of_run h hc).commit hr
  have hlt : s.qos0Packets + s.qos1Packets < receivedTotal (server.events keepsGoing ls) := by
    have h₀ : s.qos0Packets = _ := hs' .atMostOnce
    have h₁ : s.qos1Packets = _ := hs' .atLeastOnce
    rw [h₀, h₁, recorded_add_recorded]
    -- a flush needs a gap
    have hw : window (server.events keepsGoing ls) ≠ [] :=
      (Tracks.of_run h).bothTimes_ne_nil_iff.1 hb
    refine (Lags.of_run h).lt (Or.inr fun he => hw ?_)
    exact List.subset_nil.1 (he ▸ window_subset _)
  refine ⟨⟨s, by rw [hstep.sesId, hs], hs', hlt⟩, ?_⟩
  rintro ⟨s', he, h₀, h₁⟩
  rw [hstep.sesId, hs, Option.some.injEq] at he
  subst he
  rw [h₀, h₁] at hlt
  exact Nat.lt_irrefl _ hlt

/-- Two packets of one device and a tick. -/
def twoPacketsRun : List Label :=
  [.connect ⟨"10.0.0.2", "esp", .nothing⟩, .atMostOnce 0 (-1) 1000, .atMostOnce 0 (-1) 2000]

theorem counters_short_of_received_two : ∃ w w' vs, (server false).run twoPacketsRun = some w ∧
    w.exec false (.tick .nothing) = some (w', [.committed vs]) ∧
    (∃ s, w'.db.sessions.get? w'.sesId = some s ∧
      (∀ level, s.packets level = recorded level (server.events false twoPacketsRun)) ∧
      s.qos0Packets + s.qos1Packets < receivedTotal (server.events false twoPacketsRun)) ∧
    ¬ CountsReceived w' (server.events false twoPacketsRun) :=
  ⟨_, _, _, rfl, rfl, @counters_short_of_received false twoPacketsRun _ _ .nothing _ rfl (by decide)
    rfl⟩

theorem counters_miss_first_packet : ¬ ∀ ls w faults w' vs, (server false).run ls = some w →
    .cancel ∉ ls → w.exec false (.tick faults) = some (w', [.committed vs]) →
    CountsReceived w' (server.events false ls) := by
  intro h
  obtain ⟨s, hs, h₀, -⟩ := h twoPacketsRun _ .nothing _ _ rfl (by decide) rfl
  have hs' : s = ⟨1, 0, 0⟩ := (Option.some.inj hs).symm
  rw [hs'] at h₀
  exact absurd h₀ (by decide)

end MqttServerTest
