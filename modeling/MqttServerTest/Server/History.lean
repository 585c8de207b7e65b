import MqttServerTest.Machine.Simulation
import MqttServerTest.Server.System

/-!
# What the buffers and the table hold

The lists are a function of what has been observed since the last commit: they are the pairs
recorded since then, in order, and the map holds, for every message id recorded since then, the
device of one of its packets (`Tracks.of_run`).  The rows of `Times` are those committed, in order
(`Stores.of_run`).
-/

namespace MqttServerTest

namespace Event

/-- A tick has committed. -/
def isCommit : Event → Bool
  | .committed _ => true
  | _ => false

/-- The pair appended, if any. -/
def record? : Event → Option Record
  | .recorded r => some r
  | _ => none

/-- The rows committed, if any. -/
def rows : Event → List Time
  | .committed vs => vs
  | _ => []

end Event

/-- The pairs ever appended, in order. -/
def appended (es : List Event) : List Record := es.filterMap Event.record?

/-- The rows committed, in order. -/
def committedRows (es : List Event) : List Time := es.flatMap Event.rows

/-- What has been observed since the last commit. -/
def sinceCommit (es : List Event) : List Event :=
  es.foldl (fun acc e => if e.isCommit then [] else acc ++ [e]) []

/-- The pairs appended since the last commit, in order. -/
def window (es : List Event) : List Record := appended (sinceCommit es)

theorem appended_append (es es' : List Event) :
    appended (es ++ es') = appended es ++ appended es' := List.filterMap_append

theorem committedRows_append (es es' : List Event) :
    committedRows (es ++ es') = committedRows es ++ committedRows es' := List.flatMap_append

theorem committedRows_committed (vs : List Time) : committedRows [.committed vs] = vs :=
  List.append_nil vs

theorem sinceCommit_snoc (es : List Event) (e : Event) :
    sinceCommit (es ++ [e]) = if e.isCommit then [] else sinceCommit es ++ [e] := by
  simp only [sinceCommit, List.foldl_append, List.foldl_cons, List.foldl_nil]

/-- Observations other than a commit are added to the window. -/
theorem sinceCommit_append {es new : List Event} (h : ∀ e ∈ new, e.isCommit = false) :
    sinceCommit (es ++ new) = sinceCommit es ++ new := by
  induction new using List.reverseRecOn with
  | nil => simp
  | append_singleton new e ih =>
    rw [← List.append_assoc, sinceCommit_snoc, h e (by simp),
      ih fun e' he' => h e' (List.mem_append_left _ he')]
    simp

theorem sinceCommit_committed (es : List Event) (vs : List Time) :
    sinceCommit (es ++ [.committed vs]) = [] := by
  rw [sinceCommit_snoc]; rfl

theorem window_committed (es : List Event) (vs : List Time) :
    window (es ++ [.committed vs]) = [] := by
  simp only [window]
  rw [sinceCommit_committed]; rfl

theorem window_append {es new : List Event} (h : ∀ e ∈ new, e.isCommit = false) :
    window (es ++ new) = window es ++ appended new := by
  simp only [window]
  rw [sinceCommit_append h, appended_append]

theorem sinceCommit_suffix (es : List Event) : sinceCommit es <:+ es := by
  induction es using List.reverseRecOn with
  | nil => exact List.suffix_refl _
  | append_singleton es e ih =>
    rw [sinceCommit_snoc]
    split_ifs
    · exact List.nil_suffix
    · obtain ⟨pre, hpre⟩ := ih
      exact ⟨pre, by rw [← List.append_assoc, hpre]⟩

theorem window_subset (es : List Event) : window es ⊆ appended es := by
  intro r hr
  obtain ⟨e, he, hre⟩ := List.mem_filterMap.1 hr
  exact List.mem_filterMap.2 ⟨e, (sinceCommit_suffix es).subset he, hre⟩

/-- The pairs of the two levels are all of them. -/
theorem filter_level_perm (win : List Record) :
    ((win.filter fun r => r.level = .atLeastOnce) ++
      win.filter fun r => r.level = .atMostOnce).Perm win := by
  have hnot : (fun r : Record => decide (r.level = .atMostOnce)) =
      fun r => !decide (r.level = .atLeastOnce) := by
    funext r
    cases r.level <;> rfl
  rw [hnot]
  exact List.filter_append_perm _ win

/-! ### The buffers -/

/-- What the buffers hold after `es` has been observed. -/
structure Tracks (w : World) (es : List Event) : Prop where
  packets : ∀ level, w.buffers.packets level =
    ((window es).filter fun r => r.level = level).map Record.pair
  mapped : ∀ r ∈ window es, ∃ r' ∈ window es, r'.messageId = r.messageId ∧
    w.buffers.mesToDevIdMap r.messageId = some r'.devId

namespace Tracks

variable {w w' : World} {es new : List Event}

theorem start : Tracks World.start [] where
  packets level := by cases level <;> rfl
  mapped r hr := by cases hr

/-- The lists are empty, and nothing has been recorded since the last commit. -/
theorem empty (hALO : w.buffers.packetsALO = []) (hAMO : w.buffers.packetsAMO = [])
    (hw : window es = []) : Tracks w es where
  packets level := by
    rw [hw]
    cases level
    · exact hAMO
    · exact hALO
  mapped r hr := by
    rw [hw] at hr
    cases hr

/-- Observations that do not concern the buffers. -/
theorem keep (h : Tracks w es) (hp : w'.buffers.packets = w.buffers.packets)
    (hm : w'.buffers.mesToDevIdMap = w.buffers.mesToDevIdMap)
    (hc : ∀ e ∈ new, e.isCommit = false) (ha : appended new = []) : Tracks w' (es ++ new) where
  packets level := by rw [hp, window_append hc, ha, List.append_nil, h.packets]
  mapped r hr := by
    rw [window_append hc, ha, List.append_nil] at hr ⊢
    rw [hm]
    exact h.mapped r hr

/-- A `synchronized` block that appends a pair. -/
theorem add (h : Tracks w es) (r : Record) (hc : ∀ e ∈ new, e.isCommit = false)
    (ha : appended new = [r])
    (hb : w'.buffers = w.buffers.add r.level r.devId r.pair) : Tracks w' (es ++ new) where
  packets level := by
    rw [hb, window_append hc, ha, List.filter_append, List.map_append, ← h.packets]
    by_cases hl : level = r.level
    · subst hl; simp
    · simp [Buffers.add_packets_of_ne _ _ _ hl, Ne.symm hl]
  mapped r₁ hr₁ := by
    rw [window_append hc, ha] at hr₁ ⊢
    rw [hb, Buffers.add_mesToDevIdMap]
    -- under its id the map now holds the device of `r`, under the others what it has held
    by_cases hm : r₁.messageId = r.messageId
    · exact ⟨r, by simp, hm.symm, by rw [hm]; exact Function.update_self _ _ _⟩
    · have hr : r₁ ∈ window es := by
        refine (List.mem_append.1 hr₁).resolve_right fun hr => hm ?_
        rw [List.mem_singleton.1 hr]
      obtain ⟨r', hr', hid, hd⟩ := h.mapped r₁ hr
      refine ⟨r', List.mem_append_left _ hr', hid, ?_⟩
      rw [← hd]
      exact Function.update_of_ne hm _ _

theorem step {keepsGoing : Bool} {l : Label} (h : Tracks w es)
    (hst : Step keepsGoing w l w' new) : Tracks w' (es ++ new) := by
  cases hst with
  | connect a =>
    have hb := w.connect_buffers a
    exact h.keep (by rw [hb]) (by rw [hb]) (by simp) rfl
  | handle i e level m curr =>
    by_cases hg : IsGap e.prev curr
    · rw [World.handle_of_isGap hg]
      exact h.add ⟨i, e.devId, level, m, curr - e.prev⟩ (by simp [Event.isCommit]) rfl rfl
    · rw [World.handle_of_not_isGap hg]
      exact h.keep rfl rfl (by simp [Event.isCommit]) rfl
  | acknowledge => exact h.keep rfl rfl (by simp [Event.isCommit]) rfl
  | increment => exact h.keep (w.buffers.increment_packets) rfl (by simp [Event.isCommit]) rfl
  | exactlyOnce => exact h.keep rfl rfl (by simp) rfl
  | tickNothing => exact h.keep rfl rfl (by simp) rfl
  | tickNoGaps => exact h.keep rfl rfl (by simp [Event.isCommit]) rfl
  | tickFails => exact h.keep rfl rfl (by simp [Event.isCommit]) rfl
  | tickCommits vs => exact .empty rfl rfl (window_committed es vs)
  | cancel => exact h.keep rfl rfl (by simp) rfl

/-- **What the buffers hold** after any run. -/
theorem of_run {keepsGoing : Bool} {ls : List Label} (h : (server keepsGoing).run ls = some w) :
    Tracks w (server.events keepsGoing ls) :=
  Machine.emitted_invariant start (fun _ _ _ _ _ _ hI hst => hI.step (step_of_exec hst)) h

/-- The two lists together hold the pairs in the window. -/
theorem pairs_perm (h : Tracks w es) :
    (w.buffers.packetsALO ++ w.buffers.packetsAMO).Perm ((window es).map Record.pair) := by
  have hALO := h.packets .atLeastOnce
  have hAMO := h.packets .atMostOnce
  simp only [Buffers.packets] at hALO hAMO
  rw [hALO, hAMO, ← List.map_append]
  exact (filter_level_perm _).map _

theorem gaps_perm (h : Tracks w es) : w.buffers.gaps.Perm ((window es).map Record.gap) := by
  have hmap := h.pairs_perm.map Prod.snd
  rwa [List.map_map] at hmap

/-- The lists are empty exactly if nothing has been recorded since the last commit. -/
theorem bothTimes_ne_nil_iff (h : Tracks w es) :
    w.buffers.bothTimes ≠ [] ↔ window es ≠ [] := by
  rw [Buffers.bothTimes_ne_nil_iff, not_iff_not, ← List.length_eq_zero_iff, h.pairs_perm.length_eq,
    List.length_map, List.length_eq_zero_iff]

end Tracks

/-! ### The table -/

/-- What `Times` holds after `es` has been observed. -/
structure Stores (w : World) (es : List Event) : Prop where
  times : w.db.times.vals = committedRows es
  session : ∀ v ∈ committedRows es, v.sessionId = w.sesId

namespace Stores

variable {w w' : World} {es new : List Event}

theorem start : Stores World.start [] where
  times := rfl
  session v hv := by cases hv

/-- A step that commits nothing. -/
theorem keep (h : Stores w es) (hs : w'.sesId = w.sesId)
    (ht : w'.db.times.rows = w.db.times.rows) (hn : committedRows new = []) :
    Stores w' (es ++ new) := by
  have hes : committedRows (es ++ new) = committedRows es := by
    rw [committedRows_append, hn, List.append_nil]
  refine ⟨?_, ?_⟩
  · rw [hes, ← h.times, Table.vals, ht, ← Table.vals]
  · rw [hes, hs]
    exact h.session

/-- A flush that commits. -/
theorem commit {faults : Faults} {db : Db} {vs : List Time} (h : Stores w es)
    (hr : (w.buffers.flushTransaction w.sesId).run faults w.db = (db, .ok vs)) :
    Stores { w with db, buffers := w.buffers.clear } (es ++ [.committed vs]) := by
  obtain ⟨hn, -, ht, -⟩ := World.flush_ok_db hr
  have hes : committedRows (es ++ [.committed vs]) = committedRows es ++ vs := by
    rw [committedRows_append, committedRows_committed]
  refine ⟨?_, ?_⟩
  · rw [hes, ← h.times]
    exact ht
  · rw [hes]
    intro v hv
    rcases List.mem_append.1 hv with hv | hv
    · exact h.session v hv
    · obtain ⟨p, -, hp⟩ := exists_of_mem_forall₂ (Buffers.newTimes_ok hn) hv
      exact hp.2.2

theorem step {keepsGoing : Bool} {l : Label} (h : Stores w es)
    (hst : Step keepsGoing w l w' new) : Stores w' (es ++ new) := by
  cases hst with
  | connect a => exact h.keep (by simp) (by simp) rfl
  | handle i e level m curr =>
    refine h.keep rfl rfl ?_
    by_cases hg : IsGap e.prev curr
    · rw [World.handle_of_isGap hg]; rfl
    · rw [World.handle_of_not_isGap hg]; rfl
  | tickFails faults _ _ hr =>
    obtain ⟨-, -, ht⟩ := World.flush_error_db hr
    exact h.keep rfl ht rfl
  | tickCommits vs faults _ _ hr => exact h.commit hr
  | _ => exact h.keep rfl rfl rfl

/-- **What the table holds** after any run. -/
theorem of_run {keepsGoing : Bool} {ls : List Label} (h : (server keepsGoing).run ls = some w) :
    Stores w (server.events keepsGoing ls) :=
  Machine.emitted_invariant start (fun _ _ _ _ _ _ hI hst => hI.step (step_of_exec hst)) h

end Stores

/-! ### Commits -/

/-- After `pre`, a tick has committed the rows `vs`. -/
def CommitAt (es pre : List Event) (vs : List Time) : Prop :=
  ∃ post, es = pre ++ .committed vs :: post

theorem CommitAt.append {es pre : List Event} {vs : List Time} (h : CommitAt es pre vs)
    (new : List Event) : CommitAt (es ++ new) pre vs := by
  obtain ⟨post, rfl⟩ := h
  exact ⟨post ++ new, by rw [List.append_assoc, List.cons_append]⟩

theorem commitAt_append {es new pre : List Event} {vs : List Time}
    (h : CommitAt (es ++ new) pre vs) :
    CommitAt es pre vs ∨ ∃ pre', pre = es ++ pre' ∧ CommitAt new pre' vs := by
  obtain ⟨post, h⟩ := h
  -- the commit is among the new observations or among the old ones
  rcases List.append_eq_append_iff.1 h with ⟨pre', rfl, hnew⟩ | ⟨rest, rfl, hrest⟩
  · exact Or.inr ⟨pre', rfl, post, hnew⟩
  · cases rest with
    | nil => exact Or.inr ⟨[], by simp, post, by simpa using hrest.symm⟩
    | cons e rest =>
      obtain ⟨rfl, -⟩ := List.cons.inj hrest
      exact Or.inl ⟨rest, rfl⟩

/-- A step that commits is a tick whose flush commits, and does nothing else. -/
theorem Step.of_commitAt {keepsGoing : Bool} {w w' : World} {l : Label} {new pre : List Event}
    {vs : List Time} (hst : Step keepsGoing w l w' new) (hc : CommitAt new pre vs) :
    pre = [] ∧ w.buffers.bothTimes ≠ [] ∧
      ∃ faults, (w.buffers.flushTransaction w.sesId).run faults w.db = (w'.db, .ok vs) := by
  have hmem : .committed vs ∈ new := by
    obtain ⟨post, rfl⟩ := hc
    simp
  cases hst with
  | handle i e level m curr =>
    simp only [World.handle] at hmem
    split_ifs at hmem <;> simp at hmem
  | tickCommits vs' faults _ hb hr =>
    obtain ⟨post, hc⟩ := hc
    obtain ⟨rfl, he⟩ : pre = [] ∧ Event.committed vs' = .committed vs := by
      cases pre with
      | nil => exact ⟨rfl, (List.cons.inj hc).1⟩
      | cons e pre => simp at hc
    cases he
    exact ⟨rfl, hb, faults, hr⟩
  | _ => simp at hmem

/-- **Every commit is a flush**: what a run has observed before a commit is what a run that ends
just before this flush has observed. -/
theorem flush_of_commitAt {keepsGoing : Bool} {ls : List Label} {w : World} {pre : List Event}
    {vs : List Time} (h : (server keepsGoing).run ls = some w)
    (hc : CommitAt (server.events keepsGoing ls) pre vs) :
    ∃ ks w₀ faults db, (server keepsGoing).run ks = some w₀ ∧ server.events keepsGoing ks = pre ∧
      w₀.buffers.bothTimes ≠ [] ∧
      (w₀.buffers.flushTransaction w₀.sesId).run faults w₀.db = (db, .ok vs) := by
  obtain ⟨post, he⟩ := hc
  obtain ⟨ks, l, ms, w₁, w₂, os₁, os₂, os, -, hks, hst, -, rfl, -⟩ := Machine.emitted_split h he
  have hcommit : CommitAt (os₁ ++ .committed vs :: os₂) os₁ vs := ⟨os₂, rfl⟩
  obtain ⟨rfl, hb, faults, hr⟩ := (step_of_exec hst).of_commitAt hcommit
  exact ⟨ks, w₁, faults, w₂.db, hks, (List.append_nil _).symm, hb, hr⟩

end MqttServerTest
