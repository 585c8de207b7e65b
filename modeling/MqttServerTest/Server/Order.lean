import MqttServerTest.Data.StableSort
import MqttServerTest.Server.Acceptance
import MqttServerTest.Server.Attribution

/-!
# The order of the rows

The dashboard reads `Times` as a time series, in the order of its ids.  A flush writes the pairs
that wait for it in the order of their packet ids, those of QoS 1 before those of QoS 0 under one
id, and in the order of their arrival only among pairs that agree in both (`origins_eq`).  The
column of the gaps is therefore the sequence of the recorded gaps exactly if at every commit each
pair has the gap of the one whose position it gets (`times_in_order_iff`).  A client whose QoS 0
packets all have one id, or whose QoS 1 ids start again, does not send in this order
(`times_out_of_order`).
-/

namespace MqttServerTest

/-- What a flush orders the pairs by: the packet id, then QoS 1 before QoS 0. -/
def Record.flushKey (r : Record) : ℤ ×ₗ ℕ :=
  toLex (r.messageId, if r.level = .atLeastOnce then 0 else 1)

/-- The pairs are recorded in the order in which a flush writes them. -/
def InOrder (win : List Record) : Prop := win.Pairwise fun r r' => r.flushKey ≤ r'.flushKey

/-- Every pair has the gap of the one whose position it gets in a flush. -/
def Settled (win : List Record) : Prop :=
  ∀ x ∈ win.zipIdx, (win.map Record.gap)[StableSort.place Record.flushKey win x]? = some x.1.gap

instance (win : List Record) : Decidable (Settled win) :=
  inferInstanceAs (Decidable (∀ x ∈ win.zipIdx, _ = _))

theorem flushKey_eq_iff {r : Record} {k : ℤ ×ₗ ℕ} : r.flushKey = k ↔
    r.messageId = (ofLex k).1 ∧ (if r.level = .atLeastOnce then 0 else 1) = (ofLex k).2 :=
  Prod.ext_iff

/-- Pairs of one key are taken from the two lists as they are from the window. -/
theorem filter_levels_filter (win : List Record) (k : ℤ ×ₗ ℕ) :
    ((win.filter fun r => r.level = .atLeastOnce) ++
      win.filter fun r => r.level = .atMostOnce).filter (fun r => r.flushKey = k) =
      win.filter fun r => r.flushKey = k := by
  have hlevel : ∀ r : Record, r.flushKey = k →
      (r.level = .atLeastOnce ↔ (ofLex k).2 = 0) := fun r hr => by
    have h := (flushKey_eq_iff.1 hr).2
    split_ifs at h with hl <;> simp [hl, ← h]
  rw [List.filter_append, List.filter_filter, List.filter_filter]
  -- one of the two lists has no pair with this key
  by_cases h0 : (ofLex k).2 = 0
  · have hnil : win.filter (fun r => decide (r.flushKey = k) && decide (r.level = .atMostOnce)) =
        [] := by
      refine List.filter_eq_nil_iff.2 fun r _ hr => ?_
      simp only [Bool.and_eq_true, decide_eq_true_eq] at hr
      exact absurd ((hlevel r hr.1).2 h0) (by simp [hr.2])
    rw [hnil, List.append_nil]
    refine List.filter_congr fun r _ => ?_
    by_cases hr : r.flushKey = k
    · simp [hr, (hlevel r hr).2 h0]
    · simp [hr]
  · have hnil : win.filter (fun r => decide (r.flushKey = k) && decide (r.level = .atLeastOnce)) =
        [] := by
      refine List.filter_eq_nil_iff.2 fun r _ hr => ?_
      simp only [Bool.and_eq_true, decide_eq_true_eq] at hr
      exact h0 ((hlevel r hr.1).1 hr.2)
    rw [hnil, List.nil_append]
    refine List.filter_congr fun r _ => ?_
    by_cases hr : r.flushKey = k
    · have hne : r.level ≠ .atLeastOnce := fun h => h0 ((hlevel r hr).1 h)
      have hamo : r.level = .atMostOnce := by
        cases hl : r.level with
        | atMostOnce => rfl
        | atLeastOnce => exact absurd hl hne
      simp [hr, hamo]
    · simp [hr]

/-- In the two lists one after the other, the levels are in order. -/
theorem pairwise_levels (win : List Record) :
    ((win.filter fun r => r.level = .atLeastOnce) ++
      win.filter fun r => r.level = .atMostOnce).Pairwise fun r r' =>
        r.level = .atLeastOnce ∨ r'.level = .atMostOnce := by
  refine List.pairwise_append.2 ⟨?_, ?_, fun r hr _ _ => ?_⟩
  · refine List.pairwise_of_forall_mem_list fun r hr _ _ => ?_
    exact Or.inl (of_decide_eq_true (List.mem_filter.1 hr).2)
  · refine List.pairwise_of_forall_mem_list fun _ _ r hr => ?_
    exact Or.inr (of_decide_eq_true (List.mem_filter.1 hr).2)
  · exact Or.inl (of_decide_eq_true (List.mem_filter.1 hr).2)

/-- **The order of a flush**: the rows come from the pairs in the window in the order of their
keys, and of their arrival under one key. -/
theorem origins_eq (win : List Record) :
    origins win = win.insertionSort fun r r' => r.flushKey ≤ r'.flushKey := by
  refine StableSort.eq_of_pairwise_of_filter ?_ (StableSort.pairwise_insertionSort _ win)
    fun k => ?_
  · -- the sort is by the id only, but it keeps the levels of one id in order
    have hid : (origins win).Pairwise fun r r' => r.messageId ≤ r'.messageId :=
      StableSort.pairwise_insertionSort Record.messageId _
    refine List.pairwise_iff_forall_sublist.2 fun {r r'} hs => ?_
    have hle : r.messageId ≤ r'.messageId := List.pairwise_iff_forall_sublist.1 hid hs
    rcases hle.lt_or_eq with hlt | heq
    · exact Prod.Lex.le_iff.2 (Or.inl hlt)
    · have hsub := hs.filter fun x => x.messageId = r'.messageId
      rw [origins, sortedBy, StableSort.filter_insertionSort Record.messageId] at hsub
      simp only [heq, decide_true, List.filter_cons_of_pos, List.filter_nil] at hsub
      have hlev := List.pairwise_iff_forall_sublist.1 (pairwise_levels win)
        (hsub.trans List.filter_sublist)
      refine Prod.Lex.le_iff.2 (Or.inr ⟨heq, ?_⟩)
      simp only [Record.flushKey, ofLex_toLex]
      rcases hlev with h | h
      · simp [h]
      · simp only [h, reduceCtorEq, ↓reduceIte]
        split_ifs <;> omega
  · -- pairs of one key have one id, and the sort keeps the order of these
    have hk : (fun r : Record => decide (r.flushKey = k)) = fun r =>
        decide (r.flushKey = k) && decide (r.messageId = (ofLex k).1) := by
      funext r
      by_cases hr : r.flushKey = k
      · simp [hr, (flushKey_eq_iff.1 hr).1]
      · simp [hr]
    rw [StableSort.filter_insertionSort]
    refine Eq.trans ?_ (filter_levels_filter win k)
    rw [hk, ← List.filter_filter, ← List.filter_filter, origins, sortedBy,
      StableSort.filter_insertionSort Record.messageId]

theorem origins_eq_of_inOrder {win : List Record} (h : InOrder win) : origins win = win := by
  rw [origins_eq]
  exact List.Pairwise.insertionSort_eq h

theorem settled_iff {win : List Record} :
    Settled win ↔ (origins win).map Record.gap = win.map Record.gap := by
  rw [origins_eq]
  exact (StableSort.map_insertionSort_eq_iff Record.flushKey Record.gap win).symm

theorem settled_of_inOrder {win : List Record} (h : InOrder win) : Settled win := by
  rw [settled_iff, origins_eq_of_inOrder h]

/-! ### The column of the gaps -/

theorem commitAt_snoc {es pre : List Event} {e : Event} {vs : List Time} :
    CommitAt (es ++ [e]) pre vs ↔ CommitAt es pre vs ∨ pre = es ∧ e = .committed vs := by
  constructor
  · intro h
    rcases commitAt_append h with h | ⟨pre', rfl, post, he⟩
    · exact Or.inl h
    · cases pre' with
      | nil => exact Or.inr ⟨List.append_nil es, (List.cons.inj he).1⟩
      | cons e' pre' => simp at he
  · rintro (h | ⟨rfl, rfl⟩)
    · exact h.append [e]
    · exact ⟨[], rfl⟩

theorem window_suffix (es : List Event) : window es <:+ appended es :=
  (sinceCommit_suffix es).filterMap _

/-- A commit that writes the gaps that wait for it continues the column exactly if it writes them
in the order of their arrival. -/
theorem append_commit_iff {cs vs ws as : List Int64} (hlen : vs.length = ws.length)
    (hsuf : ws <:+ as) : cs ++ vs = as ↔ cs ++ ws = as ∧ vs = ws := by
  constructor
  · intro h
    obtain ⟨xs, rfl⟩ := hsuf
    obtain rfl : vs = ws := List.append_inj_right' h hlen
    exact ⟨h, rfl⟩
  · rintro ⟨h, rfl⟩
    exact h

/-- The gaps in the rows, then those waiting, are those recorded exactly if every commit has
written its gaps in the order of their arrival. -/
theorem column_iff {es : List Event}
    (hc : ∀ pre vs, CommitAt es pre vs →
      vs.map Time.time = (origins (window pre)).map Record.gap) :
    (committedRows es).map Time.time ++ (window es).map Record.gap =
        (appended es).map Record.gap ↔
      ∀ pre vs, CommitAt es pre vs → Settled (window pre) := by
  induction es using List.reverseRecOn with
  | nil =>
    refine iff_of_true rfl fun pre vs h => ?_
    obtain ⟨post, he⟩ := h
    simp at he
  | append_singleton es e ih =>
    have ih' := ih fun pre vs h => hc pre vs (h.append [e])
    cases hcommit : e.isCommit with
    | false =>
      have hw : window (es ++ [e]) = window es ++ appended [e] := window_append (by simpa)
      have hr : committedRows [e] = [] := by cases e <;> first | rfl | cases hcommit
      have hat : ∀ pre vs, CommitAt (es ++ [e]) pre vs ↔ CommitAt es pre vs := fun pre vs => by
        rw [commitAt_snoc, or_iff_left]
        rintro ⟨-, rfl⟩
        cases hcommit
      simp only [hat]
      rw [← ih', committedRows_append, appended_append, hw, hr, List.append_nil, List.map_append,
        List.map_append, ← List.append_assoc, List.append_left_inj]
    | true =>
      obtain ⟨vs, rfl⟩ : ∃ vs, e = .committed vs := by
        cases e <;> first | exact ⟨_, rfl⟩ | cases hcommit
      have hvs := hc es vs ⟨[], rfl⟩
      have hlen : (vs.map Time.time).length = ((window es).map Record.gap).length := by
        rw [hvs, List.length_map, List.length_map, (origins_perm _).length_eq]
      have hw : window (es ++ [.committed vs]) = [] := by
        rw [window, sinceCommit_committed]
        rfl
      have ha : appended (es ++ [.committed vs]) = appended es := by
        rw [appended_append]
        exact List.append_nil _
      have hat : (∀ pre vs', CommitAt (es ++ [.committed vs]) pre vs' → Settled (window pre)) ↔
          (∀ pre vs', CommitAt es pre vs' → Settled (window pre)) ∧ Settled (window es) := by
        simp only [commitAt_snoc]
        constructor
        · exact fun h => ⟨fun pre vs' hp => h pre vs' (Or.inl hp),
            h es vs (Or.inr ⟨rfl, rfl⟩)⟩
        · rintro ⟨h, h'⟩ pre vs' (hp | ⟨rfl, -⟩)
          · exact h pre vs' hp
          · exact h'
      rw [hat, hw, ha, committedRows_append, committedRows_committed, List.map_append,
        List.map_nil, List.append_nil, append_commit_iff hlen ((window_suffix es).map _), ih',
        settled_iff, hvs]

/-- **When the table keeps the order of arrival.**  In every run, the column of the gaps, in the
order of the ids, and then the gaps that wait for a flush are the gaps recorded, in the order of
their arrival, exactly if at every commit each pair has the gap of the one whose position it gets;
they are if the pairs of every commit arrived in the order of their packet ids, those of QoS 1
before those of QoS 0 under one id. -/
theorem times_in_order_iff {keepsGoing : Bool} {ls : List Label} {w : World}
    (h : (server keepsGoing).run ls = some w) :
    (w.db.times.vals.map Time.time ++ (window (server.events keepsGoing ls)).map Record.gap =
        (appended (server.events keepsGoing ls)).map Record.gap ↔
      ∀ pre vs, CommitAt (server.events keepsGoing ls) pre vs → Settled (window pre)) ∧
    ∀ pre vs, CommitAt (server.events keepsGoing ls) pre vs → InOrder (window pre) →
      Settled (window pre) := by
  refine ⟨?_, fun pre vs _ hin => settled_of_inOrder hin⟩
  rw [(Stores.of_run h).times]
  refine column_iff fun pre vs hc => ?_
  obtain ⟨map, hw⟩ := rows_of_commit h hc
  exact hw.times

/-! ### One client -/

/-- The packet ids of the QoS 1 packets, in order. -/
def packetIds (ls : List Label) : List ℤ := ls.filterMap fun
  | .acknowledge _ messageId => some messageId
  | _ => none

/-- One client connects; it numbers its QoS 1 packets from 1 to 65535 and again from 1, its QoS 0
packets all have the id `c`, and the database is available. -/
structure SingleClient (c : ℤ) (ls : List Label) : Prop where
  connects : (attempts ls).length = 1
  packetIds : packetIds ls = (List.range (packetIds ls).length).map fun n => ↑(n % 65535 + 1)
  constant : ∀ i messageId curr, .atMostOnce i messageId curr ∈ ls → messageId = c
  available : ∀ faults, .tick faults ∈ ls → faults.fatal = none

/-- A QoS 1 packet, then one of QoS 0, and a tick. -/
def mixedRun : List Label :=
  [.connect ⟨"10.0.0.2", "a", .nothing⟩, .acknowledge 0 1, .increment 0, .atLeastOnce 0 1000,
    .acknowledge 0 2, .increment 0, .atLeastOnce 0 3000, .atMostOnce 0 0 8000, .tick .nothing]

theorem singleClient_mixedRun : SingleClient 0 mixedRun where
  connects := rfl
  packetIds := by decide
  constant i m curr h := by simp [mixedRun] at h; exact h.2.1
  available faults h := by simp [mixedRun] at h; rw [h]; rfl

theorem times_in_order_iff_mixed : ∃ w, (server false).run mixedRun = some w ∧
    (w.db.times.vals.map Time.time ++ (window (server.events false mixedRun)).map Record.gap =
        (appended (server.events false mixedRun)).map Record.gap ↔
      ∀ pre vs, CommitAt (server.events false mixedRun) pre vs → Settled (window pre)) :=
  ⟨_, rfl, (@times_in_order_iff false mixedRun _ rfl).1⟩

theorem times_out_of_order : ¬ ∀ c ls w, (server false).run ls = some w → SingleClient c ls →
    w.db.times.vals.map Time.time ++ (window (server.events false ls)).map Record.gap =
      (appended (server.events false ls)).map Record.gap := by
  intro h
  have hcol := h 0 mixedRun _ rfl singleClient_mixedRun
  revert hcol
  decide

end MqttServerTest
