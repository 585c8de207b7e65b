import MqttServerTest.Data.Consecutive
import MqttServerTest.Server.History

/-!
# Which gaps are recorded

The publish handler of a connection keeps the clock reading of the last packet in `prev`, where `0`
stands for no packet.  The clock may start anywhere and wraps; the differences it records are
nevertheless the true ones (`toInt_sub_ofInt`).  But a reading may be `0` itself, and then the gap
after it is not recorded (`gaps_recorded_iff`).
-/

namespace MqttServerTest

/-- A QoS 0 or QoS 1 packet that a publish handler completes. -/
structure Arrival where
  level : Level
  messageId : ℤ
  /-- What `System.nanoTime` has returned. -/
  reading : Int64
  deriving DecidableEq

/-- The packet of connection `i` that the step `l` completes, if any. -/
def arrival (i : ℕ) (w : World) : Label → List Arrival
  | .atMostOnce j messageId curr => if j = i then [⟨.atMostOnce, messageId, curr⟩] else []
  | .atLeastOnce j curr =>
    match w.endpoints[j]? with
    | some ⟨_, _, .counted messageId⟩ =>
      if j = i then [⟨.atLeastOnce, messageId, curr⟩] else []
    | _ => []
  | _ => []

/-- The QoS 0 and QoS 1 packets of connection `i`, in order. -/
def arrivals (keepsGoing : Bool) (i : ℕ) (ls : List Label) : List Arrival :=
  (server keepsGoing).outputs (arrival i) ls

/-- The pairs that the publish handler of connection `i` has appended, in order. -/
def recordedBy (i : ℕ) (es : List Event) : List Record :=
  (appended es).filter fun r => r.endpoint = i

/-- What the publish handler keeps of its packets: the last reading. -/
def lastReading (as : List Arrival) : Int64 := (as.getLast?.map Arrival.reading).getD 0

/-- The pair for a packet and the one before it, as the code computes it. -/
def gap? (p : Arrival × Arrival) : Option (Level × ℤ × Int64) :=
  if IsGap p.1.reading p.2.reading then
    some (p.2.level, p.2.messageId, p.2.reading - p.1.reading)
  else none

/-! ### What a connection has recorded -/

variable {keepsGoing : Bool} {i : ℕ}

theorem recordedBy_append (es new : List Event) :
    recordedBy i (es ++ new) = recordedBy i es ++ recordedBy i new := by
  rw [recordedBy, appended_append, List.filter_append]
  rfl

theorem lastReading_snoc (as : List Arrival) (a : Arrival) :
    lastReading (as ++ [a]) = a.reading := by
  simp [lastReading]

/-- The level, the message id and the gap of a pair. -/
def Record.content (r : Record) : Level × ℤ × Int64 := (r.level, r.messageId, r.gap)

/-- One packet more adds the pair of this packet and the last one before it. -/
theorem gaps_snoc (as : List Arrival) (a : Arrival) :
    (consecutive (as ++ [a])).filterMap gap? = (consecutive as).filterMap gap? ++
      if IsGap (lastReading as) a.reading then
        [(a.level, a.messageId, a.reading - lastReading as)]
      else [] := by
  rw [consecutive_snoc, List.filterMap_append, List.append_cancel_left_eq]
  cases hlast : as.getLast? with
  | none =>
    have h0 : lastReading as = 0 := by simp [lastReading, hlast]
    have hno : ¬ IsGap (lastReading as) a.reading := fun h => h.1 h0
    rw [if_neg hno]
    rfl
  | some x =>
    have hx : lastReading as = x.reading := by simp [lastReading, hlast]
    rw [hx, Option.map_some, Option.toList_some]
    by_cases hg : IsGap x.reading a.reading
    · simp [gap?, hg]
    · simp [gap?, hg]

/-- What connection `i` remembers of its packets `as`, and what it has recorded of them. -/
structure Remembers (i : ℕ) (w : World) (es : List Event) (as : List Arrival) : Prop where
  prev : ∀ e, w.endpoints[i]? = some e → e.prev = lastReading as
  fresh : w.endpoints.length ≤ i → as = []
  recorded : (recordedBy i es).map Record.content = (consecutive as).filterMap gap?

namespace Remembers

variable {w w' : World} {es new : List Event} {as : List Arrival}

theorem start : Remembers i World.start [] [] where
  prev e he := by simp [World.start] at he
  fresh _ := rfl
  recorded := rfl

/-- A step that handles no packet of this connection. -/
theorem keep (h : Remembers i w es as)
    (he : ∀ e', w'.endpoints[i]? = some e' → (∃ e, w.endpoints[i]? = some e ∧ e'.prev = e.prev) ∨
      w.endpoints.length ≤ i ∧ e'.prev = 0)
    (hlen : w.endpoints.length ≤ w'.endpoints.length) (hr : recordedBy i new = []) :
    Remembers i w' (es ++ new) as where
  prev e' he' := by
    rcases he e' he' with ⟨e, hi, hp⟩ | ⟨hi, hp⟩
    · rw [hp, h.prev e hi]
    · rw [hp, h.fresh hi]
      rfl
  fresh hi := h.fresh (hlen.trans hi)
  recorded := by rw [recordedBy_append, hr, List.append_nil, h.recorded]

/-- A step that completes no packet. -/
theorem noArrival {as' : List Arrival} (h : Remembers i w es as) (ha : as' = []) :
    Remembers i w es (as ++ as') := by
  rw [ha, List.append_nil]
  exact h

/-- A step that leaves the connections as they are. -/
theorem same (h : Remembers i w es as) (he : w'.endpoints = w.endpoints)
    (hr : recordedBy i new = []) : Remembers i w' (es ++ new) as := by
  refine h.keep (fun e' he' => Or.inl ⟨e', he ▸ he', rfl⟩) ?_ hr
  rw [he]

/-- A connection moves on in its publish handler, or another one handles a packet. -/
theorem set (h : Remembers i w es as) {j : ℕ} {e e' : Endpoint} (hj : w.endpoints[j]? = some e)
    (hw : w'.endpoints = w.endpoints.set j e') (hp : j = i → e'.prev = e.prev)
    (hr : recordedBy i new = []) : Remembers i w' (es ++ new) as := by
  refine h.keep (fun x hx => Or.inl ?_) (by rw [hw, List.length_set]) hr
  rw [hw, List.getElem?_set] at hx
  split_ifs at hx with hij hlen
  · subst hij
    exact ⟨e, hj, by rw [← Option.some.inj hx, hp rfl]⟩
  · exact ⟨x, hx, rfl⟩

theorem connect (h : Remembers i w es as) (a : Devices.Attempt) :
    Remembers i (w.connect a) (es ++ []) as := by
  rcases w.connect_endpoints a with hw | ⟨devId, hw⟩
  · exact h.same hw rfl
  · refine h.keep (fun e' he' => ?_) (by rw [hw]; simp) rfl
    rw [hw] at he'
    by_cases hi : i < w.endpoints.length
    · rw [List.getElem?_append_left hi] at he'
      exact Or.inl ⟨e', he', rfl⟩
    · -- a new connection has no packet yet
      rw [List.getElem?_append_right (by omega)] at he'
      rw [List.mem_singleton.1 (List.mem_of_getElem? he')]
      exact Or.inr ⟨by omega, rfl⟩

/-- The connection handles a packet. -/
theorem handle (h : Remembers i w es as) {e : Endpoint} (he : w.endpoints[i]? = some e)
    (a : Arrival) :
    Remembers i (w.handle i e a.level a.messageId a.reading).1
      (es ++ (w.handle i e a.level a.messageId a.reading).2) (as ++ [a]) where
  prev e' he' := by
    rw [lastReading_snoc]
    simp only [World.handle, List.getElem?_set, ↓reduceIte] at he'
    split_ifs at he'
    rw [← Option.some.inj he']
  fresh hi := by
    have hlt := (List.getElem?_eq_some_iff.1 he).1
    simp only [World.handle, List.length_set] at hi
    omega
  recorded := by
    rw [gaps_snoc, recordedBy_append, List.map_append, h.recorded, ← h.prev e he]
    simp only [World.handle]
    split_ifs <;> simp [recordedBy, appended, Event.record?, Record.content]

theorem step {l : Label} (h : Remembers i w es as) (hst : Step keepsGoing w l w' new) :
    Remembers i w' (es ++ new) (as ++ arrival i w l) := by
  cases hst with
  | connect a => exact noArrival (h.connect a) rfl
  | handle j e level m curr he hl =>
    have ha : arrival i w l = if j = i then [⟨level, m, curr⟩] else [] := by
      rcases hl with ⟨rfl, rfl, -⟩ | ⟨rfl, rfl, hpc⟩
      · rfl
      · obtain ⟨devId, prev, pc⟩ := e
        cases hpc
        simp only [arrival, he]
    rw [ha]
    split_ifs with hij
    · subst hij
      exact h.handle he ⟨level, m, curr⟩
    · refine noArrival (h.set he rfl (fun hji => absurd hji hij) ?_) rfl
      simp only [World.handle]
      split_ifs <;> simp [recordedBy, appended, Event.record?, hij]
  | acknowledge m he _ => exact noArrival (h.set he rfl (fun _ => rfl) rfl) rfl
  | increment he _ => exact noArrival (h.set he rfl (fun _ => rfl) rfl) rfl
  | exactlyOnce => exact noArrival (h.same rfl rfl) rfl
  | tickNothing => exact noArrival (h.same rfl rfl) rfl
  | tickNoGaps => exact noArrival (h.same rfl rfl) rfl
  | tickFails => exact noArrival (h.same rfl rfl) rfl
  | tickCommits => exact noArrival (h.same rfl rfl) rfl
  | cancel => exact noArrival (h.same rfl rfl) rfl

/-- **What a connection has recorded**, after any run: a gap for every two packets in a row for
which the code sees one. -/
theorem of_run {ls : List Label} (h : (server keepsGoing).run ls = some w) :
    Remembers i w (server.events keepsGoing ls) (arrivals keepsGoing i ls) := by
  refine Machine.run_induction (M := server keepsGoing) (P := fun ls w =>
    Remembers i w (server.events keepsGoing ls) (arrivals keepsGoing i ls)) start ?_ h
  intro ls w l w' hls ih hst
  obtain ⟨new, hnew⟩ := Machine.ofExec_step.1 hst
  have hes : server.events keepsGoing (ls ++ [l]) = server.events keepsGoing ls ++ new :=
    Machine.emitted_snoc hls hnew
  rw [hes, arrivals, Machine.outputs_snoc _ hls hst]
  exact ih.step (step_of_exec hnew)

end Remembers

/-! ### True times -/

/-- `xs` are the packets `as` with the true times of their readings.  The clock has any origin and
wraps; less than `2 ^ 63` nanoseconds pass between two packets. -/
structure Clocked (as : List Arrival) (xs : List (Arrival × ℤ)) : Prop where
  arrivals : xs.map Prod.fst = as
  readings : ∀ x ∈ xs, x.1.reading = Int64.ofInt x.2
  forward : ∀ p ∈ consecutive xs, 0 ≤ p.2.2 - p.1.2 ∧ p.2.2 - p.1.2 < 2 ^ 63

/-- The level, the message id and the true gap of the second of two packets, if the gap is
short. -/
def shortGap? (p : (Arrival × ℤ) × Arrival × ℤ) : Option (Level × ℤ × ℤ) :=
  if p.2.2 - p.1.2 < 700000000 then some (p.2.1.level, p.2.1.messageId, p.2.2 - p.1.2) else none

/-- The level, the message id and the gap of a pair, as a number. -/
def Record.gapContent (r : Record) : Level × ℤ × ℤ := (r.level, r.messageId, r.gap.toInt)

/-- The difference of two readings is the true difference, wherever the clock wraps. -/
theorem toInt_sub_ofInt {t t' : ℤ} (h : 0 ≤ t' - t) (h' : t' - t < 2 ^ 63) :
    (Int64.ofInt t' - Int64.ofInt t).toInt = t' - t := by
  rw [← Int64.ofInt_sub]
  exact Int64.toInt_ofInt_of_le (by omega) h'

section Clocked

variable {as : List Arrival} {xs : List (Arrival × ℤ)}

theorem mem_of_mem_consecutive {p : (Arrival × ℤ) × Arrival × ℤ} (hp : p ∈ consecutive xs) :
    p.1 ∈ xs ∧ p.2 ∈ xs := by
  obtain ⟨h₁, h₂⟩ := List.of_mem_zip hp
  exact ⟨h₁, List.mem_of_mem_tail h₂⟩

theorem Clocked.toInt_sub (h : Clocked as xs) {p : (Arrival × ℤ) × Arrival × ℤ}
    (hp : p ∈ consecutive xs) :
    (p.2.1.reading - p.1.1.reading).toInt = p.2.2 - p.1.2 := by
  obtain ⟨h₁, h₂⟩ := mem_of_mem_consecutive hp
  obtain ⟨h0, hlt⟩ := h.forward p hp
  rw [h.readings _ h₁, h.readings _ h₂]
  exact toInt_sub_ofInt h0 hlt

/-- The code sees a gap if the true one is short and the reading before it is not `0`. -/
theorem Clocked.isGap_iff (h : Clocked as xs) {p : (Arrival × ℤ) × Arrival × ℤ}
    (hp : p ∈ consecutive xs) : IsGap p.1.1.reading p.2.1.reading ↔
      p.1.1.reading ≠ 0 ∧ p.2.2 - p.1.2 < 700000000 := by
  have hc : (700000000 : Int64).toInt = 700000000 := by decide
  rw [IsGap, Int64.lt_iff_toInt_lt, h.toInt_sub hp, hc]

/-- The gaps that the code computes, as numbers. -/
theorem Clocked.gaps (h : Clocked as xs) :
    ((consecutive as).filterMap gap?).map (fun c => (c.1, c.2.1, c.2.2.toInt)) =
      (consecutive xs).filterMap fun p =>
        if p.1.1.reading = 0 then none else shortGap? p := by
  rw [← h.arrivals, consecutive_map, List.filterMap_map, List.map_filterMap]
  refine List.filterMap_congr fun p hp => ?_
  have hg := h.isGap_iff hp
  have hd := h.toInt_sub hp
  simp only [Function.comp_apply, Prod.map, gap?, shortGap?]
  by_cases h0 : p.1.1.reading = 0
  · have hno : ¬ IsGap p.1.1.reading p.2.1.reading := fun hh => (hg.1 hh).1 h0
    rw [if_neg hno, if_pos h0]
    rfl
  · rw [if_neg h0]
    by_cases hlt : p.2.2 - p.1.2 < 700000000
    · rw [if_pos (hg.2 ⟨h0, hlt⟩), if_pos hlt, Option.map_some, hd]
    · rw [if_neg fun hh => hlt (hg.1 hh).2, if_neg hlt]
      rfl

end Clocked

/-- **Which gaps are recorded.**  In every run, whatever the origin of the clock, the pairs that
the publish handler of a connection has appended are one for every two of its QoS 0 or QoS 1
packets in a row that arrived less than 700 ms apart, with the level and the message id of the
second and the true difference, exactly if no reading followed by such a gap is `0`; and the lists
hold the pairs of their level that were appended since the last commit. -/
theorem gaps_recorded_iff {ls : List Label} {w : World} (h : (server keepsGoing).run ls = some w)
    (i : ℕ) {xs : List (Arrival × ℤ)} (hx : Clocked (arrivals keepsGoing i ls) xs) :
    ((recordedBy i (server.events keepsGoing ls)).map Record.gapContent =
        (consecutive xs).filterMap shortGap? ↔
      ∀ p ∈ consecutive xs, p.1.1.reading = 0 → 700000000 ≤ p.2.2 - p.1.2) ∧
    ∀ level, w.buffers.packets level =
      ((window (server.events keepsGoing ls)).filter fun r => r.level = level).map Record.pair := by
  refine ⟨?_, (Tracks.of_run h).packets⟩
  have hrec := congrArg (List.map fun c => (c.1, c.2.1, c.2.2.toInt))
    (@Remembers.of_run keepsGoing i w ls h).recorded
  rw [hx.gaps, List.map_map] at hrec
  rw [show Record.gapContent = (fun c => (c.1, c.2.1, c.2.2.toInt)) ∘ Record.content from rfl,
    hrec, filterMap_eq_filterMap_iff fun p _ b hb => ?_]
  · refine forall₂_congr fun p _ => ?_
    by_cases h0 : p.1.1.reading = 0
    · simp [h0, shortGap?]
    · simp [h0]
  · split_ifs at hb
    exact hb

/-- Two packets 2000 ns apart; the clock wraps between them. -/
def wrapRun : List Label :=
  [.connect ⟨"10.0.0.2", "a", .nothing⟩,
    .atMostOnce 0 0 9223372036854775000, .atMostOnce 0 0 (-9223372036854774616)]

theorem gaps_recorded_iff_wrap : ∃ w, (server false).run wrapRun = some w ∧
    ((recordedBy 0 (server.events false wrapRun)).map Record.gapContent =
        [(.atMostOnce, 0, 2000)] ↔ ∀ p ∈ consecutive [((⟨.atMostOnce, 0, 9223372036854775000⟩ :
          Arrival), (9223372036854775000 : ℤ)),
        (⟨.atMostOnce, 0, -9223372036854774616⟩, 9223372036854777000)],
      p.1.1.reading = 0 → 700000000 ≤ p.2.2 - p.1.2) :=
  ⟨_, rfl, (@gaps_recorded_iff false wrapRun _ rfl 0
    [(⟨.atMostOnce, 0, 9223372036854775000⟩, 9223372036854775000),
      (⟨.atMostOnce, 0, -9223372036854774616⟩, 9223372036854777000)]
    ⟨rfl, by decide, by decide⟩).1⟩

/-- Two packets 5 ns apart; the clock reads `0` at the first. -/
def zeroRun : List Label :=
  [.connect ⟨"10.0.0.2", "a", .nothing⟩, .atMostOnce 0 0 0, .atMostOnce 0 0 5]

theorem gap_not_recorded : ¬ ∀ ls w, (server false).run ls = some w → ∀ i xs,
    Clocked (arrivals false i ls) xs →
    (recordedBy i (server.events false ls)).map Record.gapContent =
      (consecutive xs).filterMap shortGap? := by
  intro h
  have hgap := h zeroRun _ rfl 0
    [(⟨.atMostOnce, 0, 0⟩, 0), (⟨.atMostOnce, 0, 5⟩, 5)] ⟨rfl, by decide, by decide⟩
  revert hgap
  decide

end MqttServerTest
