import MqttServerTest.Dashboard.Page
import MqttServerTest.Server.Pubacks

/-!
# What the loss chart shows

The chart of `index.php` adds a point `QOS1Packets - packetsSent` whenever an answer of `api.php`
arrives.  The handler of a QoS 1 packet counts its PUBACK before it measures the gap, and a tick
commits both counts together, so a packet that is lost on its way can not make the difference
positive; an increment of `pubackSent` that the server loses, or misses when the counter wraps, can.

* `losses_le` : in every run of the server and the page without resets, no point is above the number
  of increments that the server has lost or missed.
-/

namespace MqttServerTest

/-! ### Counted and measured packets -/

/-- The PUBACK of a packet is counted, and its gap is not yet measured. -/
def HandlerPc.isCounted : HandlerPc → Bool
  | .counted _ => true
  | _ => false

/-- The number of packets that are counted and wait for the lock. -/
def World.counted (w : World) : ℕ := w.endpoints.countP fun e => e.pc.isCounted

/-- The gaps of QoS 1 packets that are committed and still in their list. -/
def TimerPc.justWritten : TimerPc → ℕ
  | .committed a => a.qos1Packets
  | _ => 0

/-- A tick has read `pubackSent`, and has not yet set it to zero. -/
def TimerPc.hasRead : TimerPc → Bool
  | .prepared _ _ | .updated _ _ _ | .committed _ | .cleared _ => true
  | _ => false

theorem TimerPc.of_inAttempt {pc : TimerPc} (h : pc.inAttempt = true) : pc.justWritten = 0 := by
  cases pc <;> first | rfl | cases h

/-- A packet adds at most one gap, to the list of its level. -/
theorem Buffers.length_packetsALO_record_le (b : Buffers) (level : Level) (devId : ℕ)
    (prev curr : Int64) (messageId : ℤ) :
    (b.record level devId prev curr messageId).packetsALO.length ≤
      b.packetsALO.length + if level = .atLeastOnce then 1 else 0 := by
  simp only [Buffers.record]
  split_ifs with hgap hlevel
  · subst hlevel
    exact (List.length_append ..).le
  · cases level with
    | atMostOnce => exact Nat.le_refl _
    | atLeastOnce => exact absurd rfl hlevel
  · exact Nat.le_add_right _ _
  · exact Nat.le_refl _

variable {keepsGoing : Bool}

section Handlers

variable {w w' : World} {l : Label} {es : List Event} {pc : TimerPc}

/-- The QoS 1 packets that have been acknowledged, and have a gap or are on their way to one. -/
def World.underway (w : World) : ℕ := w.buffers.packetsALO.length + w.counted + w.pending

/-- Only an acknowledgement puts a packet on its way. -/
theorem Step.underway_le (hst : Step keepsGoing w l w' es) (ha : pc.admits l = true) :
    w'.underway ≤ w.underway + if l.isAcknowledge then 1 else 0 := by
  cases hst with
  | connect a =>
    have hcounts : (w.connect a).counted = w.counted ∧ (w.connect a).pending = w.pending := by
      rcases w.connect_endpoints a with hw | ⟨devId, hw⟩
      · simp only [World.counted, World.pending, hw, and_self]
      · simp only [World.counted, World.pending, hw, List.countP_append]
        exact ⟨rfl, rfl⟩
    simp only [World.underway, hcounts, World.connect_buffers]
    exact Nat.le_add_right _ _
  | handle i e level m curr he hl =>
    have hcounted := countP_set_add HandlerPc.isCounted he ⟨e.devId, curr, .idle⟩
    have hpending := countP_set_add HandlerPc.isPending he ⟨e.devId, curr, .idle⟩
    have hlist := w.buffers.length_packetsALO_record_le level e.devId e.prev curr m
    have hpends : e.pc.isPending = false := by
      rcases hl with ⟨-, -, hpc⟩ | ⟨-, -, hpc⟩ <;> rw [hpc] <;> rfl
    have hcounts : e.pc.isCounted = decide (level = .atLeastOnce) := by
      rcases hl with ⟨-, rfl, hpc⟩ | ⟨-, rfl, hpc⟩ <;> rw [hpc] <;> rfl
    rw [hpends] at hpending
    simp only [hcounts, decide_eq_true_eq] at hcounted
    have hpend : (w.handle i e level m curr).1.pending = w.pending := hpending
    have hcount : (w.handle i e level m curr).1.counted +
        (if level = .atLeastOnce then 1 else 0) = w.counted := hcounted
    have hALO : (w.handle i e level m curr).1.buffers.packetsALO.length ≤
        w.buffers.packetsALO.length + if level = .atLeastOnce then 1 else 0 := hlist
    simp only [World.underway]
    omega
  | @acknowledge i e m he hpc =>
    have hcounted := countP_set_add HandlerPc.isCounted he { e with pc := .acknowledged m }
    have hpending := countP_set_add HandlerPc.isPending he { e with pc := .acknowledged m }
    rw [hpc] at hcounted hpending
    have hcount : (w.moveTo i e (.acknowledged m)).counted = w.counted := hcounted
    have hpend : (w.moveTo i e (.acknowledged m)).pending = w.pending + 1 := hpending
    have hALO : (w.moveTo i e (.acknowledged m)).buffers = w.buffers := rfl
    rw [World.underway, hcount, hpend, hALO]
    exact Nat.le_refl _
  | @increment i e m he hpc =>
    have hcounted := countP_set_add HandlerPc.isCounted he { e with pc := .counted m }
    have hpending := countP_set_add HandlerPc.isPending he { e with pc := .counted m }
    rw [hpc] at hcounted hpending
    have hcount : (w.moveTo i e (.counted m)).counted = w.counted + 1 := hcounted
    have hpend : (w.moveTo i e (.counted m)).pending + 1 = w.pending := hpending
    show w.buffers.packetsALO.length + (w.moveTo i e (.counted m)).counted +
      (w.moveTo i e (.counted m)).pending ≤ w.underway + 0
    rw [World.underway]
    omega
  | tickCommits => cases pc <;> cases ha
  | _ => exact Nat.le_add_right _ _

/-- While a tick holds the lock, who has counted a packet waits. -/
theorem Step.counted_of_admits (hst : Step keepsGoing w l w' es) (ha : pc.admits l = true)
    (hpc : pc ≠ .idle) : w'.counted = w.counted + if l.isIncrement then 1 else 0 := by
  cases hst with
  | connect a =>
    rcases w.connect_endpoints a with hw | ⟨devId, hw⟩
    · simp only [World.counted, hw]
      rfl
    · simp only [World.counted, hw, List.countP_append]
      rfl
  | handle i e level m curr he hl =>
    rcases hl with ⟨rfl, -⟩ | ⟨rfl, -⟩ <;> cases pc <;> first | exact absurd rfl hpc | cases ha
  | @acknowledge i e m he hpc =>
    have hcounted := countP_set_add HandlerPc.isCounted he { e with pc := .acknowledged m }
    rw [hpc] at hcounted
    exact hcounted
  | @increment i e m he hpc =>
    have hcounted := countP_set_add HandlerPc.isCounted he { e with pc := .counted m }
    rw [hpc] at hcounted
    exact hcounted
  | tickCommits => cases pc <;> cases ha
  | _ => rfl

end Handlers

/-! ### The row of the session -/

/-- What the total of the session is short of. -/
def Increments.missing (c : Increments) : ℤ := c.lost + c.wrapped

theorem Increments.missing_le_next (c : Increments) (l : Micro) :
    c.missing ≤ (c.next l).missing :=
  Int.add_le_add (Int.ofNat_le.2 (c.lost_le_next l)) (c.wrapped_le_next l)

/-- What the row `r` of the session holds of the QoS 1 packets that have been acknowledged. -/
structure Increments.Covers (c : Increments) (acks : ℕ) (s : Threads) (r : Session) : Prop where
  /-- A gap is that of an acknowledged packet. -/
  measured : r.qos1Packets + s.world.underway ≤ acks + s.pc.justWritten
  /-- The increments since the read are of packets that wait for the lock. -/
  waiting : s.pc.hasRead = true → c.sinceRead ≤ s.world.counted
  written : ∀ a, s.pc = .committed a → a.qos1Packets = s.world.buffers.packetsALO.length
  loss : r.qos1Packets ≤ r.packetsSent + c.missing

namespace Increments.Covers

variable {c c' : Increments} {acks : ℕ} {s s' : Threads} {l : Micro} {r : Session}
  {es : List Event}

theorem start : ∃ r, Threads.start.row = some r ∧
    (⟨0, 0, 0, 0, 0⟩ : Increments).Covers 0 Threads.start r :=
  ⟨⟨0, 0, 0⟩, by decide, Nat.le_refl _, nofun, nofun, Int.le_refl _⟩

/-- A statement of the timer thread that writes nothing, and after which nothing is read. -/
theorem keep (h : c.Covers acks s r) (hmissing : c.missing ≤ c'.missing)
    (hunderway : s'.world.underway = s.world.underway) (hpc : s.pc.justWritten = 0)
    (hread : s'.pc.hasRead = false) : c'.Covers acks s' r where
  measured := by
    have hmeasured := h.measured
    rw [hunderway]
    omega
  waiting hr := absurd (hr.symm.trans hread) Bool.noConfusion
  written a ha := by
    rw [ha] at hread
    cases hread
  loss := h.loss.trans (Int.add_le_add_left hmissing _)

/-- Another thread moves. -/
theorem other {w : World} {l : Label} (h : c.Covers acks s r) (ha : s.pc.admits l = true)
    (hst : Step keepsGoing s.world l w es) :
    (c.next (.other l)).Covers (acks + if l.isAcknowledge then 1 else 0) ⟨w, s.pc⟩ r where
  measured := by
    have hle := hst.underway_le ha
    have hmeasured := h.measured
    dsimp only
    omega
  waiting hread := by
    have hpc : s.pc ≠ .idle := fun hp => by
      dsimp only at hread
      rw [hp] at hread
      cases hread
    have hwaiting := h.waiting hread
    have hcounted := hst.counted_of_admits ha hpc
    simp only [Increments.next]
    split_ifs at hcounted ⊢
    · exact (Nat.succ_le_succ hwaiting).trans hcounted.ge
    · exact hwaiting.trans hcounted.ge
  written a hpc := by
    have hne : s.pc ≠ .idle := fun hp => by
      dsimp only at hpc
      rw [hp] at hpc
      cases hpc
    rw [h.written a hpc, (hst.lists_of_admits ha hne).2]
  loss := h.loss.trans (Int.add_le_add_left (c.missing_le_next _) _)

/-- **A commit moves the gaps and the PUBACKs together.** -/
theorem commit {db : Db} {vs : List Time} {a : Session} {row : Option Session}
    (h : c.Covers acks s r) (hr : s.row = some r) (hbal : c.Balances acks s)
    (hatt : c.Attempt s) (hheld : s.Held) (hpc : s.pc = .updated vs a row) :
    (c.next .commit).Covers acks
      ⟨{ s.world with db := db.writeSession s.world.sesId row }, .committed a⟩ (r.add a) := by
  obtain ⟨r', hr', htotal⟩ := hbal
  rw [hr, Option.some.injEq] at hr'
  subst hr'
  have hmeasured := h.measured
  have hwaiting := h.waiting (by rw [hpc]; rfl)
  simp only [Increments.Attempt, hpc] at hatt
  simp only [Threads.Held, hpc] at hheld
  rw [hpc] at hmeasured htotal
  have hjust : (TimerPc.updated vs a row).justWritten = 0 := rfl
  have hjust' : c.justCommitted (.updated vs a row) = 0 := rfl
  have hmissed : missed c.read = c.read - a.packetsSent := by rw [hatt.2]; rfl
  have hread : c.read = c.sinceZero - c.sinceRead := rfl
  have hunderway : s.world.underway =
      s.world.buffers.packetsALO.length + s.world.counted + s.world.pending := rfl
  refine ⟨?_, fun _ => hwaiting, ?_, ?_⟩
  · show r.qos1Packets + a.qos1Packets + s.world.underway ≤ acks + a.qos1Packets
    omega
  · rintro _ ⟨⟩
    exact hheld.2.2.1
  · show ((r.qos1Packets + a.qos1Packets : ℕ) : ℤ) ≤
      r.packetsSent + a.packetsSent + (c.lost + (c.wrapped + missed c.read))
    have hlen := hheld.2.2.1
    omega

/-- The lists are cleared after their gaps have been committed. -/
theorem clear {a : Session} (h : c.Covers acks s r) (hpc : s.pc = .committed a) :
    (c.next .clear).Covers acks
      ⟨{ s.world with buffers := s.world.buffers.clearLists }, .cleared a⟩ r := by
  have hmeasured := h.measured
  have hwritten := h.written a hpc
  have hunderway : s.world.underway =
      s.world.buffers.packetsALO.length + s.world.counted + s.world.pending := rfl
  rw [hpc] at hmeasured
  refine ⟨?_, fun _ => h.waiting (by rw [hpc]; rfl), nofun, h.loss⟩
  show r.qos1Packets + (0 + s.world.counted + s.world.pending) ≤ acks + 0
  have hjust : (TimerPc.committed a).justWritten = a.qos1Packets := rfl
  omega

theorem step (h : c.Covers acks s r) (hr : s.row = some r) (hbal : c.Balances acks s)
    (hatt : c.Attempt s) (hheld : s.Held) (hl : l ≠ .other .cancel)
    (hst : ThreadStep keepsGoing s l s' es) : ∃ r', s'.row = some r' ∧
      (c.next l).Covers (acks + if l.isAcknowledge then 1 else 0) s' r' := by
  cases hst with
  | @other w _ l ha hst =>
    refine ⟨r, ?_, h.other ha hst⟩
    rcases (hst.tables_of_admits ha).2 with ⟨-, hs⟩ | ⟨hc, -⟩
    · rw [← hr]
      simp only [Threads.row, hst.sesId, hs]
    · exact absurd (congrArg Micro.other hc) hl
  | acquire hpc => exact ⟨r, hr, h.keep (c.missing_le_next _) rfl (by rw [hpc]; rfl) rfl⟩
  | guardFails hpc => exact ⟨r, hr, h.keep (c.missing_le_next _) rfl (by rw [hpc]; rfl) rfl⟩
  | guardThrows hpc => exact ⟨r, hr, h.keep (c.missing_le_next _) rfl (by rw [hpc]; rfl) rfl⟩
  | guardHolds hpc => exact ⟨r, hr, h.keep (c.missing_le_next _) rfl (by rw [hpc]; rfl) rfl⟩
  | insertThrows e n hpc => exact ⟨r, hr, h.keep (c.missing_le_next _) rfl (by rw [hpc]; rfl) rfl⟩
  | insert vs hpc => exact ⟨r, hr, h.keep (c.missing_le_next _) rfl (by rw [hpc]; rfl) rfl⟩
  | read vs hpc =>
    have hmeasured := h.measured
    rw [hpc] at hmeasured
    exact ⟨r, hr, hmeasured, fun _ => Nat.zero_le _, fun _ ha => TimerPc.noConfusion ha, h.loss⟩
  | update vs a hpc =>
    have hmeasured := h.measured
    rw [hpc] at hmeasured
    exact ⟨r, hr, hmeasured, fun _ => h.waiting (by rw [hpc]; rfl),
      fun _ ha => TimerPc.noConfusion ha, h.loss⟩
  | commit vs a row hpc hdb =>
    refine ⟨r.add a, ?_, h.commit hr hbal hatt hheld hpc⟩
    have hrow := Threads.row_commit hheld hpc hdb
    rw [hr] at hrow
    exact hrow
  | rollback n hpc =>
    exact ⟨r, hr, h.keep (c.missing_le_next _) rfl (TimerPc.of_inAttempt hpc) rfl⟩
  | fail n hpc => exact ⟨r, hr, h.keep (c.missing_le_next _) rfl (TimerPc.of_inAttempt hpc) rfl⟩
  | clear a hpc => exact ⟨r, hr, h.clear hpc⟩
  | zero a hpc => exact ⟨r, hr, h.keep (c.missing_le_next _) rfl (by rw [hpc]; rfl) rfl⟩
  | release hpc => exact ⟨r, hr, h.keep (c.missing_le_next _) rfl (by rw [hpc]; rfl) rfl⟩

theorem of_run {ls : List Micro} (h : (threads keepsGoing).run ls = some s)
    (hc : .other .cancel ∉ ls) :
    ∃ r, s.row = some r ∧ (increments ls).Covers (acknowledgements ls) s r := by
  refine Machine.run_induction (M := threads keepsGoing)
    (P := fun ls s => .other .cancel ∉ ls →
      ∃ r, s.row = some r ∧ (increments ls).Covers (acknowledgements ls) s r)
    (fun _ => start) ?_ h hc
  intro ls s l s' hls ih hst hc
  obtain ⟨es, he⟩ := Machine.ofExec_step.1 hst
  have hls' : .other .cancel ∉ ls := fun hm => hc (List.mem_append_left _ hm)
  obtain ⟨r, hr, hcovers⟩ := ih hls'
  have hl : l ≠ .other .cancel := by
    rintro rfl
    exact hc (by simp)
  rw [increments_snoc, acknowledgements_snoc]
  exact hcovers.step hr (Balances.of_run hls hls') (Agrees.of_run hls).attempt
    (.of_reachable (.of_run hls)) hl (threadStep_of_exec he)

end Increments.Covers

/-- The session of the server is the only one in its table. -/
def Threads.Alone (s : Threads) : Prop := s.world.db.sessions.ids = [s.world.sesId]

namespace Threads.Alone

variable {s s' : Threads} {l : Micro} {es : List Event}

theorem step (h : s.Alone) (hst : ThreadStep keepsGoing s l s' es) : s'.Alone := by
  cases hst with
  | @other w _ l ha hst =>
    rw [Alone, hst.sesId, ← h]
    rcases (hst.tables_of_admits ha).2 with ⟨-, hs⟩ | ⟨-, -, rfl⟩
    · exact congrArg Table.ids hs
    · exact s.world.db.cancel_ids
  | @commit db vs a row hpc hdb =>
    have hids : (db.writeSession s.world.sesId row).sessions.ids = db.sessions.ids :=
      Table.updateId_ids _ _ _
    show (db.writeSession s.world.sesId row).sessions.ids = _
    rw [hids, (Db.batchInsert_ok hdb).2.1]
    exact h
  | _ => exact h

theorem of_reachable (h : (threads keepsGoing).Reachable s) : s.Alone := by
  refine h.invariant_ofExec rfl ?_
  intro s l s' es _ hI hst
  exact hI.step (threadStep_of_exec hst)

/-- `api.php` reads the row of the session of the server. -/
theorem api_session (h : s.Alone) : (api s.world.db).session = s.row := by
  obtain ⟨r, hr, hid⟩ := List.map_eq_singleton_iff.1 h
  have hrow : s.row = some r.val := by
    rw [Threads.row, ← hid]
    exact Table.get?_eq_some (hr ▸ List.mem_singleton_self r)
  rw [hrow]
  simp only [api, lastSession, hr]
  rfl

end Threads.Alone

/-! ### The site -/

/-- A request for `api.php`. -/
inductive Request where
  /-- The rows of `Times` have been selected. -/
  | selected (data : Answer)
  /-- The answer is under way. -/
  | sent (data : Answer)

/-- The server, and the page with its requests. -/
structure Site where
  server : Threads
  requests : List Request
  page : Page

/-- What happens next. -/
inductive SiteLabel where
  /-- A statement of the server. -/
  | server (l : Micro)
  /-- `update` sends a request, and `api.php` selects the rows of `Times`. -/
  | request
  /-- `api.php` selects the session for the request `i`. -/
  | select (i : ℕ)
  /-- The answer to the request `i` arrives, and `success` is called. -/
  | success (i : ℕ)
  deriving DecidableEq

/-- A statement of the server. -/
def SiteLabel.micro? : SiteLabel → Option Micro
  | .server l => some l
  | _ => none

namespace Site

variable (keepsGoing : Bool)

def start : Site := ⟨.start, [], .load⟩

/-- One step. -/
def step (s : Site) : SiteLabel → Option Site
  | .server l => (s.server.exec keepsGoing l).map fun r => { s with server := r.1 }
  | .request => some { s with requests := s.requests ++ [.selected (api s.server.world.db)] }
  | .select i => match s.requests[i]? with
    | some (.selected data) =>
      -- the tables may have changed since the rows were selected
      let session := (api s.server.world.db).session
      some { s with requests := s.requests.set i (.sent { data with session }) }
    | _ => none
  | .success i => match s.requests[i]? with
    -- an exception leaves the page as it is
    | some (.sent data) =>
      some { s with requests := s.requests.eraseIdx i, page := (s.page.update data).getD s.page }
    | _ => none

end Site

/-- The server of `Main.kt`, and the page of `index.php`. -/
def site (keepsGoing : Bool) : Machine Site SiteLabel := ⟨Site.start, Site.step keepsGoing⟩

/-- The statements of the server in the run `ls`. -/
def statements (ls : List SiteLabel) : List Micro := ls.filterMap SiteLabel.micro?

theorem statements_snoc (ls : List SiteLabel) (l : SiteLabel) :
    statements (ls ++ [l]) = statements ls ++ l.micro?.toList := by
  rw [statements, List.filterMap_append]
  cases h : l.micro? with
  | none => simp [statements, h]
  | some m => simp [statements, h]

/-- No answer and no point of the page is above `n`. -/
structure Site.Below (s : Site) (n : ℤ) : Prop where
  answers : ∀ data, .sent data ∈ s.requests → ∀ dati, data.session = some dati →
    dati.qos1Packets ≤ dati.packetsSent + n
  points : ∀ x ∈ s.page.lossArray, x ≤ n

namespace Site.Below

variable {s s' : Site} {n : ℤ}

theorem mono {m : ℤ} (h : s.Below n) (hle : n ≤ m) : s.Below m where
  answers data hd dati hs := (h.answers data hd dati hs).trans (Int.add_le_add_left hle _)
  points x hx := (h.points x hx).trans hle

theorem request (h : s.Below n) (data : Answer) :
    Below { s with requests := s.requests ++ [.selected data] } n where
  answers data' hd dati hs := by
    rcases List.mem_append.1 hd with hd | hd
    · exact h.answers data' hd dati hs
    · cases List.mem_singleton.1 hd
  points := h.points

theorem select {session : Option Session} (h : s.Below n)
    (hsession : ∀ dati, session = some dati → dati.qos1Packets ≤ dati.packetsSent + n) (i : ℕ)
    (data : Answer) :
    Below { s with requests := s.requests.set i (.sent { data with session }) } n where
  answers data' hd dati hs := by
    rcases List.mem_or_eq_of_mem_set hd with hd | hd
    · exact h.answers data' hd dati hs
    · cases hd
      exact hsession dati hs
  points := h.points

theorem success {i : ℕ} {data : Answer} (h : s.Below n)
    (hd : s.requests[i]? = some (.sent data)) :
    Below { s with
      requests := s.requests.eraseIdx i
      page := (s.page.update data).getD s.page } n where
  answers data' hd' := h.answers data' (List.mem_of_mem_eraseIdx hd')
  points := by
    cases hp : s.page.update data with
    | none => exact h.points
    | some p =>
      obtain ⟨dati, hs, rfl⟩ := Option.map_eq_some_iff.1 hp
      intro x hx
      rcases List.mem_append.1 hx with hx | hx
      · exact h.points x hx
      · rw [List.mem_singleton.1 hx]
        have hle := h.answers data (List.mem_of_getElem? hd) dati hs
        omega

end Site.Below

variable {s : Site} {ls : List SiteLabel}

/-- What is committed is never above what is lost. -/
theorem Site.below_of_run (h : (site keepsGoing).run ls = some s)
    (hc : .server (.other .cancel) ∉ ls) :
    (threads keepsGoing).run (statements ls) = some s.server ∧
      s.Below (increments (statements ls)).missing := by
  refine Machine.run_induction (M := site keepsGoing)
    (P := fun ls s => .server (.other .cancel) ∉ ls →
      (threads keepsGoing).run (statements ls) = some s.server ∧
        s.Below (increments (statements ls)).missing)
    (fun _ => ⟨rfl, nofun, nofun⟩) ?_ h hc
  intro ls s l s' _ ih hst hc
  have hls : SiteLabel.server (.other .cancel) ∉ ls := fun hm => hc (List.mem_append_left _ hm)
  obtain ⟨hrun, hbelow⟩ := ih hls
  rw [statements_snoc]
  cases l with
  | server l =>
    obtain ⟨⟨s₁, es⟩, he, rfl⟩ := Option.map_eq_some_iff.1 hst
    have hrun' : (threads keepsGoing).run (statements ls ++ [l]) = some s₁ :=
      Machine.run_snoc.2 ⟨_, hrun, Machine.ofExec_step.2 ⟨es, he⟩⟩
    refine ⟨hrun', ?_⟩
    have hmono := hbelow.mono ((increments (statements ls)).missing_le_next l)
    rw [← increments_snoc] at hmono
    exact ⟨hmono.answers, hmono.points⟩
  | request =>
    cases hst
    rw [show SiteLabel.request.micro?.toList = [] from rfl, List.append_nil]
    exact ⟨hrun, hbelow.request _⟩
  | select i =>
    simp only [site, Site.step] at hst
    rw [show (SiteLabel.select i).micro?.toList = [] from rfl, List.append_nil]
    split at hst
    · cases hst
      have hnot : Micro.other .cancel ∉ statements ls := by
        intro hm
        obtain ⟨l, hl, heq⟩ := List.mem_filterMap.1 hm
        cases l with
        | server m => cases heq; exact hls hl
        | _ => cases heq
      obtain ⟨r, hr, hcovers⟩ := Increments.Covers.of_run hrun hnot
      have hsession := (Threads.Alone.of_reachable (.of_run hrun)).api_session
      refine ⟨hrun, hbelow.select (fun dati hd => ?_) i _⟩
      rw [hsession, hr, Option.some.injEq] at hd
      exact hd ▸ hcovers.loss
    · cases hst
  | success i =>
    simp only [site, Site.step] at hst
    rw [show (SiteLabel.success i).micro?.toList = [] from rfl, List.append_nil]
    split at hst
    · rename_i data hd
      cases hst
      exact ⟨hrun, hbelow.success hd⟩
    · cases hst

/-- **What the loss chart shows.**  In every run without resets, with any number of requests under
way and their answers in any order, no point of the loss chart is above the number of increments of
`pubackSent` that the server has lost, or missed because the counter had wrapped. -/
theorem losses_le (h : (site keepsGoing).run ls = some s)
    (hc : .server (.other .cancel) ∉ ls) :
    ∀ x ∈ s.page.lossArray,
      x ≤ (increments (statements ls)).lost + (increments (statements ls)).wrapped :=
  (Site.below_of_run h hc).2.points

/-- A PUBACK is counted between the read and the reset of `pubackSent`; its packet has the first gap
of the next tick. -/
def lossRun : List SiteLabel :=
  [.connect ⟨"10.0.0.2", "esp", .nothing⟩, .atMostOnce 0 (-1) 1000, .acknowledge 0 1,
    .increment 0, .atLeastOnce 0 2000].map (fun l => .server (.other l)) ++
  [.acquire, .guard, .insert, .read, .other (.acknowledge 0 2), .other (.increment 0), .update,
    .commit, .clear, .zero, .release, .other (.atLeastOnce 0 3000), .acquire, .guard, .insert,
    .read, .update, .commit, .clear, .zero, .release].map .server ++
  [.request, .select 0, .success 0]

theorem losses_le_attained : ∃ s, (site false).run lossRun = some s ∧ s.page.lossArray = [1] ∧
    (increments (statements lossRun)).lost = 1 ∧ (increments (statements lossRun)).wrapped = 0 ∧
    ∀ x ∈ s.page.lossArray, x ≤ (increments (statements lossRun)).lost +
      (increments (statements lossRun)).wrapped :=
  ⟨_, rfl, rfl, rfl, rfl, @losses_le false _ lossRun rfl (by decide)⟩

end MqttServerTest
