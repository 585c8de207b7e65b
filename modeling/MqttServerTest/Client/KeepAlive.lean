import MqttServerTest.Client.Steps

/-!
# Half open connections

The client pings a server of which it has not heard for some time, and hangs up when there is no
answer.

* `Session.half_open_ends` : a connection to a server that stays silent does not survive a poll
  `keepAlive * 0.7` seconds after the last packet of the server and another one `keepAlive * 2`
  seconds later, if there is space for the ping and for the last packet.
* `Session.onPoll_disconnects` : a poll ends the connection only if the user has asked for it, or
  a ping has not been answered for that long, in the same connection.
-/

namespace MqttServerTest

namespace AsyncMqtt

/-- What the clock shows in a step. -/
def SessionLabel.now? : SessionLabel → Option ℕ
  | .event _ now _ => some now
  | .poll now _ => some now
  | .publish _ now _ => some now
  | .subscribe _ _ now _ => some now
  | .unsubscribe _ now _ => some now
  | .tcpConnected now _ => some now
  | .connect | .disconnect .. | .tcpDisconnected => none

/-- What the clock shows in the run `ls`. -/
def clock (ls : List SessionLabel) : List ℕ := ls.filterMap SessionLabel.now?

def SessionLabel.isPingResp : SessionLabel → Bool
  | .event .pingResp _ _ => true
  | _ => false

namespace Session

/-- A ping is handed to TCP. -/
def Pings (os : List ClientOutput) : Prop := ClientOutput.handed [[0xC0, 0]] ∈ os

/-- After the steps `as`, the connection lasts during the steps `bs`. -/
def Lasts (o : Options) (as bs : List SessionLabel) : Prop :=
  ∀ cs s, cs <+: bs → (session o).run (as ++ cs) = some s → s.connected = true

/-- The last ping of the run `ls` is that of a poll at time `p`, in the same connection, and there
is no answer. -/
def PingAt (o : Options) (ls : List SessionLabel) (p : ℕ) : Prop :=
  ∃ as bs spaces s, ls = as ++ .poll p spaces :: bs ∧ (session o).run as = some s ∧
    Pings (s.onPoll o p spaces).2 ∧ (∀ l ∈ bs, l.isPingResp = false) ∧
    Lasts o (as ++ [.poll p spaces]) bs

/-- After the run `ls`, at time `now`, a ping has not been answered for too long. -/
def Unanswered (o : Options) (ls : List SessionLabel) (now : ℕ) : Prop :=
  ∃ p, PingAt o ls p ∧ o.keepAlive * 1000 * 2 ≤ elapsed now p

theorem elapsed_of_le {a b : ℕ} (h : b ≤ a) (ha : a < 2 ^ 32) : elapsed a b = a - b := by
  unfold elapsed
  omega

/-! ### One step -/

/-- Without a ping, the connection ends, or the time of the last ping stays. -/
theorem stepwise_lastPing : Stepwise fun s r =>
    Ended s r ∨ Keeps s r ∧ r.1.lastPingRequestTime = s.lastPingRequestTime where
  nothing s := .inr ⟨⟨rfl, rfl, rfl, rfl⟩, rfl⟩
  trans h hd hr := by
    obtain ⟨h, -⟩ | ⟨hk, hp⟩ := h
    · exact absurd (h.symm.trans hd) Bool.noConfusion
    · exact hr.imp (Ended.of_keeps hk) fun hr => ⟨hk.trans hr.1, hr.2.trans hp⟩
  flag s := .inr ⟨⟨rfl, rfl, rfl, rfl⟩, rfl⟩
  acks s now spaces := .inr ⟨⟨disconnects_sendAcks s now spaces, rfl, rfl, rfl⟩, rfl⟩
  bytes s := .inr ⟨⟨rfl, rfl, rfl, rfl⟩, rfl⟩
  ends s := .inl ⟨rfl, rfl⟩

theorem Quiet.lastPing {s : Session} {r : Session × List ClientOutput} (h : Quiet s r) :
    r.1.lastPingRequestTime = s.lastPingRequestTime := by rw [h.state]

theorem lastPing_onPoll (o : Options) (s : Session) (now : ℕ) (spaces : List ℕ) :
    Ended s (s.onPoll o now spaces) ∨
      (s.onPoll o now spaces).1.lastPingRequestTime = s.lastPingRequestTime ∨
      s.lastPingRequestTime = 0 ∧ (s.onPoll o now spaces).1.lastPingRequestTime = now ∧
        Pings (s.onPoll o now spaces).2 := by
  unfold onPoll
  split
  · exact .inr (.inl rfl)
  split
  · exact (stepwise_lastPing.disconnect s false true _).imp_right fun h => .inl h.2
  split
  · rename_i hdue
    have hzero : s.lastPingRequestTime = 0 := hdue.elim (·.1) (·.2.1)
    have hping := (polled_sendPing s now (spaces.headD 0)).keeps
    obtain he | ⟨-, hlast⟩ := stepwise_lastPing.finishPoll (s.sendPing now (spaces.headD 0)).1 now
      spaces.tail
    · exact .inl (Ended.of_keeps hping he)
    · right
      dsimp only
      rw [hlast]
      unfold sendPing
      split
      · exact .inl rfl
      · exact .inr ⟨hzero, rfl, List.mem_append_left _ List.mem_cons_self⟩
  · exact (stepwise_lastPing.finishPoll s now spaces).imp_right fun h => .inl h.2

/-- What a step does to the time of the last ping. -/
theorem lastPing_exec {o : Options} {s : Session} {l : SessionLabel}
    {r : Session × List ClientOutput} (h : s.exec o l = some r) :
    Ended s r ∨ l.isPingResp = true ∧ r.1.lastPingRequestTime = 0 ∨
      l.isPingResp = false ∧ r.1.lastPingRequestTime = s.lastPingRequestTime ∨
      ∃ now spaces, l = .poll now spaces ∧ s.lastPingRequestTime = 0 ∧
        r.1.lastPingRequestTime = now ∧ Pings r.2 := by
  cases l with
  | event e now spaces =>
    cases h
    match e with
    | .pingResp => exact .inr (.inl ⟨rfl, rfl⟩)
    | .begins | .subAck _ _ | .ack .unsubAck _ | .ack .pubAck _ | .ack .pubComp _
    | .ack .pubRec _ | .ack .pubRel _ | .publish _ 0 | .publish _ 1 | .publish _ 2
    | .publish _ (_ + 3) | .message .. => exact .inr (.inr (.inl ⟨rfl, rfl⟩))
    | .connAck _ _ =>
      simp only [handle]
      split
      · exact .inr (.inr (.inl ⟨rfl, rfl⟩))
      · exact .inl ⟨rfl, rfl⟩
  | poll now spaces =>
    cases h
    obtain h | h | ⟨hzero, hlast, hpings⟩ := lastPing_onPoll o s now spaces
    · exact .inl h
    · exact .inr (.inr (.inl ⟨rfl, h⟩))
    · exact .inr (.inr (.inr ⟨now, spaces, rfl, hzero, hlast, hpings⟩))
  | publish c now space =>
    cases h; exact .inr (.inr (.inl ⟨rfl, (quiet_publish s c now space).lastPing⟩))
  | subscribe topic qos now space =>
    cases h; exact .inr (.inr (.inl ⟨rfl, (quiet_subscribe s topic qos now space).lastPing⟩))
  | unsubscribe topic now space =>
    cases h; exact .inr (.inr (.inl ⟨rfl, (quiet_unsubscribe s topic now space).lastPing⟩))
  | connect => cases h; exact .inr (.inr (.inl ⟨rfl, rfl⟩))
  | disconnect force isOpen space =>
    cases h
    exact (stepwise_lastPing.disconnect s force isOpen space).imp_right
      fun h => .inr (.inl ⟨rfl, h.2⟩)
  | tcpConnected now space =>
    cases h
    unfold onConnect
    split
    · exact .inl ⟨rfl, rfl⟩
    · exact .inr (.inr (.inl ⟨rfl, rfl⟩))
  | tcpDisconnected => cases h; exact .inl ⟨rfl, rfl⟩

/-! ### Runs -/

theorem Ended.lastPing {s : Session} {r : Session × List ClientOutput} (h : Ended s r) :
    r.1.lastPingRequestTime = 0 := by
  rw [h.2]
  rfl

theorem Ended.connected {s : Session} {r : Session × List ClientOutput} (h : Ended s r) :
    r.1.connected = false := by
  rw [h.2]
  rfl

theorem Lasts.nil {o : Options} {as : List SessionLabel} {s : Session}
    (hs : (session o).run as = some s) (hc : s.connected = true) : Lasts o as [] := by
  intro cs t hcs ht
  rw [List.prefix_nil.1 hcs, List.append_nil, hs] at ht
  cases ht
  exact hc

theorem Lasts.snoc {o : Options} {as bs : List SessionLabel} {l : SessionLabel} {s : Session}
    (h : Lasts o as bs) (hs : (session o).run (as ++ (bs ++ [l])) = some s)
    (hc : s.connected = true) : Lasts o as (bs ++ [l]) := by
  intro cs t hcs ht
  rcases List.prefix_concat_iff.1 hcs with rfl | hcs
  · rw [hs] at ht
    cases ht
    exact hc
  · exact h cs t hcs ht

/-- Without a connection, nobody waits for its end or for the answer to a ping. -/
def Rests (s : Session) : Prop :=
  s.connected = false → s.disconnectFlagged = false ∧ s.lastPingRequestTime = 0

theorem Ended.rests {s : Session} {r : Session × List ClientOutput} (h : Ended s r) :
    r.1.Rests := by
  rw [h.2]
  exact fun _ => ⟨rfl, rfl⟩

theorem Quiet.rests {s : Session} {r : Session × List ClientOutput} (h : Quiet s r)
    (hs : s.Rests) : r.1.Rests := by
  rw [h.state]
  exact hs

theorem Rests.exec {o : Options} {s : Session} {l : SessionLabel}
    {r : Session × List ClientOutput} (h : s.Rests) (he : s.exec o l = some r) : r.1.Rests := by
  cases l with
  | event e now spaces =>
    cases he
    match e with
    | .pingResp => exact fun hc => ⟨(h hc).1, rfl⟩
    | .begins | .subAck _ _ | .ack .unsubAck _ | .ack .pubAck _ | .ack .pubComp _
    | .ack .pubRec _ | .ack .pubRel _ | .publish _ 0 | .publish _ 1 | .publish _ 2
    | .publish _ (_ + 3) | .message .. => exact h
    | .connAck _ _ =>
      simp only [handle]
      split
      · exact fun hc => Bool.noConfusion hc
      · exact fun _ => ⟨rfl, rfl⟩
  | poll now spaces =>
    cases he
    by_cases hconn : s.connected = true
    · obtain hend | hp := ended_or_polled_onPoll o s now spaces
      · exact hend.rests
      · intro hc
        rw [hp.keeps.connected, hconn] at hc
        cases hc
    · rw [onPoll, if_pos hconn]
      exact h
  | publish c now space => cases he; exact (quiet_publish s c now space).rests h
  | subscribe topic qos now space => cases he; exact (quiet_subscribe s topic qos now space).rests h
  | unsubscribe topic now space => cases he; exact (quiet_unsubscribe s topic now space).rests h
  | connect => cases he; exact h
  | disconnect force isOpen space =>
    cases he
    by_cases hconn : s.connected = true
    · obtain hend | hp := stepwise_polled.disconnect s force isOpen space
      · exact hend.rests
      · intro hc
        rw [hp.keeps.connected, hconn] at hc
        cases hc
    · rw [disconnect, if_pos hconn]
      exact h
  | tcpConnected now space =>
    cases he
    unfold onConnect
    split
    · exact fun _ => ⟨rfl, rfl⟩
    · exact h
  | tcpDisconnected => cases he; exact fun _ => ⟨rfl, rfl⟩

theorem rests_run {o : Options} {ls : List SessionLabel} {s : Session}
    (h : (session o).run ls = some s) : s.Rests :=
  (Machine.Reachable.of_run h).invariant_ofExec (I := Rests) (fun _ => ⟨rfl, rfl⟩)
    fun _ _ _ _ _ hI he => hI.exec he

theorem connected_of_ping {o : Options} {ls : List SessionLabel} {s : Session}
    (h : (session o).run ls = some s) (hp : s.lastPingRequestTime ≠ 0) : s.connected = true := by
  by_contra hc
  exact hp (rests_run h (Bool.eq_false_of_not_eq_true hc)).2

theorem connected_of_flagged {o : Options} {ls : List SessionLabel} {s : Session}
    (h : (session o).run ls = some s) (hf : s.disconnectFlagged = true) : s.connected = true := by
  by_contra hc
  rw [(rests_run h (Bool.eq_false_of_not_eq_true hc)).1] at hf
  cases hf

/-- The time of the last ping is that of a poll that has pinged. -/
theorem pingAt_of_run {o : Options} {ls : List SessionLabel} {s : Session}
    (h : (session o).run ls = some s) (hp : s.lastPingRequestTime ≠ 0) :
    PingAt o ls s.lastPingRequestTime := by
  refine Machine.run_induction (M := session o) (P := fun ls s =>
    s.lastPingRequestTime ≠ 0 → PingAt o ls s.lastPingRequestTime) (fun h => absurd rfl h) ?_ h hp
  intro ls s l s' hls ih hst hp
  obtain ⟨os, hos⟩ := Machine.ofExec_step.1 hst
  have hrun : (session o).run (ls ++ [l]) = some s' := Machine.run_snoc.2 ⟨s, hls, hst⟩
  have hconn := connected_of_ping hrun hp
  obtain he | ⟨-, hzero⟩ | ⟨hnot, hsame⟩ | ⟨now, spaces, rfl, -, hlast, hpings⟩ := lastPing_exec hos
  · exact absurd he.lastPing hp
  · exact absurd hzero hp
  · -- the old one
    dsimp only at hsame
    rw [hsame] at hp ⊢
    obtain ⟨as, bs, spaces, s₁, rfl, hs₁, hpings, hbs, hlasts⟩ := ih hp
    refine ⟨as, bs ++ [l], spaces, s₁, by simp, hs₁, hpings, ?_, hlasts.snoc ?_ hconn⟩
    · intro k hk
      obtain hk | hk := List.mem_append.1 hk
      · exact hbs k hk
      · rw [List.mem_singleton.1 hk]
        exact hnot
    · simpa using hrun
  · have hpoll : s.onPoll o now spaces = (s', os) := Option.some.inj hos
    have hlast' : s'.lastPingRequestTime = now := hlast
    rw [hlast']
    exact ⟨ls, [], spaces, s, rfl, hls, by rw [hpoll]; exact hpings, nofun, .nil hrun hconn⟩

/-! ### Why the client hangs up -/

theorem flagged_finishPoll {s : Session} {now : ℕ} {spaces : List ℕ}
    (h : (s.finishPoll now spaces).1.disconnectFlagged = true ∨
      disconnects (s.finishPoll now spaces).2 = true) : s.disconnectFlagged = true := by
  unfold finishPoll at h
  dsimp only at h
  split at h
  · assumption
  · obtain h | h := h
    · exact h
    · rw [disconnects_sendAcks] at h
      cases h

/-- A poll that hangs up, or is going to. -/
theorem flagged_onPoll {o : Options} {s : Session} {now : ℕ} {spaces : List ℕ}
    (h : (s.onPoll o now spaces).1.disconnectFlagged = true ∨
      disconnects (s.onPoll o now spaces).2 = true) :
    s.disconnectFlagged = true ∨ pingExpired o s now := by
  unfold onPoll at h
  split at h
  · exact .inl (h.resolve_right Bool.noConfusion)
  split at h
  · exact .inr ‹_›
  split at h
  · dsimp only at h
    rw [disconnects_append, disconnects_sendPing, Bool.false_or] at h
    have hping := flagged_finishPoll h
    unfold sendPing at hping
    split at hping <;> exact .inl hping
  · exact .inl (flagged_finishPoll h)

theorem flagged_handle {s : Session} {now : ℕ} {spaces : List ℕ} {e : ClientEvent}
    (h : (s.handle now spaces e).1.disconnectFlagged = true) : s.disconnectFlagged = true := by
  match e with
  | .begins | .pingResp | .subAck _ _ | .ack .unsubAck _ | .ack .pubAck _ | .ack .pubComp _
  | .ack .pubRec _ | .ack .pubRel _ | .publish _ 0 | .publish _ 1 | .publish _ 2
  | .publish _ (_ + 3) | .message .. => exact h
  | .connAck _ _ =>
    simp only [handle] at h
    split at h
    · exact h
    · cases h

theorem Quiet.flagged {s : Session} {r : Session × List ClientOutput} (h : Quiet s r)
    (hr : r.1.disconnectFlagged = true) : s.disconnectFlagged = true := by
  rwa [h.state] at hr

/-- Who asks for the end of the connection. -/
theorem flagged_exec {o : Options} {s : Session} {l : SessionLabel}
    {r : Session × List ClientOutput} (h : s.exec o l = some r)
    (hr : r.1.disconnectFlagged = true) :
    s.disconnectFlagged = true ∨ (∃ isOpen space, l = .disconnect false isOpen space) ∨
      ∃ now spaces, l = .poll now spaces ∧ pingExpired o s now := by
  cases l with
  | event e now spaces => cases h; exact .inl (flagged_handle hr)
  | poll now spaces =>
    cases h
    exact (flagged_onPoll (.inl hr)).imp_right fun h => .inr ⟨now, spaces, rfl, h⟩
  | publish c now space => cases h; exact .inl ((quiet_publish s c now space).flagged hr)
  | subscribe topic qos now space =>
    cases h; exact .inl ((quiet_subscribe s topic qos now space).flagged hr)
  | unsubscribe topic now space =>
    cases h; exact .inl ((quiet_unsubscribe s topic now space).flagged hr)
  | connect => cases h; exact .inl hr
  | disconnect force isOpen space =>
    cases h
    cases force with
    | false => exact .inr (.inl ⟨isOpen, space, rfl⟩)
    | true =>
      unfold disconnect at hr
      split at hr
      · exact .inl hr
      · rw [if_pos rfl] at hr
        split at hr
        · cases hr
        · exact .inl hr
  | tcpConnected now space =>
    cases h
    unfold onConnect at hr
    split at hr
    · cases hr
    · exact .inl hr
  | tcpDisconnected => cases h; cases hr

theorem unanswered_of_pingExpired {o : Options} {ls : List SessionLabel} {s : Session} {now : ℕ}
    (h : (session o).run ls = some s) (he : pingExpired o s now) : Unanswered o ls now :=
  ⟨s.lastPingRequestTime, pingAt_of_run h he.1, he.2⟩

/-- After the run `as`, a step asks for the end of the connection: the user calls `disconnect`, or a
poll finds that a ping was not answered in time. -/
def Asks (o : Options) (as : List SessionLabel) : SessionLabel → Prop
  | .disconnect false _ _ => True
  | .poll now _ => Unanswered o as now
  | _ => False

/-- The client is to hang up: somebody has asked for it, in the same connection. -/
def HasReason (o : Options) (ls : List SessionLabel) : Prop :=
  ∃ as l bs, ls = as ++ l :: bs ∧ Asks o as l ∧ Lasts o (as ++ [l]) bs

theorem hasReason_of_run {o : Options} {ls : List SessionLabel} {s : Session}
    (h : (session o).run ls = some s) (hf : s.disconnectFlagged = true) : HasReason o ls := by
  refine Machine.run_induction (M := session o) (P := fun ls s =>
    s.disconnectFlagged = true → HasReason o ls) (fun h => Bool.noConfusion h) ?_ h hf
  intro ls s l s' hls ih hst hf
  obtain ⟨os, hos⟩ := Machine.ofExec_step.1 hst
  have hrun : (session o).run (ls ++ [l]) = some s' := Machine.run_snoc.2 ⟨s, hls, hst⟩
  have hconn := connected_of_flagged hrun hf
  obtain hold | ⟨isOpen, space, rfl⟩ | ⟨now, spaces, rfl, he⟩ := flagged_exec hos hf
  · obtain ⟨as, k, bs, rfl, hasks, hlasts⟩ := ih hold
    refine ⟨as, k, bs ++ [l], by simp, hasks, hlasts.snoc ?_ hconn⟩
    simpa using hrun
  · exact ⟨ls, _, [], rfl, trivial, .nil hrun hconn⟩
  · exact ⟨ls, _, [], rfl, unanswered_of_pingExpired hls he, .nil hrun hconn⟩

/-- **Only for a reason.**  A poll hangs up only if somebody has asked for it in this connection, or
finds itself that a ping was not answered in time. -/
theorem onPoll_disconnects {o : Options} {ls : List SessionLabel} {s : Session} {now : ℕ}
    {spaces : List ℕ} (h : (session o).run ls = some s)
    (hd : disconnects (s.onPoll o now spaces).2 = true) :
    HasReason o ls ∨ Unanswered o ls now := by
  obtain hf | he := flagged_onPoll (.inr hd)
  · exact .inl (hasReason_of_run h hf)
  · exact .inr (unanswered_of_pingExpired h he)

/-- The server accepts, and stays silent. -/
def acceptedThenSilent : List SessionLabel :=
  [.event .begins 5 [], .event (.connAck false 0) 5 []]

theorem onPoll_disconnects_silent :
    HasReason Options.sensor (acceptedThenSilent ++ [.poll 3000 [90, 90]]) ∨
      Unanswered Options.sensor (acceptedThenSilent ++ [.poll 3000 [90, 90]]) 11000 :=
  @onPoll_disconnects _ _ ⟨true, false, false, 3000, 5, 3000, [], [], 1⟩ 11000 [90] (by decide)
    (by decide)

/-! ### A silent server -/

/-- A poll of a connection to a server that has been silent for long leaves a ping. -/
theorem onPoll_pings {o : Options} {s : Session} {now : ℕ} {spaces : List ℕ}
    (hidle : o.keepAlive * 700 ≤ elapsed now s.lastServerActivity)
    (hspace : 2 ≤ spaces.headD 0) (hconn : (s.onPoll o now spaces).1.connected = true) :
    (s.onPoll o now spaces).1.lastPingRequestTime =
      if s.lastPingRequestTime = 0 then now else s.lastPingRequestTime := by
  split
  · rename_i hzero
    have hc : s.connected = true := by
      rw [← (keeps_of_connected (l := .poll now spaces) rfl rfl hconn).connected]
      exact hconn
    have hpoll : s.onPoll o now spaces =
        (((s.sendPing now (spaces.headD 0)).1.finishPoll now spaces.tail).1,
          (s.sendPing now (spaces.headD 0)).2 ++
            ((s.sendPing now (spaces.headD 0)).1.finishPoll now spaces.tail).2) := by
      rw [onPoll, if_neg (not_not_intro hc), if_neg fun h => h.1 hzero,
        if_pos (.inr ⟨hc, hzero, hidle⟩)]
    rw [hpoll] at hconn ⊢
    have hping : (s.sendPing now (spaces.headD 0)).1.lastPingRequestTime = now := by
      rw [sendPing, if_neg (Nat.not_lt.2 hspace)]
    obtain he | ⟨-, hlast⟩ := stepwise_lastPing.finishPoll (s.sendPing now (spaces.headD 0)).1 now
      spaces.tail
    · exact absurd (he.connected.symm.trans hconn) Bool.noConfusion
    · exact hlast.trans hping
  · rename_i hzero
    obtain he | hsame | ⟨h, -⟩ := lastPing_onPoll o s now spaces
    · exact absurd (he.connected.symm.trans hconn) Bool.noConfusion
    · exact hsame
    · exact absurd h hzero

/-- Without the server, the time of an unanswered ping stays. -/
theorem lastPing_of_silent {o : Options} {ls : List SessionLabel} {s s' : Session}
    (h : (session o).runFrom s ls = some s') (hl : ∀ l ∈ ls, l.isEvent = false)
    (hconn : s'.connected = true) (hp : s.lastPingRequestTime ≠ 0) :
    s'.lastPingRequestTime = s.lastPingRequestTime := by
  induction ls generalizing s with
  | nil => cases h; rfl
  | cons l ls ih =>
    obtain ⟨t, ht, hrest⟩ := Machine.runFrom_cons.1 h
    obtain ⟨os, hos⟩ := Machine.ofExec_step.1 ht
    have hne := hl l List.mem_cons_self
    have hls : ∀ k ∈ ls, k.isEvent = false := fun k hk => hl k (List.mem_cons_of_mem _ hk)
    have htc : t.connected = true := connected_of_silent hrest hls hconn
    have hsame : t.lastPingRequestTime = s.lastPingRequestTime := by
      obtain he | ⟨hresp, -⟩ | ⟨-, h⟩ | ⟨now, spaces, -, hzero, -⟩ := lastPing_exec hos
      · exact absurd (he.connected.symm.trans htc) Bool.noConfusion
      · cases l with
        | event e now spaces => cases hne
        | _ => cases hresp
      · exact h
      · exact absurd hzero hp
    rw [ih hrest hls (hsame ▸ hp), hsame]

/-- A poll long after an unanswered ping hangs up. -/
theorem onPoll_of_expired {o : Options} {s : Session} {now : ℕ} {spaces : List ℕ}
    (he : pingExpired o s now) (hspace : 2 ≤ spaces.headD 0) :
    (s.onPoll o now spaces).1.connected = false := by
  unfold onPoll
  split
  · exact Bool.eq_false_of_not_eq_true ‹_›
  · rename_i hc
    rw [disconnect, if_neg hc, if_neg Bool.noConfusion, sendDisconnect,
      if_neg (Nat.not_lt.2 hspace)]
    rfl

theorem now_mem_clock {as bs : List SessionLabel} {p : ℕ} {spaces : List ℕ} :
    p ∈ clock (as ++ .poll p spaces :: bs) := by
  simp [clock, SessionLabel.now?]

/-- **Half open connections.**  The server has been silent for `keepAlive * 0.7` seconds when the
client polls at `t₁`, and stays silent; a poll at `t₂`, `keepAlive * 2` seconds later or still
later, does not leave the connection.  Both polls find space for two bytes, and the clock, which
does not show 0 at `t₁`, does not start again in between. -/
theorem half_open_ends {o : Options} {ls bs : List SessionLabel} {s₁ s : Session} {t₁ t₂ : ℕ}
    {spaces₁ spaces₂ : List ℕ} (hs₁ : (session o).run ls = some s₁)
    (hs : (session o).run (ls ++ .poll t₁ spaces₁ :: (bs ++ [.poll t₂ spaces₂])) = some s)
    (hclock : ∀ t ∈ clock ls, t ≤ t₁) (hpos : t₁ ≠ 0) (hmax : t₂ < 2 ^ 32)
    (hidle : s₁.lastServerActivity + o.keepAlive * 700 ≤ t₁)
    (hlate : t₁ + o.keepAlive * 2000 ≤ t₂) (hsilent : ∀ l ∈ bs, l.isEvent = false)
    (hspace₁ : 2 ≤ spaces₁.headD 0) (hspace₂ : 2 ≤ spaces₂.headD 0) : s.connected = false := by
  obtain ⟨s₂, hs₂, hrest⟩ : ∃ s₂, s₂ = (s₁.onPoll o t₁ spaces₁).1 ∧
      (session o).runFrom s₂ (bs ++ [.poll t₂ spaces₂]) = some s := by
    rw [Machine.run_append hs₁] at hs
    exact ⟨_, rfl, hs⟩
  rw [Machine.runFrom_append] at hrest
  obtain ⟨s₃, hs₃, hlast⟩ := Option.bind_eq_some_iff.1 hrest
  have hend : (s₃.onPoll o t₂ spaces₂).1 = s := Option.some.inj hlast
  rw [← hend]
  by_cases hc : s₃.connected = true
  · -- the ping at `t₁`, or one before it, has not been answered
    have hc₂ : s₂.connected = true := connected_of_silent hs₃ hsilent hc
    have hping : s₂.lastPingRequestTime =
        if s₁.lastPingRequestTime = 0 then t₁ else s₁.lastPingRequestTime := by
      rw [hs₂] at hc₂ ⊢
      refine onPoll_pings ?_ hspace₁ hc₂
      rw [elapsed_of_le (by omega) (by omega)]
      omega
    have hle : s₂.lastPingRequestTime ≠ 0 ∧ s₂.lastPingRequestTime ≤ t₁ := by
      rw [hping]
      split
      · exact ⟨hpos, Nat.le_refl _⟩
      · rename_i hne
        obtain ⟨as, cs, spaces, -, rfl, -⟩ := pingAt_of_run hs₁ hne
        exact ⟨hne, hclock _ now_mem_clock⟩
    have hsame := lastPing_of_silent hs₃ hsilent hc hle.1
    refine onPoll_of_expired ⟨hsame ▸ hle.1, ?_⟩ hspace₂
    rw [hsame, elapsed_of_le (by omega) hmax]
    omega
  · obtain he | hp := ended_or_polled_onPoll o s₃ t₂ spaces₂
    · exact he.connected
    · rw [hp.keeps.connected]
      exact Bool.eq_false_of_not_eq_true hc

theorem half_open_ends_silent :
    (Session.mk false false false 3000 5 0 [] [] 1).connected = false := by
  have hrun : (session Options.sensor).run (acceptedThenSilent ++
      .poll 3000 [90, 90] :: ([.subscribe [116] 0 4000 0] ++ [.poll 11000 [90]])) =
        some ⟨false, false, false, 3000, 5, 0, [], [], 1⟩ := by decide
  have hrun₁ : (session Options.sensor).run acceptedThenSilent =
      some ⟨true, false, false, 0, 5, 0, [], [], 1⟩ := by decide
  exact half_open_ends hrun₁ hrun (by decide) (by decide) (by decide) (by decide) (by decide)
    (by decide) (by decide) (by decide)

end Session

end AsyncMqtt

end MqttServerTest
