import MqttServerTest.Client.Steps
import MqttServerTest.Data.EverySecond
import Mathlib.Data.List.Perm.Basic

/-!
# Acknowledgements

The client has to answer every message of quality of service 1 or 2 and every step of the second
handshake.  An answer waits in `_toSendAcks` until `_sendAcks` finds space for it.

* `Session.acks_conserved` : after every run, what has been handed to TCP since the last
  disconnection and what waits is what the client owes.
* `Session.polls_drain_iff` : `_sendAcks` passes over every second acknowledgement, so that a queue
  of `n` acknowledgements is gone after `k` polls exactly if `n < 2 ^ k`.
* `Session.polls_ordered_iff` : such polls keep the order exactly if at most two acknowledgements
  wait.
-/

namespace MqttServerTest

namespace AsyncMqtt

/-- What is to be answered to an event. -/
def ClientEvent.owes : ClientEvent → List PendingAck
  | .publish packetId 1 => [⟨4, 0, packetId⟩]
  | .publish packetId 2 => [⟨5, 0, packetId⟩]
  | .ack .pubRec packetId => [⟨6, 2, packetId⟩]
  | .ack .pubRel packetId => [⟨7, 0, packetId⟩]
  | _ => []

/-- What is to be answered to a step. -/
def SessionLabel.owes : SessionLabel → List PendingAck
  | .event e _ _ => e.owes
  | _ => []

/-- What the client owes since the last disconnection, and what it has handed to TCP. -/
structure Ledger where
  due : List PendingAck
  handed : List PendingAck
  deriving DecidableEq, Repr

/-- The ledger as a history variable. -/
def ledger (o : Options) (h : Ledger) (s : Session) (l : SessionLabel) : Ledger :=
  match s.exec o l with
  | some (_, os) =>
    if disconnects os then ⟨[], []⟩ else ⟨h.due ++ l.owes, h.handed ++ acks os⟩
  | none => h

/-- `k` polls. -/
def polls (ps : List (ℕ × List ℕ)) : List SessionLabel := ps.map fun p => .poll p.1 p.2

namespace Session

/-! ### The loop -/

/-- The loop loses nothing. -/
theorem sendAcksLoop_perm (spaces : List ℕ) (i : ℕ) (as : List PendingAck) :
    ((sendAcksLoop spaces i as).1 ++ (sendAcksLoop spaces i as).2.1).Perm as := by
  induction spaces generalizing i as with
  | nil => exact .refl _
  | cons space spaces ih =>
    rw [sendAcksLoop]
    split
    · rename_i hi
      split
      · exact .refl _
      · exact ((ih (i + 1) (as.eraseIdx i)).cons _).trans (List.getElem_cons_eraseIdx_perm hi)
    · exact .refl _

/-- The loop at the end of `pre`, with enough space. -/
theorem sendAcksLoop_append {spaces : List ℕ} {as : List PendingAck} (pre : List PendingAck)
    (hspace : ∀ x ∈ spaces, 4 ≤ x) (hlen : as.length ≤ 2 * spaces.length) :
    sendAcksLoop spaces pre.length (pre ++ as) =
      (evens as, pre ++ odds as, spaces.drop ((as.length + 1) / 2)) := by
  induction as using evens.induct generalizing spaces pre with
  | case1 =>
    cases spaces with
    | nil => simp [sendAcksLoop, evens, odds]
    | cons x spaces => simp [sendAcksLoop, evens, odds]
  | case2 a =>
    obtain _ | ⟨x, spaces⟩ := spaces
    · simp at hlen
    have hx : ¬ x < 4 := Nat.not_lt.2 (hspace x List.mem_cons_self)
    cases spaces with
    | nil => simp [sendAcksLoop, evens, odds, hx, List.eraseIdx_append_of_length_le]
    | cons y spaces => simp [sendAcksLoop, evens, odds, hx, List.eraseIdx_append_of_length_le]
  | case3 a b as ih =>
    obtain _ | ⟨x, spaces⟩ := spaces
    · simp at hlen
    have hx : ¬ x < 4 := Nat.not_lt.2 (hspace x List.mem_cons_self)
    -- `b` takes the index of `a`
    have hb := ih (pre ++ [b]) (fun y hy => hspace y (List.mem_cons_of_mem _ hy))
      (by simp only [List.length_cons] at hlen; omega)
    rw [List.append_assoc, List.singleton_append, List.length_append, List.length_singleton] at hb
    have herase : (pre ++ a :: b :: as).eraseIdx pre.length = pre ++ b :: as := by
      simp [List.eraseIdx_append_of_length_le]
    have hdrop : (as.length + 1 + 1 + 1) / 2 = (as.length + 1) / 2 + 1 := by omega
    simp [sendAcksLoop, hx, herase, hb, evens, odds, hdrop]

/-! ### One step -/

/-- The result `r` of a step agrees with a queue of what is owed. -/
def Settles (queue : List PendingAck) (r : Session × List ClientOutput) : Prop :=
  if disconnects r.2 then r.1.toSendAcks = []
  else (acks r.2 ++ r.1.toSendAcks).Perm queue

/-- A step that hands no acknowledgement to TCP and leaves the queue. -/
theorem settles_of_eq {queue : List PendingAck} {r : Session × List ClientOutput}
    (hs : r.1.toSendAcks = queue) (hos : acks r.2 = []) (hd : disconnects r.2 = false) :
    Settles queue r := by
  simp [Settles, hs, hos, hd]

theorem Ended.settles {s : Session} {r : Session × List ClientOutput} (h : Ended s r)
    (queue : List PendingAck) : Settles queue r := by
  rw [Settles, if_pos h.1, h.2]
  rfl

theorem settles_sendAcks (s : Session) (now : ℕ) (spaces : List ℕ) :
    Settles s.toSendAcks (s.sendAcks now spaces) := by
  simp only [Settles, sendAcks, disconnects_map_handedAck, acks_map_handedAck, Bool.false_eq_true,
    if_false]
  exact sendAcksLoop_perm spaces 0 s.toSendAcks

/-- One settled step after another. -/
theorem Settles.trans {queue : List PendingAck} {s : Session} {os : List ClientOutput}
    {r : Session × List ClientOutput} (hs : Settles queue (s, os)) (hd : disconnects os = false)
    (hr : Settles s.toSendAcks r) : Settles queue (r.1, os ++ r.2) := by
  simp only [Settles, hd, Bool.false_eq_true, if_false] at hs
  simp only [Settles, disconnects_append, hd, Bool.false_or, acks_append]
  split
  · rename_i h
    simpa only [Settles, h, if_true] using hr
  · rename_i h
    simp only [Settles, h, Bool.false_eq_true, if_false] at hr
    rw [List.append_assoc]
    exact (hr.append_left _).trans hs

theorem stepwise_settles : Stepwise fun s r => Settles s.toSendAcks r where
  nothing _ := settles_of_eq rfl rfl rfl
  trans := Settles.trans
  flag _ := settles_of_eq rfl rfl rfl
  acks := settles_sendAcks
  bytes _ := settles_of_eq rfl rfl rfl
  ends _ := Ended.settles ⟨rfl, rfl⟩ _

theorem settles_sendPing (s : Session) (now space : ℕ) :
    Settles s.toSendAcks (s.sendPing now space) := by
  unfold sendPing
  split <;> exact settles_of_eq rfl rfl rfl

theorem settles_handle (s : Session) (now : ℕ) (spaces : List ℕ) (e : ClientEvent) :
    Settles (s.toSendAcks ++ e.owes) (s.handle now spaces e) := by
  have hnone : s.toSendAcks = s.toSendAcks ++ [] := (List.append_nil _).symm
  match e with
  | .begins | .pingResp | .subAck _ _ | .ack .unsubAck _ | .ack .pubAck _ | .ack .pubComp _ =>
    exact settles_of_eq hnone rfl rfl
  | .connAck sessionPresent code =>
    simp only [handle]
    split
    · exact settles_of_eq hnone rfl rfl
    · exact Ended.settles ⟨rfl, rfl⟩ _
  | .ack .pubRec _ | .ack .pubRel _ | .publish _ 2 => exact settles_sendAcks _ now spaces
  | .publish _ 1 => exact settles_of_eq rfl rfl rfl
  | .publish _ 0 | .publish _ (_ + 3) => exact settles_of_eq hnone rfl rfl
  | .message .. =>
    simp only [handle]
    refine settles_of_eq hnone ?_ ?_ <;> dsimp only <;> split <;> rfl

theorem Quiet.settles {s : Session} {r : Session × List ClientOutput} (h : Quiet s r) :
    Settles (s.toSendAcks ++ []) r :=
  settles_of_eq (by rw [h.state, List.append_nil]) h.acks h.goesOn

theorem settles_exec {o : Options} {s : Session} {l : SessionLabel}
    {r : Session × List ClientOutput} (h : s.exec o l = some r) :
    Settles (s.toSendAcks ++ l.owes) r := by
  have hnone {r : Session × List ClientOutput} (h : Settles s.toSendAcks r) :
      Settles (s.toSendAcks ++ []) r := by rwa [List.append_nil]
  cases l with
  | event e now spaces => cases h; exact settles_handle s now spaces e
  | poll now spaces =>
    cases h; exact hnone (stepwise_settles.onPoll spaces fun _ => settles_sendPing s now _)
  | publish c now space => cases h; exact (quiet_publish s c now space).settles
  | subscribe topic qos now space => cases h; exact (quiet_subscribe s topic qos now space).settles
  | unsubscribe topic now space => cases h; exact (quiet_unsubscribe s topic now space).settles
  | connect => cases h; exact (quiet_connect s).settles
  | disconnect force isOpen space =>
    cases h; exact hnone (stepwise_settles.disconnect s force isOpen space)
  | tcpConnected now space =>
    cases h
    unfold onConnect
    split
    · exact Ended.settles (s := s) ⟨rfl, rfl⟩ _
    · exact hnone (settles_of_eq rfl rfl rfl)
  | tcpDisconnected => cases h; exact Ended.settles ⟨rfl, rfl⟩ _

/-- What has been handed to TCP and what waits is what is owed, after a step if before. -/
theorem Settles.conserves {s : Session} {owed handed due : List PendingAck}
    {r : Session × List ClientOutput} (h : Settles (s.toSendAcks ++ owed) r)
    (hI : (handed ++ s.toSendAcks).Perm due) :
    ((if disconnects r.2 then [] else handed ++ acks r.2) ++ r.1.toSendAcks).Perm
      (if disconnects r.2 then [] else due ++ owed) := by
  rw [Settles] at h
  split at h
  · rename_i hd
    rw [if_pos hd, if_pos hd, h]
    exact .refl _
  · rename_i hd
    rw [if_neg hd, if_neg hd, List.append_assoc]
    -- what has been handed before, what is handed now, what waits
    refine (h.append_left handed).trans ?_
    rw [← List.append_assoc]
    exact hI.append_right _

/-! ### Runs -/

/-- Three messages of quality of service 1 arrive with one chunk. -/
def burst : List SessionLabel :=
  [.event (.connAck false 0) 5 [], .event (.publish 1 1) 6 [], .event (.publish 2 1) 6 [],
    .event (.publish 3 1) 6 []]

/-- Two polls. -/
def twice : List (ℕ × List ℕ) := [(7, [90, 90, 90, 90]), (8, [90, 90, 90, 90])]

/-- The acknowledgements of three messages. -/
def answers : List PendingAck := [⟨4, 0, 1⟩, ⟨4, 0, 2⟩, ⟨4, 0, 3⟩]

/-- **Conservation.**  Since the last disconnection, every acknowledgement that the client owes has
been handed to TCP once, or waits. -/
theorem acks_conserved {o : Options} {ls : List SessionLabel} {s : Session}
    (h : (session o).run ls = some s) :
    (((session o).history (ledger o) ⟨[], []⟩ ls).handed ++ s.toSendAcks).Perm
      ((session o).history (ledger o) ⟨[], []⟩ ls).due := by
  refine Machine.history_invariant
    (I := fun s (h : Ledger) => (h.handed ++ s.toSendAcks).Perm h.due) ?_ ?_ h
  · exact .refl _
  · intro s h l s' _ hI hst
    obtain ⟨os, hos⟩ := Machine.ofExec_step.1 hst
    have hstep := (settles_exec hos).conserves hI
    simp only [ledger, hos]
    split
    · rename_i hd
      simpa only [hd, if_true] using hstep
    · rename_i hd
      simpa only [hd, Bool.false_eq_true, if_false] using hstep

theorem acks_conserved_burst :
    (((session Options.sensor).history (ledger Options.sensor) ⟨[], []⟩ burst).handed ++
      answers).Perm ((session Options.sensor).history (ledger Options.sensor) ⟨[], []⟩ burst).due :=
  acks_conserved (s := ⟨true, false, false, 0, 0, 0, [], answers, 1⟩) (by decide)

/-! ### Polls -/

theorem sendAcks_evens {s : Session} {spaces : List ℕ} (now : ℕ)
    (hlen : s.toSendAcks.length ≤ 2 * spaces.length) (hspace : ∀ x ∈ spaces, 4 ≤ x) :
    acks (s.sendAcks now spaces).2 = evens s.toSendAcks ∧
      (s.sendAcks now spaces).1.toSendAcks = odds s.toSendAcks := by
  have hloop := sendAcksLoop_append [] hspace hlen
  rw [List.length_nil, List.nil_append, List.nil_append] at hloop
  simp [sendAcks, hloop]

/-- `_sendDisconnect` leaves the connection only if it does nothing. -/
theorem sendDisconnect_of_connected {s : Session} {space : ℕ}
    (h : (s.sendDisconnect space).1.connected = true) : s.sendDisconnect space = (s, []) := by
  unfold sendDisconnect at h ⊢
  split
  · rfl
  · rename_i hspace
    rw [if_neg hspace] at h
    cases h

theorem finishPoll_evens {s : Session} {now : ℕ} {spaces : List ℕ}
    (hlen : s.toSendAcks.length ≤ 2 * spaces.length) (hspace : ∀ x ∈ spaces, 4 ≤ x)
    (hconn : (s.finishPoll now spaces).1.connected = true) :
    acks (s.finishPoll now spaces).2 = evens s.toSendAcks ∧
      (s.finishPoll now spaces).1.toSendAcks = odds s.toSendAcks := by
  obtain ⟨hacks, hqueue⟩ := sendAcks_evens now hlen hspace
  unfold finishPoll at hconn ⊢
  dsimp only at hconn ⊢
  split
  · rename_i hflag
    rw [if_pos hflag] at hconn
    rw [sendDisconnect_of_connected hconn, List.append_nil]
    exact ⟨hacks, hqueue⟩
  · exact ⟨hacks, hqueue⟩

/-- A poll that leaves the connection, with enough space. -/
theorem onPoll_evens {o : Options} {s : Session} {now : ℕ} {spaces : List ℕ}
    (hlen : s.toSendAcks.length < spaces.length) (hspace : ∀ x ∈ spaces, 4 ≤ x)
    (hconn : (s.onPoll o now spaces).1.connected = true) :
    acks (s.onPoll o now spaces).2 = evens s.toSendAcks ∧
      (s.onPoll o now spaces).1.toSendAcks = odds s.toSendAcks := by
  obtain _ | ⟨x, spaces⟩ := spaces
  · exact absurd hlen (Nat.not_lt_zero _)
  have hx : 4 ≤ x := hspace x List.mem_cons_self
  rw [List.length_cons] at hlen
  unfold onPoll at hconn ⊢
  split
  · rename_i h
    rw [if_pos h] at hconn
    exact absurd hconn h
  rename_i hc
  rw [if_neg hc] at hconn
  split
  · -- the client hangs up
    rename_i h
    rw [if_pos h] at hconn
    simp only [disconnect, hc, if_false, Bool.false_eq_true, List.headD_cons] at hconn
    have hnot := congrArg (fun r => r.2) (sendDisconnect_of_connected hconn)
    simp only [sendDisconnect, show ¬ x < 2 by omega, if_false] at hnot
    cases hnot
  rename_i he
  rw [if_neg he] at hconn
  split
  · rename_i h
    rw [if_pos h] at hconn
    have hqueue : (s.sendPing now x).1.toSendAcks = s.toSendAcks := by
      unfold sendPing
      split <;> rfl
    have hacks : acks (s.sendPing now x).2 = [] := by
      unfold sendPing
      split <;> rfl
    have hlen' : (s.sendPing now x).1.toSendAcks.length ≤ 2 * spaces.length := by
      rw [hqueue]
      omega
    have hlast := finishPoll_evens hlen' (fun y hy => hspace y (List.mem_cons_of_mem _ hy)) hconn
    rw [hqueue] at hlast
    exact ⟨by rw [acks_append, List.headD_cons, hacks]; exact hlast.1, hlast.2⟩
  · rename_i h
    rw [if_neg h] at hconn
    exact finishPoll_evens (by rw [List.length_cons]; omega) hspace hconn

/-- Enough space in every poll. -/
def Roomy (s : Session) (ps : List (ℕ × List ℕ)) : Prop :=
  ∀ p ∈ ps, s.toSendAcks.length < p.2.length ∧ ∀ x ∈ p.2, 4 ≤ x

theorem isEvent_of_mem_polls (ps : List (ℕ × List ℕ)) : ∀ l ∈ polls ps, l.isEvent = false := by
  intro l hl
  obtain ⟨p, -, rfl⟩ := List.mem_map.1 hl
  rfl

/-- Polls that leave the connection, with enough space. -/
theorem polls_rounds {o : Options} {ls : List SessionLabel} {s s' : Session}
    {ps : List (ℕ × List ℕ)} (hs : (session o).run ls = some s)
    (hs' : (session o).run (ls ++ polls ps) = some s') (hroom : Roomy s ps)
    (hconn : s'.connected = true) :
    acks (session.outputs o (ls ++ polls ps)) =
        acks (session.outputs o ls) ++ rounds ps.length s.toSendAcks ∧
      s'.toSendAcks = odds^[ps.length] s.toSendAcks := by
  induction ps generalizing ls s with
  | nil =>
    simp only [polls, List.map_nil, List.append_nil] at hs' ⊢
    rw [hs] at hs'
    cases hs'
    exact ⟨(List.append_nil _).symm, rfl⟩
  | cons p ps ih =>
    have hfirst := hroom p List.mem_cons_self
    have hstep : s.exec o (.poll p.1 p.2) = some (s.onPoll o p.1 p.2) := rfl
    have hrun : (session o).run (ls ++ [.poll p.1 p.2]) = some (s.onPoll o p.1 p.2).1 :=
      Machine.run_snoc.2 ⟨s, hs, rfl⟩
    have hsplit : ls ++ polls (p :: ps) = (ls ++ [.poll p.1 p.2]) ++ polls ps := by
      rw [List.append_assoc]; rfl
    rw [hsplit] at hs' ⊢
    have hnext : (s.onPoll o p.1 p.2).1.connected = true :=
      connected_of_silent (Machine.run_append hrun ▸ hs') (isEvent_of_mem_polls ps) hconn
    obtain ⟨hacks, hqueue⟩ := onPoll_evens hfirst.1 hfirst.2 hnext
    have hroom' : Roomy (s.onPoll o p.1 p.2).1 ps := by
      intro q hq
      have hq' := hroom q (List.mem_cons_of_mem _ hq)
      rw [hqueue]
      exact ⟨Nat.lt_of_le_of_lt (length_odds_le _) hq'.1, hq'.2⟩
    obtain ⟨h₁, h₂⟩ := ih hrun hs' hroom'
    have hout : session.outputs o (ls ++ [.poll p.1 p.2]) =
        session.outputs o ls ++ (s.onPoll o p.1 p.2).2 := Machine.emitted_snoc hs hstep
    rw [h₁, h₂, hout, acks_append, hacks, hqueue, List.append_assoc]
    exact ⟨rfl, rfl⟩

/-- **Every second acknowledgement.**  `k` polls with enough space that leave the connection empty
the queue exactly if it is shorter than `2 ^ k`. -/
theorem polls_drain_iff {o : Options} {ls : List SessionLabel} {s s' : Session}
    {ps : List (ℕ × List ℕ)} (hs : (session o).run ls = some s)
    (hs' : (session o).run (ls ++ polls ps) = some s') (hroom : Roomy s ps)
    (hconn : s'.connected = true) :
    s'.toSendAcks = [] ↔ s.toSendAcks.length < 2 ^ ps.length := by
  rw [(polls_rounds hs hs' hroom hconn).2]
  exact odds_iterate_eq_nil_iff

theorem polls_drain_iff_burst :
    (Session.mk true false false 8 0 0 [] [] 1).toSendAcks = [] ↔ answers.length < 2 ^ 2 := by
  have hrun : (session Options.sensor).run (burst ++ polls twice) =
      some ⟨true, false, false, 8, 0, 0, [], [], 1⟩ := by decide
  exact polls_drain_iff (s := ⟨true, false, false, 0, 0, 0, [], answers, 1⟩) (by decide) hrun
    (by unfold Roomy; decide) rfl

/-- **The order.**  If such polls empty a queue of distinct acknowledgements, they send them in the
order of the queue exactly if there were at most two. -/
theorem polls_ordered_iff {o : Options} {ls : List SessionLabel} {s s' : Session}
    {ps : List (ℕ × List ℕ)} (hs : (session o).run ls = some s)
    (hs' : (session o).run (ls ++ polls ps) = some s') (hroom : Roomy s ps)
    (hconn : s'.connected = true) (hempty : s'.toSendAcks = []) (hnodup : s.toSendAcks.Nodup) :
    acks (session.outputs o (ls ++ polls ps)) = acks (session.outputs o ls) ++ s.toSendAcks ↔
      s.toSendAcks.length ≤ 2 := by
  obtain ⟨hacks, hqueue⟩ := polls_rounds hs hs' hroom hconn
  rw [hempty, eq_comm, odds_iterate_eq_nil_iff] at hqueue
  rw [hacks, List.append_cancel_left_eq]
  exact rounds_eq_iff hqueue hnodup

/-- The second message is acknowledged last. -/
theorem polls_ordered_iff_burst :
    acks (session.outputs Options.sensor (burst ++ polls twice)) =
        acks (session.outputs Options.sensor burst) ++ answers ↔ answers.length ≤ 2 := by
  have hrun : (session Options.sensor).run (burst ++ polls twice) =
      some ⟨true, false, false, 8, 0, 0, [], [], 1⟩ := by decide
  exact polls_ordered_iff (s := ⟨true, false, false, 0, 0, 0, [], answers, 1⟩) (by decide) hrun
    (by unfold Roomy; decide) rfl rfl (by decide)

end Session

end AsyncMqtt

end MqttServerTest
