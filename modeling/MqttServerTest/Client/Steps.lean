import MqttServerTest.Client.Session

/-!
# What a step of the session can change

`_onPoll` and `disconnect` are put together of a few parts; what holds of the parts and can be
composed holds of them (`Session.Stepwise`).  A step that is not an event of the parser ends the
connection, or leaves what only the server decides (`Session.ended_or_keeps`).

`session.since` : what the steps of a run have contributed since the last disconnection.
-/

namespace MqttServerTest

namespace AsyncMqtt

/-- The acknowledgement that is handed to TCP. -/
def ClientOutput.ack? : ClientOutput → Option PendingAck
  | .handedAck a => some a
  | _ => none

def ClientOutput.isDisconnect : ClientOutput → Bool
  | .onDisconnect _ => true
  | _ => false

def ClientOutput.isMessage : ClientOutput → Bool
  | .onMessage .. => true
  | _ => false

/-- The acknowledgements that are handed to TCP. -/
def acks (os : List ClientOutput) : List PendingAck := os.filterMap ClientOutput.ack?

/-- The connection ends. -/
def disconnects (os : List ClientOutput) : Bool := os.any ClientOutput.isDisconnect

/-- What is delivered to the user. -/
def messages (os : List ClientOutput) : List ClientOutput := os.filter ClientOutput.isMessage

@[simp] theorem acks_append (os os' : List ClientOutput) : acks (os ++ os') = acks os ++ acks os' :=
  List.filterMap_append

@[simp] theorem disconnects_append (os os' : List ClientOutput) :
    disconnects (os ++ os') = (disconnects os || disconnects os') := List.any_append

@[simp] theorem acks_map_handedAck (as : List PendingAck) :
    acks (as.map .handedAck) = as := by
  induction as with
  | nil => rfl
  | cons a as ih => exact congrArg (a :: ·) ih

@[simp] theorem disconnects_map_handedAck (as : List PendingAck) :
    disconnects (as.map .handedAck) = false := by
  induction as with
  | nil => rfl
  | cons a as ih => exact ih

/-- What the steps since the last disconnection have contributed, as a history variable. -/
def sinceEnd {α : Type*} (o : Options) (f : SessionLabel → List ClientOutput → List α)
    (xs : List α) (s : Session) (l : SessionLabel) : List α :=
  match s.exec o l with
  | some (_, os) => if disconnects os then [] else xs ++ f l os
  | none => xs

/-- What the steps of the run `ls` have contributed since the last disconnection. -/
def session.since {α : Type*} (o : Options) (f : SessionLabel → List ClientOutput → List α)
    (ls : List SessionLabel) : List α :=
  (session o).history (sinceEnd o f) [] ls

section Since

variable {α β : Type*} {o : Options} {ls : List SessionLabel} {s s' : Session} {l : SessionLabel}
  {os : List ClientOutput}

theorem session.since_snoc (f : SessionLabel → List ClientOutput → List α)
    (hls : (session o).run ls = some s) (hst : s.exec o l = some (s', os)) :
    session.since o f (ls ++ [l]) =
      if disconnects os then [] else session.since o f ls ++ f l os := by
  rw [since, Machine.history_snoc _ _ hls (Machine.ofExec_step.2 ⟨os, hst⟩), sinceEnd, hst]
  rfl

/-- What every step tells by `k` is told by all of them. -/
theorem session.since_flatMap {f : SessionLabel → List ClientOutput → List β}
    {g : SessionLabel → List ClientOutput → List α} {k : α → List β}
    (h : ∀ l os, f l os = (g l os).flatMap k) (hls : (session o).run ls = some s) :
    session.since o f ls = (session.since o g ls).flatMap k := by
  refine Machine.run_induction (M := session o)
    (P := fun ls _ => session.since o f ls = (session.since o g ls).flatMap k) rfl ?_ hls
  intro ls s l s' hls ih hst
  obtain ⟨os, hos⟩ := Machine.ofExec_step.1 hst
  rw [since_snoc f hls hos, since_snoc g hls hos, ih, h]
  split
  · rfl
  · exact List.flatMap_append.symm

end Since

/-- The parser calls. -/
def SessionLabel.isEvent : SessionLabel → Bool
  | .event .. => true
  | _ => false

namespace Session

/-- A relation between a state and the result of a step that can be composed, and that the parts of
`_onPoll` and of `disconnect` satisfy, but for the ping. -/
structure Stepwise (P : Session → Session × List ClientOutput → Prop) : Prop where
  nothing : ∀ s, P s (s, [])
  trans : ∀ {s t os r}, P s (t, os) → disconnects os = false → P t r → P s (r.1, os ++ r.2)
  flag : ∀ s, P s ({ s with disconnectFlagged := true }, [])
  acks : ∀ s now spaces, P s (s.sendAcks now spaces)
  bytes : ∀ s, P s (s, [.handed [[0xE0, 0]]])
  ends : ∀ s, P s s.onDisconnect

theorem disconnects_sendPing (s : Session) (now space : ℕ) :
    disconnects (s.sendPing now space).2 = false := by
  unfold sendPing
  split <;> rfl

@[simp] theorem disconnects_sendAcks (s : Session) (now : ℕ) (spaces : List ℕ) :
    disconnects (s.sendAcks now spaces).2 = false := by simp [sendAcks]

namespace Stepwise

variable {P : Session → Session × List ClientOutput → Prop} (hP : Stepwise P)

include hP

theorem sendDisconnect (s : Session) (space : ℕ) : P s (s.sendDisconnect space) := by
  unfold Session.sendDisconnect
  split
  · exact hP.nothing s
  · exact hP.trans (hP.bytes s) rfl (hP.ends s)

theorem disconnect (s : Session) (force isOpen : Bool) (space : ℕ) :
    P s (s.disconnect force isOpen space) := by
  unfold Session.disconnect
  split
  · exact hP.nothing s
  split
  · split
    · exact hP.ends s
    · exact hP.nothing s
  · exact hP.trans (hP.flag s) rfl (hP.sendDisconnect _ space)

theorem finishPoll (s : Session) (now : ℕ) (spaces : List ℕ) : P s (s.finishPoll now spaces) := by
  unfold Session.finishPoll
  dsimp only
  split
  · exact hP.trans (hP.acks s now spaces) (disconnects_sendAcks s now spaces)
      (hP.sendDisconnect _ _)
  · exact hP.acks s now spaces

theorem onPoll {o : Options} {s : Session} {now : ℕ} (spaces : List ℕ)
    (hping : pingDue o s now → P s (s.sendPing now (spaces.headD 0))) :
    P s (s.onPoll o now spaces) := by
  unfold Session.onPoll
  split
  · exact hP.nothing s
  split
  · exact hP.disconnect s false true _
  split
  · rename_i hdue
    exact hP.trans (hping hdue) (disconnects_sendPing s now _) (hP.finishPoll _ now _)
  · exact hP.finishPoll s now spaces

end Stepwise

/-- The connection ends. -/
def Ended (s : Session) (r : Session × List ClientOutput) : Prop :=
  disconnects r.2 = true ∧ r.1 = { s.clear with lastClientActivity := r.1.lastClientActivity }

/-- The connection goes on, if there is one, and nothing has come from the server. -/
structure Keeps (s : Session) (r : Session × List ClientOutput) : Prop where
  goesOn : disconnects r.2 = false
  connected : r.1.connected = s.connected
  lastServerActivity : r.1.lastServerActivity = s.lastServerActivity
  pendingPubRels : r.1.pendingPubRels = s.pendingPubRels

theorem Keeps.trans {s t : Session} {os : List ClientOutput} {r : Session × List ClientOutput}
    (h : Keeps s (t, os)) (hr : Keeps t r) : Keeps s (r.1, os ++ r.2) where
  goesOn := by rw [disconnects_append, h.goesOn, hr.goesOn]; rfl
  connected := hr.connected.trans h.connected
  lastServerActivity := hr.lastServerActivity.trans h.lastServerActivity
  pendingPubRels := hr.pendingPubRels.trans h.pendingPubRels

/-- What ends after steps that keep has ended. -/
theorem Ended.of_keeps {s t : Session} {os : List ClientOutput}
    {r : Session × List ClientOutput} (h : Keeps s (t, os)) (hr : Ended t r) :
    Ended s (r.1, os ++ r.2) := by
  refine ⟨by rw [disconnects_append, hr.1, Bool.or_true], ?_⟩
  obtain ⟨-, hr⟩ := hr
  simp only [clear] at hr ⊢
  rw [hr, h.lastServerActivity]

/-- What TCP asks for, and the connection goes on. -/
structure Polled (s : Session) (r : Session × List ClientOutput) : Prop where
  goesOn : disconnects r.2 = false
  state : r.1 = { s with
    lastClientActivity := r.1.lastClientActivity
    lastPingRequestTime := r.1.lastPingRequestTime
    toSendAcks := r.1.toSendAcks
    disconnectFlagged := r.1.disconnectFlagged }

theorem Polled.keeps {s : Session} {r : Session × List ClientOutput} (h : Polled s r) :
    Keeps s r where
  goesOn := h.goesOn
  connected := by rw [h.state]
  lastServerActivity := by rw [h.state]
  pendingPubRels := by rw [h.state]

theorem Polled.trans {s t : Session} {os : List ClientOutput} {r : Session × List ClientOutput}
    (h : Polled s (t, os)) (hr : Polled t r) : Polled s (r.1, os ++ r.2) := by
  refine ⟨by rw [disconnects_append, h.goesOn, hr.goesOn]; rfl, ?_⟩
  have ht := h.state
  have hstate := hr.state
  dsimp only at ht ⊢
  rw [ht] at hstate
  rw [hstate]

theorem stepwise_polled : Stepwise fun s r => Ended s r ∨ Polled s r where
  nothing s := .inr ⟨rfl, rfl⟩
  trans h hd hr := by
    obtain ⟨h, -⟩ | h := h
    · exact absurd (h.symm.trans hd) Bool.noConfusion
    · exact hr.imp (Ended.of_keeps h.keeps) h.trans
  flag s := .inr ⟨rfl, rfl⟩
  acks s now spaces := .inr ⟨disconnects_sendAcks s now spaces, rfl⟩
  bytes s := .inr ⟨rfl, rfl⟩
  ends s := .inl ⟨rfl, rfl⟩

theorem polled_sendPing (s : Session) (now space : ℕ) : Polled s (s.sendPing now space) := by
  unfold sendPing
  split <;> exact ⟨rfl, rfl⟩

theorem ended_or_polled_onPoll (o : Options) (s : Session) (now : ℕ) (spaces : List ℕ) :
    Ended s (s.onPoll o now spaces) ∨ Polled s (s.onPoll o now spaces) :=
  stepwise_polled.onPoll spaces fun _ => .inr (polled_sendPing s now _)

/-- A step of the user, who may send a packet with a new packet id. -/
structure Quiet (s : Session) (r : Session × List ClientOutput) : Prop where
  state : r.1 = { s with
    lastClientActivity := r.1.lastClientActivity
    nextPacketId := r.1.nextPacketId }
  acks : acks r.2 = []
  goesOn : disconnects r.2 = false

theorem quiet_publish (s : Session) (c : PublishCall) (now space : ℕ) :
    Quiet s (s.publish c now space) := by
  unfold publish
  split
  · exact ⟨rfl, rfl, rfl⟩
  split
  · exact ⟨rfl, rfl, rfl⟩
  split
  · dsimp only
    split <;> exact ⟨rfl, rfl, rfl⟩
  · exact ⟨rfl, rfl, rfl⟩

theorem quiet_subscribe (s : Session) (topic : List UInt8) (qos now space : ℕ) :
    Quiet s (s.subscribe topic qos now space) := by
  unfold subscribe
  dsimp only
  split
  · exact ⟨rfl, rfl, rfl⟩
  split <;> exact ⟨rfl, rfl, rfl⟩

theorem quiet_unsubscribe (s : Session) (topic : List UInt8) (now space : ℕ) :
    Quiet s (s.unsubscribe topic now space) := by
  unfold unsubscribe
  dsimp only
  split
  · exact ⟨rfl, rfl, rfl⟩
  split <;> exact ⟨rfl, rfl, rfl⟩

theorem quiet_connect (s : Session) : Quiet s (s, if s.connected then [] else [.connects]) := by
  constructor
  · rfl
  all_goals dsimp only; split <;> rfl

theorem Quiet.keeps {s : Session} {r : Session × List ClientOutput} (h : Quiet s r) :
    Keeps s r where
  goesOn := h.goesOn
  connected := by rw [h.state]
  lastServerActivity := by rw [h.state]
  pendingPubRels := by rw [h.state]

/-- A step that is not an event of the parser. -/
theorem ended_or_keeps {o : Options} {s : Session} {l : SessionLabel}
    {r : Session × List ClientOutput} (h : s.exec o l = some r)
    (hl : ∀ e now spaces, l ≠ .event e now spaces) : Ended s r ∨ Keeps s r := by
  cases l with
  | event e now spaces => exact absurd rfl (hl e now spaces)
  | poll now spaces => cases h; exact (ended_or_polled_onPoll o s now spaces).imp_right (·.keeps)
  | publish c now space => cases h; exact .inr (quiet_publish s c now space).keeps
  | subscribe topic qos now space =>
    cases h; exact .inr (quiet_subscribe s topic qos now space).keeps
  | unsubscribe topic now space => cases h; exact .inr (quiet_unsubscribe s topic now space).keeps
  | connect => cases h; exact .inr (quiet_connect s).keeps
  | disconnect force isOpen space =>
    cases h; exact (stepwise_polled.disconnect s force isOpen space).imp_right (·.keeps)
  | tcpConnected now space =>
    cases h
    unfold onConnect
    split
    · exact .inl ⟨rfl, rfl⟩
    · exact .inr ⟨rfl, rfl, rfl, rfl⟩
  | tcpDisconnected => cases h; exact .inl ⟨rfl, rfl⟩

/-- Only the server makes a connection. -/
theorem keeps_of_connected {o : Options} {s : Session} {l : SessionLabel}
    {r : Session × List ClientOutput} (h : s.exec o l = some r) (hl : l.isEvent = false)
    (hr : r.1.connected = true) : Keeps s r := by
  have hne : ∀ e now spaces, l ≠ .event e now spaces := by
    rintro e now spaces rfl
    cases hl
  obtain ⟨-, he⟩ | hk := ended_or_keeps h hne
  · rw [he] at hr
    cases hr
  · exact hk

theorem connected_of_silent {o : Options} {ls : List SessionLabel} {s s' : Session}
    (h : (session o).runFrom s ls = some s') (hl : ∀ l ∈ ls, l.isEvent = false)
    (hconn : s'.connected = true) : s.connected = true := by
  induction ls generalizing s with
  | nil => cases h; exact hconn
  | cons l ls ih =>
    obtain ⟨t, ht, hrest⟩ := Machine.runFrom_cons.1 h
    obtain ⟨os, hos⟩ := Machine.ofExec_step.1 ht
    have htc := ih hrest fun k hk => hl k (List.mem_cons_of_mem _ hk)
    rw [← (keeps_of_connected hos (hl l List.mem_cons_self) htc).connected]
    exact htc

end Session

end AsyncMqtt

end MqttServerTest
