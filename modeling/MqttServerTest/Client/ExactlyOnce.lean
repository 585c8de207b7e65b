import MqttServerTest.Client.Steps
import MqttServerTest.Spec.Handshake
import Mathlib.Data.List.Nodup

/-!
# Quality of service 2

`_pendingPubRels` holds the packet ids of the messages that wait for their release.

* `Session.deliveries_eq` : for every packet id, over every run, the client delivers what a receiver
  with one bit for this id delivers; the end of the connection releases every id.
* `Session.exactly_once` : since the last disconnection, every message has been delivered exactly
  once, however often it has been sent, and whatever else has happened between its parts.
-/

namespace MqttServerTest

namespace AsyncMqtt

/-- What an event is for the messages with this packet id. -/
def ClientEvent.sent (packetId : ℕ) : ClientEvent → List (Sent ClientOutput)
  | .message topic payload 2 dup retain index total i =>
    if i = packetId then [.part (.onMessage topic payload 2 dup retain index total)] else []
  | .publish i 2 => if i = packetId then [.complete] else []
  | .ack .pubRel i => if i = packetId then [.release] else []
  | _ => []

/-- What a step is for the messages with this packet id. -/
def SessionLabel.sent (packetId : ℕ) : SessionLabel → List (Sent ClientOutput)
  | .event e _ _ => e.sent packetId
  | _ => []

/-- A part of a message of quality of service 2 with this packet id. -/
def SessionLabel.isPart (packetId : ℕ) : SessionLabel → Bool
  | .event (.message _ _ qos _ _ _ _ i) _ _ => qos = 2 ∧ i = packetId
  | _ => false

/-- Another message. -/
theorem ClientEvent.sent_message_of_not {packetId : ℕ} {topic payload : List UInt8} {qos : ℕ}
    {dup retain : Bool} {index total i : ℕ} (h : ¬ (qos = 2 ∧ i = packetId)) :
    (ClientEvent.message topic payload qos dup retain index total i).sent packetId = [] := by
  unfold sent
  split
  · rename_i heq
    simp only [ClientEvent.message.injEq] at heq
    obtain ⟨-, -, rfl, -, -, -, -, rfl⟩ := heq
    exact if_neg fun hi => h ⟨rfl, hi⟩
  · rename_i heq
    exact absurd heq (by simp)
  · rename_i heq
    exact absurd heq (by simp)
  · rfl

namespace Session

/-- What a step is for this packet id; the end of the connection is a release. -/
def sentIn (packetId : ℕ) (l : SessionLabel) (os : List ClientOutput) : List (Sent ClientOutput) :=
  l.sent packetId ++ if disconnects os then [.release] else []

/-- What a step delivers of the messages with this packet id. -/
def deliveredIn (packetId : ℕ) (l : SessionLabel) (os : List ClientOutput) : List ClientOutput :=
  if l.isPart packetId then messages os else []

/-- What has been sent with this packet id in the run `ls`. -/
def sents (o : Options) (packetId : ℕ) (ls : List SessionLabel) : List (Sent ClientOutput) :=
  (session o).outputs (fun s l => match s.exec o l with
    | some (_, os) => sentIn packetId l os
    | none => []) ls

/-- What has been delivered of the messages with this packet id in the run `ls`. -/
def deliveries (o : Options) (packetId : ℕ) (ls : List SessionLabel) : List ClientOutput :=
  (session o).outputs (fun s l => match s.exec o l with
    | some (_, os) => deliveredIn packetId l os
    | none => []) ls

/-! ### The loop of `_onPubRel` -/

theorem eraseLoop_of_not_mem {packetId : ℕ} {ids : List ℕ} (h : packetId ∉ ids) (n i : ℕ) :
    eraseLoop packetId n i ids = ids := by
  induction n generalizing i with
  | zero => rfl
  | succ n ih =>
    have hne : ids[i]? ≠ some packetId := fun he => h (List.mem_of_getElem? he)
    rw [eraseLoop]
    split
    · exact ih (i + 1)
    · rfl

/-- The loop at the end of `pre`. -/
theorem eraseLoop_append {packetId : ℕ} (pre ids : List ℕ) (hnodup : (pre ++ ids).Nodup)
    (hpre : packetId ∉ pre) :
    eraseLoop packetId ids.length pre.length (pre ++ ids) = pre ++ ids.erase packetId := by
  induction ids generalizing pre with
  | nil => rfl
  | cons a ids ih =>
    have hlt : pre.length < (pre ++ a :: ids).length := by simp
    have hget : (pre ++ a :: ids)[pre.length]? = some a := by simp
    rw [List.length_cons, eraseLoop, if_pos hlt, hget]
    split
    · -- there is no other one
      rename_i he
      cases he
      have hnot : packetId ∉ pre ++ ids := by
        rw [List.nodup_middle, List.nodup_cons] at hnodup
        exact hnodup.1
      rw [List.eraseIdx_append_of_length_le (Nat.le_refl _), Nat.sub_self, List.eraseIdx_zero,
        List.tail_cons, eraseLoop_of_not_mem hnot, List.erase_cons_head]
    · rename_i he
      have hne : a ≠ packetId := fun h => he (congrArg some h)
      have hnext := ih (pre ++ [a]) (by rwa [List.append_assoc]) (by simp [hpre, Ne.symm hne])
      rw [List.append_assoc, List.singleton_append, List.length_append, List.length_singleton]
        at hnext
      rw [hnext, List.erase_cons_tail (by simpa using hne), List.append_assoc,
        List.singleton_append]

theorem eraseLoop_eq {packetId : ℕ} {ids : List ℕ} (h : ids.Nodup) :
    eraseLoop packetId ids.length 0 ids = ids.erase packetId :=
  eraseLoop_append [] ids h List.not_mem_nil

/-! ### One step -/

/-- The step with the result `r` does to the bit of this packet id, and delivers, what the receiver
with one bit does and delivers. -/
structure Refines (packetId : ℕ) (s : Session) (l : SessionLabel)
    (r : Session × List ClientOutput) : Prop where
  nodup : r.1.pendingPubRels.Nodup
  waits : decide (packetId ∈ r.1.pendingPubRels) =
    Sent.waits (decide (packetId ∈ s.pendingPubRels)) (sentIn packetId l r.2)
  deliver : deliveredIn packetId l r.2 =
    Sent.deliver (decide (packetId ∈ s.pendingPubRels)) (sentIn packetId l r.2)

theorem Ended.refines {packetId : ℕ} {s : Session} {l : SessionLabel}
    {r : Session × List ClientOutput} (h : Ended s r) (hsent : l.sent packetId = [])
    (hpart : l.isPart packetId = false) : Refines packetId s l r := by
  obtain ⟨hd, he⟩ := h
  have hids : r.1.pendingPubRels = [] := by rw [he]; rfl
  constructor
  · rw [hids]; exact List.nodup_nil
  · simp [hids, sentIn, hsent, hd, Sent.waits]
  · simp [deliveredIn, hpart, sentIn, hsent, hd, Sent.deliver]

theorem Keeps.refines {packetId : ℕ} {s : Session} {l : SessionLabel}
    {r : Session × List ClientOutput} (h : Keeps s r) (hnodup : s.pendingPubRels.Nodup)
    (hsent : l.sent packetId = []) (hpart : l.isPart packetId = false) :
    Refines packetId s l r := by
  constructor
  · rw [h.pendingPubRels]; exact hnodup
  · simp [h.pendingPubRels, sentIn, hsent, h.goesOn, Sent.waits]
  · simp [deliveredIn, hpart, sentIn, hsent, h.goesOn, Sent.deliver]

theorem refines_message {packetId : ℕ} {s : Session} (hnodup : s.pendingPubRels.Nodup)
    (now : ℕ) (spaces : List ℕ) (topic payload : List UInt8) (qos : ℕ) (dup retain : Bool)
    (index total i : ℕ) :
    Refines packetId s (.event (.message topic payload qos dup retain index total i) now spaces)
      (s.handle now spaces (.message topic payload qos dup retain index total i)) := by
  have hd : disconnects (s.handle now spaces
      (.message topic payload qos dup retain index total i)).2 = false := by
    simp only [handle]
    split <;> rfl
  by_cases hpart : qos = 2 ∧ i = packetId
  · obtain ⟨rfl, rfl⟩ := hpart
    refine ⟨hnodup, ?_, ?_⟩
    · rw [sentIn, hd]
      simp [SessionLabel.sent, ClientEvent.sent, Sent.waits, handle]
    · rw [sentIn, hd]
      by_cases h : i ∈ s.pendingPubRels <;>
        simp [deliveredIn, SessionLabel.isPart, SessionLabel.sent, ClientEvent.sent, handle, h,
          messages, ClientOutput.isMessage, Sent.deliver]
  · refine Keeps.refines ⟨hd, rfl, rfl, rfl⟩ hnodup ?_ (decide_eq_false hpart)
    exact ClientEvent.sent_message_of_not hpart

theorem refines_publish {packetId : ℕ} {s : Session} (hnodup : s.pendingPubRels.Nodup)
    (now : ℕ) (spaces : List ℕ) (i : ℕ) :
    Refines packetId s (.event (.publish i 2) now spaces)
      (s.handle now spaces (.publish i 2)) := by
  have hd : disconnects (s.handle now spaces (.publish i 2)).2 = false :=
    disconnects_sendAcks _ now spaces
  have hids : (s.handle now spaces (.publish i 2)).1.pendingPubRels =
      if i ∈ s.pendingPubRels then s.pendingPubRels else s.pendingPubRels ++ [i] := rfl
  constructor
  · rw [hids]
    split
    · exact hnodup
    · rename_i h
      exact (List.nodup_append_comm.1 (List.nodup_cons.2 ⟨h, hnodup⟩))
  · rw [hids, sentIn, hd]
    by_cases hi : i = packetId
    · subst hi
      by_cases h : i ∈ s.pendingPubRels <;>
        simp [h, SessionLabel.sent, ClientEvent.sent, Sent.waits]
    · have hne : packetId ≠ i := fun h => hi h.symm
      by_cases h : i ∈ s.pendingPubRels <;>
        simp [h, SessionLabel.sent, ClientEvent.sent, Sent.waits, hi, hne]
  · rw [sentIn, hd]
    by_cases hi : i = packetId <;>
      simp [deliveredIn, SessionLabel.isPart, SessionLabel.sent, ClientEvent.sent, hi, Sent.deliver]

theorem refines_pubRel {packetId : ℕ} {s : Session} (hnodup : s.pendingPubRels.Nodup)
    (now : ℕ) (spaces : List ℕ) (i : ℕ) :
    Refines packetId s (.event (.ack .pubRel i) now spaces)
      (s.handle now spaces (.ack .pubRel i)) := by
  have hd : disconnects (s.handle now spaces (.ack .pubRel i)).2 = false :=
    disconnects_sendAcks _ now spaces
  have hids : (s.handle now spaces (.ack .pubRel i)).1.pendingPubRels =
      s.pendingPubRels.erase i := eraseLoop_eq hnodup
  constructor
  · rw [hids]; exact hnodup.erase i
  · rw [hids, sentIn, hd]
    by_cases hi : i = packetId
    · subst hi
      simp [SessionLabel.sent, ClientEvent.sent, Sent.waits, hnodup.not_mem_erase]
    · have hne : packetId ≠ i := fun h => hi h.symm
      simp [SessionLabel.sent, ClientEvent.sent, Sent.waits, hi, List.mem_erase_of_ne hne]
  · rw [sentIn, hd]
    by_cases hi : i = packetId <;>
      simp [deliveredIn, SessionLabel.isPart, SessionLabel.sent, ClientEvent.sent, hi, Sent.deliver]

theorem refines_handle {packetId : ℕ} {s : Session} (hnodup : s.pendingPubRels.Nodup)
    (now : ℕ) (spaces : List ℕ) (e : ClientEvent) :
    Refines packetId s (.event e now spaces) (s.handle now spaces e) := by
  match e with
  | .message topic payload qos dup retain index total i =>
    exact refines_message hnodup now spaces topic payload qos dup retain index total i
  | .publish i 2 => exact refines_publish hnodup now spaces i
  | .ack .pubRel i => exact refines_pubRel hnodup now spaces i
  | .begins | .pingResp | .subAck _ _ | .ack .unsubAck _ | .ack .pubAck _ | .ack .pubComp _
  | .publish _ 0 | .publish _ 1 | .publish _ (_ + 3) =>
    exact ⟨hnodup, rfl, rfl⟩
  | .ack .pubRec i =>
    have hd := disconnects_sendAcks (s.push 6 2 i) now spaces
    exact Keeps.refines ⟨hd, rfl, rfl, rfl⟩ hnodup rfl rfl
  | .connAck sessionPresent code =>
    simp only [handle]
    split
    · exact ⟨hnodup, rfl, rfl⟩
    · exact Ended.refines ⟨rfl, rfl⟩ rfl rfl

theorem refines_exec {packetId : ℕ} {o : Options} {s : Session} {l : SessionLabel}
    {r : Session × List ClientOutput} (hnodup : s.pendingPubRels.Nodup)
    (h : s.exec o l = some r) : Refines packetId s l r := by
  by_cases hl : ∃ e now spaces, l = .event e now spaces
  · obtain ⟨e, now, spaces, rfl⟩ := hl
    cases h
    exact refines_handle hnodup now spaces e
  · have hl' : ∀ e now spaces, l ≠ .event e now spaces :=
      fun e now spaces he => hl ⟨e, now, spaces, he⟩
    have hnone : l.sent packetId = [] ∧ l.isPart packetId = false := by
      cases l with
      | event e now spaces => exact absurd rfl (hl' e now spaces)
      | _ => exact ⟨rfl, rfl⟩
    obtain h | h := ended_or_keeps h hl'
    · exact h.refines hnone.1 hnone.2
    · exact h.refines hnodup hnone.1 hnone.2

/-! ### Runs -/

/-- What holds after a run. -/
theorem refines_run {o : Options} {packetId : ℕ} {ls : List SessionLabel} {s : Session}
    (h : (session o).run ls = some s) :
    s.pendingPubRels.Nodup ∧
      decide (packetId ∈ s.pendingPubRels) = Sent.waits false (sents o packetId ls) ∧
      deliveries o packetId ls = Sent.deliver false (sents o packetId ls) := by
  refine Machine.run_induction (M := session o) (P := fun ls s => s.pendingPubRels.Nodup ∧
    decide (packetId ∈ s.pendingPubRels) = Sent.waits false (sents o packetId ls) ∧
    deliveries o packetId ls = Sent.deliver false (sents o packetId ls)) ?_ ?_ h
  · exact ⟨List.nodup_nil, rfl, rfl⟩
  · rintro ls s l s' hls ⟨hnodup, hwaits, hdeliver⟩ hst
    obtain ⟨os, hos⟩ := Machine.ofExec_step.1 hst
    have hstep : Refines packetId s l (s', os) := refines_exec hnodup hos
    have hsents : sents o packetId (ls ++ [l]) = sents o packetId ls ++ sentIn packetId l os := by
      rw [sents, Machine.outputs_snoc _ hls hst, hos]
      rfl
    have hdeliveries : deliveries o packetId (ls ++ [l]) =
        deliveries o packetId ls ++ deliveredIn packetId l os := by
      rw [deliveries, Machine.outputs_snoc _ hls hst, hos]
      rfl
    refine ⟨hstep.nodup, ?_, ?_⟩
    · rw [hsents, Sent.waits_append, ← hwaits]
      exact hstep.waits
    · rw [hsents, hdeliveries, Sent.deliver_append, hdeliver, ← hwaits]
      exact congrArg _ hstep.deliver

/-- **One bit for each packet id.** -/
theorem deliveries_eq {o : Options} {ls : List SessionLabel} {s : Session}
    (h : (session o).run ls = some s) (packetId : ℕ) :
    deliveries o packetId ls = Sent.deliver false (sents o packetId ls) :=
  (refines_run h).2.2

/-- A message of two parts with packet id 7, and again, in one part; another message in between. -/
def resent : List SessionLabel :=
  [.event (.connAck false 0) 1 [], .event (.message [116] [1] 2 false false 0 2 7) 2 [],
    .poll 3 [90], .event (.message [116] [2] 2 false false 1 2 7) 4 [],
    .event (.publish 7 2) 4 [90], .event (.message [116] [5] 2 false false 0 1 8) 5 [],
    .event (.publish 8 2) 5 [90], .event (.message [116] [1, 2] 2 true false 0 2 7) 6 [],
    .event (.publish 7 2) 6 [90], .event (.ack .pubRel 7) 7 [90]]

theorem deliveries_eq_resent :
    deliveries Options.sensor 7 resent = Sent.deliver false (sents Options.sensor 7 resent) :=
  deliveries_eq (s := ⟨true, false, false, 7, 0, 0, [8], [], 1⟩) (by decide) 7

/-- What has been delivered since the last disconnection. -/
theorem refines_since {o : Options} {packetId : ℕ} {ls : List SessionLabel} {s : Session}
    (h : (session o).run ls = some s) :
    s.pendingPubRels.Nodup ∧
      decide (packetId ∈ s.pendingPubRels) =
        Sent.waits false (session.since o (fun l _ => l.sent packetId) ls) ∧
      session.since o (deliveredIn packetId) ls =
        Sent.deliver false (session.since o (fun l _ => l.sent packetId) ls) := by
  refine Machine.run_induction (M := session o) (P := fun ls s => s.pendingPubRels.Nodup ∧
    decide (packetId ∈ s.pendingPubRels) =
      Sent.waits false (session.since o (fun l _ => l.sent packetId) ls) ∧
    session.since o (deliveredIn packetId) ls =
      Sent.deliver false (session.since o (fun l _ => l.sent packetId) ls)) ?_ ?_ h
  · exact ⟨List.nodup_nil, rfl, rfl⟩
  · rintro ls s l s' hls ⟨hnodup, hwaits, hdeliver⟩ hst
    obtain ⟨os, hos⟩ := Machine.ofExec_step.1 hst
    have hstep : Refines packetId s l (s', os) := refines_exec hnodup hos
    have hbit := hstep.waits
    have hmessages := hstep.deliver
    rw [session.since_snoc _ hls hos, session.since_snoc _ hls hos]
    dsimp only [sentIn] at hbit hmessages
    split
    · -- the end of the connection releases every id
      rename_i hd
      rw [if_pos hd, Sent.waits_append] at hbit
      exact ⟨hstep.nodup, hbit, rfl⟩
    · rename_i hd
      rw [if_neg hd, List.append_nil] at hbit hmessages
      refine ⟨hstep.nodup, ?_, ?_⟩
      · rw [Sent.waits_append, ← hwaits]
        exact hbit
      · rw [Sent.deliver_append, hdeliver, ← hwaits]
        exact congrArg _ hmessages

/-- **Exactly once.**  What the server has sent with a packet id of quality of service 2 since the
last disconnection consists of complete exchanges; other steps come in between. -/
theorem exactly_once {o : Options} {packetId : ℕ} {ls : List SessionLabel} {s : Session}
    {xs : List (Exchange ClientOutput)} (h : (session o).run ls = some s)
    (hsent : session.since o (fun l _ => l.sent packetId) ls = xs.flatMap Exchange.sent) :
    session.since o (deliveredIn packetId) ls = xs.flatMap Exchange.first := by
  rw [(refines_since h).2.2, hsent, Exchange.deliver_flatMap_sent]

/-- A connection ends with the packet id 7 in use. -/
def lost : List SessionLabel :=
  [.event (.connAck false 0) 1 [], .event (.message [116] [9] 2 false false 0 1 7) 1 [],
    .event (.publish 7 2) 1 [90], .tcpDisconnected]

theorem exactly_once_resent :
    session.since Options.sensor (deliveredIn 7) (lost ++ resent) =
      [.onMessage [116] [1] 2 false false 0 2, .onMessage [116] [2] 2 false false 1 2] := by
  have hsent : session.since Options.sensor (fun l _ => l.sent 7) (lost ++ resent) =
      List.flatMap Exchange.sent
        [⟨[.onMessage [116] [1] 2 false false 0 2, .onMessage [116] [2] 2 false false 1 2],
          [[.onMessage [116] [1, 2] 2 true false 0 2]], 0⟩] := by decide
  exact exactly_once (s := ⟨true, false, false, 7, 0, 0, [8], [], 1⟩) (by decide) hsent

end Session

end AsyncMqtt

end MqttServerTest
