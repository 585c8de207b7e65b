import MqttServerTest.Firmware.Reconnect

/-!
# The subscription to `return`

`setup()` calls `subscribe` once, after `connectToWifi`; the client sends a SUBSCRIBE only if it is
connected at that moment, and as the session is clean the broker forgets the subscription with the
connection.  `onMqttConnect` only prints.

The machine `client` adds to `firmware` the end of `setup()`, which runs in the task of the loop,
and the return of `onMqttConnect`, which the TCP task calls on a CONNACK.  `loop()` neither connects
nor subscribes, so it has no step.

## Main results

* `subscription_requested_iff` : the runs in which the subscription has been requested in every
  session once `onMqttConnect` has returned.
* `second_session_unsubscribed` : no run in which it returns twice is one of them.
-/

namespace MqttServerTest

/-- The firmware, and what it has told the broker on the current connection. -/
structure Client where
  firmware : Firmware
  /-- `setup()` is before its call of `subscribe`. -/
  inSetup : Bool
  /-- The TCP task is in `onMqttConnect`. -/
  inOnMqttConnect : Bool
  /-- A SUBSCRIBE for `return` has been sent on the current connection. -/
  subscribed : Bool
  deriving DecidableEq, Repr

/-- What happens next. -/
inductive ClientLabel where
  /-- A step of the reconnection logic. -/
  | act (a : Act)
  /-- `setup()` calls `mqttClient.subscribe("return", 1)` and returns. -/
  | subscribe
  /-- `onMqttConnect` returns. -/
  | returns
  deriving DecidableEq, Repr

/-- The step is one of the TCP task. -/
def Act.onTcpTask : Act → Bool
  | .accepted | .refused | .lost | .wait | .check | .startTimer => true
  | .wifi _ | .deliver _ | .wifiExpires | .mqttExpires => false

namespace Client

/-- `mqttClient.subscribe`.  As `loop` has not been called yet, the send buffer has room for the
SUBSCRIBE. -/
def subscribe (c : Client) : Client :=
  if c.firmware.connected then { c with subscribed := true } else c

/-- The reconnection logic has taken the step `a` to `f`.  A CONNACK starts a clean session. -/
def follow (c : Client) (a : Act) (f : Firmware) : Client :=
  if a = .accepted then { c with firmware := f, inOnMqttConnect := true, subscribed := false }
  else { c with firmware := f, subscribed := c.subscribed && f.connected }

/-- One step.  The TCP task does nothing else before `onMqttConnect` has returned. -/
def step (c : Client) : ClientLabel → Option Client
  | .act a =>
    if c.inOnMqttConnect ∧ a.onTcpTask then none else (c.firmware.step a).map (c.follow a)
  | .subscribe => if c.inSetup then some { c with inSetup := false }.subscribe else none
  | .returns => if c.inOnMqttConnect then some { c with inOnMqttConnect := false } else none

/-- `setup()` has called `connectToWifi`. -/
def init : Client := ⟨Firmware.setup, true, false, false⟩

/-- If the client is connected and `onMqttConnect` has returned, the subscription has been
requested. -/
def Requested (c : Client) : Prop :=
  c.firmware.connected = true → c.inOnMqttConnect = false → c.subscribed = true

end Client

/-- The firmware from the last line of `setup()` on. -/
def client : Machine Client ClientLabel := ⟨Client.init, Client.step⟩

/-- The steps since the last CONNACK. -/
def sinceConnack (ls : List ClientLabel) : List ClientLabel :=
  ls.reverse.takeWhile fun l => l ≠ .act .accepted

@[simp] theorem sinceConnack_accepted (ls : List ClientLabel) :
    sinceConnack (ls ++ [.act .accepted]) = [] := by
  simp [sinceConnack]

theorem sinceConnack_snoc {ls : List ClientLabel} {l : ClientLabel} (h : l ≠ .act .accepted) :
    sinceConnack (ls ++ [l]) = l :: sinceConnack ls := by
  simp [sinceConnack, h]

/-! ### What a step can do -/

/-- The steps of the client, case by case. -/
inductive ClientStep (c : Client) : ClientLabel → Client → Prop
  | accepted (f : Firmware) (hst : FirmwareStep c.firmware .accepted f)
      (hin : c.inOnMqttConnect = false) : ClientStep c (.act .accepted)
      { c with firmware := f, inOnMqttConnect := true, subscribed := false }
  | act (a : Act) (f : Firmware) (hst : FirmwareStep c.firmware a f) (ha : a ≠ .accepted)
      (hin : c.inOnMqttConnect = true → a.onTcpTask = false) : ClientStep c (.act a)
      { c with firmware := f, subscribed := c.subscribed && f.connected }
  | subscribe (hs : c.inSetup = true) : ClientStep c .subscribe { c with
      inSetup := false
      subscribed := c.subscribed || c.firmware.connected }
  | returns (hin : c.inOnMqttConnect = true) :
      ClientStep c .returns { c with inOnMqttConnect := false }

/-- **What a step can do.** -/
theorem clientStep_of_step {c c' : Client} {l : ClientLabel} (h : c.step l = some c') :
    ClientStep c l c' := by
  cases l with
  | act a =>
    simp only [Client.step] at h
    split_ifs at h with hin
    obtain ⟨f, hf, rfl⟩ := Option.map_eq_some_iff.1 h
    have hst := firmwareStep_of_step hf
    have htask : c.inOnMqttConnect = true → a.onTcpTask = false := fun hc =>
      eq_false_of_ne_true fun ha => hin ⟨hc, ha⟩
    by_cases ha : a = .accepted
    · subst ha
      have hin' : c.inOnMqttConnect = false :=
        eq_false_of_ne_true fun hc => Bool.noConfusion (htask hc)
      rw [Client.follow, if_pos rfl]
      exact .accepted f hst hin'
    · rw [Client.follow, if_neg ha]
      exact .act a f hst ha htask
  | subscribe =>
    simp only [Client.step] at h
    split_ifs at h with hs
    have hc : { c with inSetup := false }.subscribe =
        { c with inSetup := false, subscribed := c.subscribed || c.firmware.connected } := by
      cases hm : c.firmware.connected <;> simp [Client.subscribe, hm]
    rw [← Option.some.inj h, hc]
    exact .subscribe hs
  | returns =>
    simp only [Client.step] at h
    split_ifs at h with hin
    rw [← Option.some.inj h]
    exact .returns hin

/-- Only a CONNACK connects the client. -/
theorem FirmwareStep.connected_of {f f' : Firmware} {a : Act} (h : FirmwareStep f a f')
    (ha : a ≠ .accepted) (hm : f'.connected = true) : f.connected = true := by
  cases h with
  | accepted => exact absurd rfl ha
  | deliver e =>
    cases e with
    | gotIp =>
      simp only [Firmware.wifiEvent, Firmware.connectToMqtt] at hm
      split_ifs at hm <;> exact hm
    | disconnected => exact hm
  | wifiExpires =>
    simp only [Firmware.connectToWifi] at hm
    split_ifs at hm <;> exact hm
  | mqttExpires =>
    simp only [Firmware.connectToMqtt] at hm
    split_ifs at hm <;> exact hm
  | refused => cases hm
  | lost => cases hm
  | _ => exact hm

/-- Only the TCP task disconnects the client. -/
theorem FirmwareStep.connected_keeps {f f' : Firmware} {a : Act} (h : FirmwareStep f a f')
    (ha : a.onTcpTask = false) (hm : f.connected = true) : f'.connected = true := by
  cases h with
  | wifi => exact hm
  | deliver e =>
    cases e with
    | gotIp => simp only [Firmware.wifiEvent, Firmware.connectToMqtt, hm, if_true]
    | disconnected => exact hm
  | wifiExpires =>
    simp only [Firmware.connectToWifi]
    split_ifs <;> exact hm
  | mqttExpires => simp only [Firmware.connectToMqtt, hm, if_true]
  | _ => cases ha

/-! ### The firmware and its subscription -/

/-- The step of the reconnection logic, if it is one. -/
def ClientLabel.act? : ClientLabel → Option Act
  | .act a => some a
  | _ => none

/-- The steps of the reconnection logic are a run of `firmware`. -/
theorem firmware_of_client {ls : List ClientLabel} {c : Client} (h : client.run ls = some c) :
    firmware.run (ls.filterMap ClientLabel.act?) = some c.firmware := by
  refine Machine.run_induction (M := client)
    (P := fun ls c => firmware.run (ls.filterMap ClientLabel.act?) = some c.firmware) rfl ?_ h
  intro ls c l c' _ ih hst
  have hst : c.step l = some c' := hst
  rw [List.filterMap_append]
  cases l with
  | act a =>
    simp only [Client.step] at hst
    split_ifs at hst
    obtain ⟨f, hf, rfl⟩ := Option.map_eq_some_iff.1 hst
    have hfollow : (c.follow a f).firmware = f := by
      unfold Client.follow
      split_ifs <;> rfl
    rw [hfollow]
    exact Machine.run_snoc.2 ⟨c.firmware, ih, hf⟩
  | subscribe =>
    cases clientStep_of_step hst
    exact (congrArg firmware.run (List.append_nil _)).trans ih
  | returns =>
    cases clientStep_of_step hst
    exact (congrArg firmware.run (List.append_nil _)).trans ih

/-- What the client knows after the steps `ls`. -/
structure Client.Follows (ls : List ClientLabel) (c : Client) : Prop where
  /-- The connection lasts while `onMqttConnect` runs. -/
  running : c.inOnMqttConnect = true → c.firmware.connected = true
  subscribed : c.firmware.connected = true →
    (c.subscribed = true ↔ .subscribe ∈ sinceConnack ls)

theorem Client.Follows.step {ls : List ClientLabel} {c c' : Client} {l : ClientLabel}
    (h : c.Follows ls) (hst : ClientStep c l c') : c'.Follows (ls ++ [l]) := by
  cases hst with
  | accepted f hf =>
    refine ⟨fun _ => ?_, fun _ => ?_⟩
    · cases hf; rfl
    · simp
  | act a f hf ha hin =>
    have hne : ClientLabel.act a ≠ .act .accepted := fun he => ha (ClientLabel.act.inj he)
    refine ⟨fun hc => hf.connected_keeps (hin hc) (h.running hc), fun hm => ?_⟩
    have hm' : f.connected = true := hm
    rw [sinceConnack_snoc hne, List.mem_cons, ← h.subscribed (hf.connected_of ha hm)]
    simp [hm']
  | subscribe =>
    refine ⟨h.running, fun hm => ?_⟩
    have hm' : c.firmware.connected = true := hm
    rw [sinceConnack_snoc ClientLabel.noConfusion]
    simp [hm']
  | returns =>
    refine ⟨fun hc => Bool.noConfusion hc, fun hm => ?_⟩
    rw [sinceConnack_snoc ClientLabel.noConfusion, List.mem_cons, ← h.subscribed hm]
    simp

theorem Client.Follows.of_run {ls : List ClientLabel} {c : Client} (h : client.run ls = some c) :
    c.Follows ls := by
  refine Machine.run_induction (M := client) (P := fun ls c => c.Follows ls) ?_ ?_ h
  · exact ⟨fun hin => Bool.noConfusion hin, fun hm => Bool.noConfusion hm⟩
  · intro ls c l c' _ hf hst
    exact hf.step (clientStep_of_step hst)

/-! ### The sessions that are subscribed -/

/-- Whenever `onMqttConnect` returns along `ls`, `setup()` has called `subscribe` since the
CONNACK. -/
def SubscribesInTime (ls : List ClientLabel) : Prop :=
  ∀ ks, ks ++ [.returns] <+: ls → .subscribe ∈ sinceConnack ks

theorem subscribesInTime_snoc {ls : List ClientLabel} {l : ClientLabel} :
    SubscribesInTime (ls ++ [l]) ↔
      SubscribesInTime ls ∧ (l = .returns → .subscribe ∈ sinceConnack ls) := by
  constructor
  · intro h
    refine ⟨fun ks hks => h ks (hks.trans (List.prefix_append _ _)), ?_⟩
    rintro rfl
    exact h ls List.prefix_rfl
  · rintro ⟨hls, hl⟩ ks hks
    rcases List.prefix_concat_iff.1 hks with he | hks
    · obtain ⟨rfl, hreturns⟩ := List.append_inj' he rfl
      exact hl (List.singleton_inj.1 hreturns).symm
    · exact hls ks hks

/-- Only the return of an `onMqttConnect` can show that the subscription has not been requested. -/
theorem Client.Follows.requested_iff {ls : List ClientLabel} {c c' : Client} {l : ClientLabel}
    (h : c.Follows ls) (hr : c.Requested) (hst : ClientStep c l c') :
    c'.Requested ↔ (l = .returns → .subscribe ∈ sinceConnack ls) := by
  cases hst with
  | accepted f hf => exact iff_of_true (fun _ hin => Bool.noConfusion hin) ClientLabel.noConfusion
  | act a f hf ha hin =>
    refine iff_of_true (fun hm hin' => ?_) ClientLabel.noConfusion
    have hm' : f.connected = true := hm
    have hs := hr (hf.connected_of ha hm) hin'
    simp [hs, hm']
  | subscribe =>
    refine iff_of_true (fun hm _ => ?_) ClientLabel.noConfusion
    have hm' : c.firmware.connected = true := hm
    simp [hm']
  | returns hin =>
    have hm := h.running hin
    rw [← h.subscribed hm]
    exact ⟨fun hc' _ => hc' hm rfl, fun hs _ _ => hs rfl⟩

theorem always_requested_iff {ls : List ClientLabel} {c : Client} (h : client.run ls = some c) :
    client.Always Client.Requested ls ↔ SubscribesInTime ls := by
  refine Machine.run_induction (M := client)
    (P := fun ls _ => client.Always Client.Requested ls ↔ SubscribesInTime ls) ?_ ?_ h
  · refine iff_of_true (Machine.always_nil fun hm => Bool.noConfusion hm) fun ks hks => ?_
    exact absurd (List.prefix_nil.1 hks) (by simp)
  · intro ls c l c' hls ih hst
    have hrun : client.run (ls ++ [l]) = some c' := Machine.run_snoc.2 ⟨c, hls, hst⟩
    rw [Machine.always_snoc hrun, subscribesInTime_snoc, ← ih]
    refine and_congr_right fun ha => ?_
    exact (Client.Follows.of_run hls).requested_iff (ha.last hls) (clientStep_of_step hst)

/-- **When the subscription is requested.**  In every state along a run where the client is
connected and `onMqttConnect` has returned, a SUBSCRIBE has been sent on the current connection, if
and only if `setup()` calls `subscribe` between each CONNACK and the return of its
`onMqttConnect`. -/
theorem subscription_requested_iff {ls : List ClientLabel} {c : Client}
    (h : client.run ls = some c) :
    (∀ ks c', ks <+: ls → client.run ks = some c' → c'.firmware.connected = true →
      c'.inOnMqttConnect = false → c'.subscribed = true) ↔ SubscribesInTime ls :=
  always_requested_iff h

/-- The CONNACK arrives before `setup()` calls `subscribe`. -/
def earlyConnackRun : List ClientLabel :=
  [.act (.wifi .gotIp), .act (.deliver .gotIp), .act .accepted, .subscribe, .returns]

theorem subscription_requested_early : ∃ c, client.run earlyConnackRun = some c ∧
    ((∀ ks c', ks <+: earlyConnackRun → client.run ks = some c' → c'.firmware.connected = true →
      c'.inOnMqttConnect = false → c'.subscribed = true) ↔ SubscribesInTime earlyConnackRun) :=
  ⟨_, rfl, @subscription_requested_iff earlyConnackRun _ rfl⟩

/-- The CONNACK arrives after `setup()` has called `subscribe`. -/
def lateConnackRun : List ClientLabel :=
  [.subscribe, .act (.wifi .gotIp), .act (.deliver .gotIp), .act .accepted, .returns]

theorem subscription_not_requested : ¬ ∀ ls c, client.run ls = some c →
    c.firmware.connected = true → c.inOnMqttConnect = false → c.subscribed = true := by
  intro h
  exact absurd (h lateConnackRun _ rfl rfl rfl) Bool.noConfusion

/-! ### More than one session -/

/-- `setup()` calls `subscribe` at most once. -/
theorem count_subscribe {ls : List ClientLabel} {c : Client} (h : client.run ls = some c) :
    ls.count .subscribe + c.inSetup.toNat = 1 := by
  refine Machine.run_induction (M := client)
    (P := fun ls c => ls.count .subscribe + c.inSetup.toNat = 1) rfl ?_ h
  intro ls c l c' _ ih hst
  rw [List.count_append]
  cases clientStep_of_step hst with
  | accepted => simpa using ih
  | act => simpa using ih
  | subscribe hs =>
    rw [hs] at ih
    simpa using ih
  | returns => simpa using ih

/-- Sessions whose subscription is requested in time have a call of `subscribe` each. -/
theorem count_returns {ls : List ClientLabel} {c : Client} (h : client.run ls = some c)
    (ht : SubscribesInTime ls) :
    ls.count .returns ≤ ls.count .subscribe ∧ (c.inOnMqttConnect = true →
      ls.count .returns + (sinceConnack ls).count .subscribe ≤ ls.count .subscribe) := by
  revert ht
  refine Machine.run_induction (M := client) (P := fun ls c => SubscribesInTime ls →
    ls.count .returns ≤ ls.count .subscribe ∧ (c.inOnMqttConnect = true →
      ls.count .returns + (sinceConnack ls).count .subscribe ≤ ls.count .subscribe)) ?_ ?_ h
  · exact fun _ => ⟨Nat.le_refl _, fun hin => Bool.noConfusion hin⟩
  intro ls c l c' _ ih hst ht
  obtain ⟨ht, hl⟩ := subscribesInTime_snoc.1 ht
  obtain ⟨hle, hrunning⟩ := ih ht
  rw [List.count_append, List.count_append]
  cases clientStep_of_step hst with
  | accepted => simpa using hle
  | act a f hf ha =>
    have hne : ClientLabel.act a ≠ .act .accepted := fun he => ha (ClientLabel.act.inj he)
    rw [sinceConnack_snoc hne]
    simpa using ⟨hle, hrunning⟩
  | subscribe =>
    rw [sinceConnack_snoc ClientLabel.noConfusion]
    refine ⟨?_, fun hin => ?_⟩
    · simpa using Nat.le_succ_of_le hle
    · have hr := hrunning hin
      simp only [ne_eq, reduceCtorEq, not_false_eq_true, List.count_cons_of_ne, List.count_nil,
        List.count_cons_self]
      omega
  | returns hin =>
    -- the call of `subscribe` in this session has not been counted yet
    have hpos : 0 < (sinceConnack ls).count .subscribe := List.count_pos_iff.2 (hl rfl)
    have hr := hrunning hin
    refine ⟨?_, fun hf => Bool.noConfusion hf⟩
    simp only [List.count_cons_self, List.count_nil, ne_eq, reduceCtorEq, not_false_eq_true,
      List.count_cons_of_ne]
    omega

/-- **A second session is never subscribed.**  If `onMqttConnect` returns twice along a run, some
state of the run is connected without the subscription having been requested. -/
theorem second_session_unsubscribed {ls : List ClientLabel} {c : Client}
    (h : client.run ls = some c) (htwo : 2 ≤ ls.count .returns) :
    ¬ client.Always Client.Requested ls := by
  intro ha
  have hle := (count_returns h ((always_requested_iff h).1 ha)).1
  have hone := count_subscribe h
  omega

end MqttServerTest
