import MqttServerTest.Machine.Basic
import Mathlib.Data.Nat.Notation
import Mathlib.Data.List.Infix

/-!
# The connections of the firmware

The reconnection logic of `MQTT/src/main.cpp`: two one-shot timers, the handler of the Wi-Fi events
and the callback of the MQTT client.  They run in three tasks, which the machine `firmware`
interleaves; `onMqttDisconnect` is divided at its calls of `connected` and `isConnected`.  What the
Wi-Fi, the broker and the clock do is in the labels.

A Wi-Fi event is delivered some time after `WiFi.isConnected()` has changed, in order.

## Main results

* `reconnection_pending` : whatever is down, something that will bring it up again is pending.
* `one_attempt_iff` : when two connection attempts can be in flight.
-/

namespace MqttServerTest

/-- The events that the handler distinguishes. -/
inductive WiFiEvent where
  /-- `SYSTEM_EVENT_STA_GOT_IP` -/
  | gotIp
  /-- `SYSTEM_EVENT_STA_DISCONNECTED` -/
  | disconnected
  deriving DecidableEq, Repr

/-- Where the TCP task is in `onMqttDisconnect`. -/
inductive Callback where
  /-- Not in it. -/
  | idle
  /-- In the loop that waits for `connected()` to become false. -/
  | waiting
  /-- At the call of `WiFi.isConnected()`. -/
  | checking
  /-- At the call of `xTimerStart`. -/
  | starting
  deriving DecidableEq, Repr

/-- The firmware, its Wi-Fi and its MQTT client. -/
structure Firmware where
  /-- `WiFi.isConnected()` -/
  wifiUp : Bool
  /-- A `WiFi.begin` is in progress. -/
  beginning : Bool
  /-- The events still to be delivered. -/
  events : List WiFiEvent
  /-- `mqttClient.connected()` -/
  connected : Bool
  /-- The number of connection attempts in flight. -/
  attempts : ℕ
  mqttReconnectTimer : Bool
  wifiReconnectTimer : Bool
  callback : Callback
  deriving DecidableEq, Repr

/-- What happens next. -/
inductive Act where
  /-- The Wi-Fi goes up or down. -/
  | wifi (event : WiFiEvent)
  /-- `WiFiEvent` is called. -/
  | deliver (event : WiFiEvent)
  /-- `wifiReconnectTimer` expires. -/
  | wifiExpires
  /-- `mqttReconnectTimer` expires. -/
  | mqttExpires
  /-- The broker accepts an attempt. -/
  | accepted
  /-- An attempt fails; `onMqttDisconnect` is called. -/
  | refused
  /-- The connection is lost; `onMqttDisconnect` is called. -/
  | lost
  /-- `onMqttDisconnect` calls `connected()`. -/
  | wait
  /-- `onMqttDisconnect` calls `WiFi.isConnected()`. -/
  | check
  /-- `onMqttDisconnect` calls `xTimerStart`. -/
  | startTimer
  deriving DecidableEq, Repr

namespace Firmware

/-- `connectToWifi`.  A `WiFi.begin` has no effect while the Wi-Fi is up. -/
def connectToWifi (f : Firmware) : Firmware :=
  if f.wifiUp then f else { f with beginning := true }

/-- `connectToMqtt`.  It is an assumption of the model that a call starts an attempt whenever the
client is not connected; `AsyncClient::connect` starts none as long as its `_pcb` is set. -/
def connectToMqtt (f : Firmware) : Firmware :=
  if f.connected then f else { f with attempts := f.attempts + 1 }

/-- `WiFiEvent` -/
def wifiEvent (f : Firmware) : WiFiEvent → Firmware
  | .gotIp => f.connectToMqtt
  | .disconnected => { f with mqttReconnectTimer := false, wifiReconnectTimer := true }

/-- `setup` -/
def setup : Firmware :=
  connectToWifi ⟨false, false, [], false, 0, false, false, .idle⟩

/-- One step.  A `WiFi.begin` is no longer in progress once an event has happened or has been
delivered. -/
def step (f : Firmware) : Act → Option Firmware
  | .wifi e =>
    some { f with wifiUp := e = .gotIp, events := f.events ++ [e], beginning := false }
  | .deliver e => match f.events with
    | e' :: events =>
      if e' = e then some ({ f with events, beginning := false }.wifiEvent e) else none
    | [] => none
  | .wifiExpires =>
    if f.wifiReconnectTimer then some { f with wifiReconnectTimer := false }.connectToWifi
    else none
  | .mqttExpires =>
    if f.mqttReconnectTimer then some { f with mqttReconnectTimer := false }.connectToMqtt
    else none
  | .accepted =>
    if 0 < f.attempts ∧ f.callback = .idle then
      some { f with attempts := f.attempts - 1, connected := true }
    else none
  | .refused =>
    if 0 < f.attempts ∧ f.callback = .idle then
      some { f with attempts := f.attempts - 1, connected := false, callback := .waiting }
    else none
  | .lost =>
    if f.connected ∧ f.callback = .idle then
      some { f with connected := false, callback := .waiting }
    else none
  | .wait =>
    if f.callback = .waiting then
      some (if f.connected then f else { f with callback := .checking })
    else none
  | .check =>
    if f.callback = .checking then
      some { f with callback := if f.wifiUp then .starting else .idle }
    else none
  | .startTimer =>
    if f.callback = .starting then some { f with mqttReconnectTimer := true, callback := .idle }
    else none

end Firmware

/-- The firmware after `setup()`. -/
def firmware : Machine Firmware Act := ⟨Firmware.setup, Firmware.step⟩

/-! ### What a step can do -/

/-- The steps of the firmware, case by case. -/
inductive FirmwareStep (f : Firmware) : Act → Firmware → Prop
  | wifi (e : WiFiEvent) : FirmwareStep f (.wifi e)
      { f with wifiUp := e = .gotIp, events := f.events ++ [e], beginning := false }
  | deliver (e : WiFiEvent) (es : List WiFiEvent) (he : f.events = e :: es) :
      FirmwareStep f (.deliver e) ({ f with events := es, beginning := false }.wifiEvent e)
  | wifiExpires (ht : f.wifiReconnectTimer = true) :
      FirmwareStep f .wifiExpires { f with wifiReconnectTimer := false }.connectToWifi
  | mqttExpires (ht : f.mqttReconnectTimer = true) :
      FirmwareStep f .mqttExpires { f with mqttReconnectTimer := false }.connectToMqtt
  | accepted (ha : 0 < f.attempts) (hc : f.callback = .idle) :
      FirmwareStep f .accepted { f with attempts := f.attempts - 1, connected := true }
  | refused (ha : 0 < f.attempts) (hc : f.callback = .idle) : FirmwareStep f .refused
      { f with attempts := f.attempts - 1, connected := false, callback := .waiting }
  | lost (hm : f.connected = true) (hc : f.callback = .idle) :
      FirmwareStep f .lost { f with connected := false, callback := .waiting }
  | wait (hc : f.callback = .waiting) (hm : f.connected = true) : FirmwareStep f .wait f
  | leave (hc : f.callback = .waiting) (hm : f.connected = false) :
      FirmwareStep f .wait { f with callback := .checking }
  | giveUp (hc : f.callback = .checking) (hup : f.wifiUp = false) :
      FirmwareStep f .check { f with callback := .idle }
  | goOn (hc : f.callback = .checking) (hup : f.wifiUp = true) :
      FirmwareStep f .check { f with callback := .starting }
  | startTimer (hc : f.callback = .starting) :
      FirmwareStep f .startTimer { f with mqttReconnectTimer := true, callback := .idle }

/-- **What a step can do.** -/
theorem firmwareStep_of_step {f f' : Firmware} {a : Act} (h : f.step a = some f') :
    FirmwareStep f a f' := by
  cases a with
  | wifi e => cases h; exact .wifi e
  | deliver e =>
    simp only [Firmware.step] at h
    split at h
    · rename_i e' es he
      split_ifs at h with hee
      subst hee
      cases h; exact .deliver e' es he
    · cases h
  | wifiExpires =>
    simp only [Firmware.step] at h
    split_ifs at h with ht
    cases h; exact .wifiExpires ht
  | mqttExpires =>
    simp only [Firmware.step] at h
    split_ifs at h with ht
    cases h; exact .mqttExpires ht
  | accepted =>
    simp only [Firmware.step] at h
    split_ifs at h with hc
    cases h; exact .accepted hc.1 hc.2
  | refused =>
    simp only [Firmware.step] at h
    split_ifs at h with hc
    cases h; exact .refused hc.1 hc.2
  | lost =>
    simp only [Firmware.step] at h
    split_ifs at h with hc
    cases h; exact .lost hc.1 hc.2
  | wait =>
    simp only [Firmware.step] at h
    split_ifs at h with hc hm <;> cases h
    · exact .wait hc hm
    · exact .leave hc (eq_false_of_ne_true hm)
  | check =>
    simp only [Firmware.step] at h
    split_ifs at h with hc hup <;> cases h
    · exact .goOn hc hup
    · exact .giveUp hc (eq_false_of_ne_true hup)
  | startTimer =>
    simp only [Firmware.step] at h
    split_ifs at h with hc
    cases h; exact .startTimer hc

/-! ### Something is always pending -/

namespace Firmware

/-- The event that says whether the Wi-Fi is up. -/
def current (f : Firmware) : WiFiEvent := if f.wifiUp then .gotIp else .disconnected

/-- Whatever is down, something that will bring it up again is pending. -/
structure Pending (f : Firmware) : Prop where
  /-- The last event still to be delivered is the current one. -/
  latest : f.events ≠ [] → f.events.getLast? = some f.current
  wifi : f.wifiUp = false →
    f.beginning = true ∨ f.wifiReconnectTimer = true ∨ .disconnected ∈ f.events
  mqtt : f.wifiUp = true → f.connected = false →
    0 < f.attempts ∨ f.mqttReconnectTimer = true ∨ f.callback ≠ .idle ∨ .gotIp ∈ f.events

namespace Pending

variable {f f' : Firmware} {a : Act} {e : WiFiEvent} {es : List WiFiEvent}

theorem setup : Pending Firmware.setup where
  latest h := absurd rfl h
  wifi _ := Or.inl rfl
  mqtt h := Bool.noConfusion h

/-- An event that is not the current one is followed by the current one. -/
theorem current_mem (h : f.Pending) (he : f.events = e :: es) (hne : e ≠ f.current) :
    f.current ∈ es := by
  have hlast := h.latest (by rw [he]; exact List.cons_ne_nil _ _)
  rw [he] at hlast
  -- were it the last one, it would be the current one
  cases es with
  | nil => exact absurd (Option.some.inj hlast) hne
  | cons e' es =>
    rw [List.getLast?_cons_cons] at hlast
    exact List.mem_of_getLast? hlast

theorem latest_tail (h : f.Pending) (he : f.events = e :: es) (hne : es ≠ []) :
    es.getLast? = some f.current := by
  have hlast := h.latest (by rw [he]; exact List.cons_ne_nil _ _)
  rwa [he, List.getLast?_cons_of_ne_nil hne] at hlast

/-- The Wi-Fi goes up or down: its event is to be delivered. -/
theorem wifi_step (e : WiFiEvent) :
    Pending { f with wifiUp := e = .gotIp, events := f.events ++ [e], beginning := false } where
  latest _ := by
    rw [List.getLast?_append_of_ne_nil _ (List.cons_ne_nil _ _)]
    cases e <;> rfl
  wifi hup := by
    refine Or.inr (Or.inr (List.mem_append_right _ ?_))
    cases e with
    | gotIp => cases hup
    | disconnected => exact List.mem_singleton_self _
  mqtt hup _ := by
    refine Or.inr (Or.inr (Or.inr (List.mem_append_right _ ?_)))
    cases e with
    | gotIp => exact List.mem_singleton_self _
    | disconnected => cases hup

/-- `STA_DISCONNECTED` starts `wifiReconnectTimer`.  It stops `mqttReconnectTimer`, but if the Wi-Fi
is up again a `GOT_IP` is still to be delivered. -/
theorem deliver_disconnected (h : f.Pending) (he : f.events = .disconnected :: es) :
    ({ f with events := es, beginning := false }.wifiEvent .disconnected).Pending where
  latest hne := h.latest_tail he hne
  wifi _ := Or.inr (Or.inl rfl)
  mqtt hup _ := by
    have hup' : f.wifiUp = true := hup
    have hcur : f.current = .gotIp := by rw [current, hup']; rfl
    have hmem := h.current_mem he (by rw [hcur]; exact WiFiEvent.noConfusion)
    rw [hcur] at hmem
    exact Or.inr (Or.inr (Or.inr hmem))

/-- `GOT_IP` starts an attempt, unless the client counts as connected. -/
theorem deliver_gotIp (h : f.Pending) (he : f.events = .gotIp :: es) :
    ({ f with events := es, beginning := false }.wifiEvent .gotIp).Pending := by
  have hwifi : f.wifiUp = false → .disconnected ∈ es := by
    intro hup
    have hcur : f.current = .disconnected := by rw [current, hup]; rfl
    have hmem := h.current_mem he (by rw [hcur]; exact WiFiEvent.noConfusion)
    rwa [hcur] at hmem
  simp only [wifiEvent, Firmware.connectToMqtt]
  split_ifs with hm
  · exact ⟨h.latest_tail he, fun hup => Or.inr (Or.inr (hwifi hup)),
      fun _ hf => absurd (hm.symm.trans hf) Bool.noConfusion⟩
  · exact ⟨h.latest_tail he, fun hup => Or.inr (Or.inr (hwifi hup)), fun _ _ =>
      Or.inl (Nat.succ_pos _)⟩

/-- An expired `wifiReconnectTimer` is followed by a `WiFi.begin`. -/
theorem connectToWifi (h : f.Pending) :
    ({ f with wifiReconnectTimer := false }.connectToWifi).Pending := by
  simp only [Firmware.connectToWifi]
  split_ifs with hup
  · exact ⟨h.latest, fun hf => absurd (hup.symm.trans hf) Bool.noConfusion, h.mqtt⟩
  · exact ⟨h.latest, fun _ => Or.inl rfl, h.mqtt⟩

/-- An expired `mqttReconnectTimer` is followed by an attempt, unless the client counts as
connected. -/
theorem connectToMqtt (h : f.Pending) :
    ({ f with mqttReconnectTimer := false }.connectToMqtt).Pending := by
  simp only [Firmware.connectToMqtt]
  split_ifs with hm
  · exact ⟨h.latest, h.wifi, fun _ hf => absurd (hm.symm.trans hf) Bool.noConfusion⟩
  · exact ⟨h.latest, h.wifi, fun _ _ => Or.inl (Nat.succ_pos _)⟩

/-- A step that leaves the TCP task inside `onMqttDisconnect`. -/
theorem running (h : f.Pending) {callback : Callback} (hc : callback ≠ .idle) (attempts : ℕ)
    (connected : Bool) : Pending { f with attempts, connected, callback } :=
  ⟨h.latest, h.wifi, fun _ _ => Or.inr (Or.inr (Or.inl hc))⟩

theorem step (h : f.Pending) (hst : FirmwareStep f a f') : f'.Pending := by
  cases hst with
  | wifi e => exact wifi_step e
  | deliver e es he =>
    cases e with
    | gotIp => exact h.deliver_gotIp he
    | disconnected => exact h.deliver_disconnected he
  | wifiExpires => exact h.connectToWifi
  | mqttExpires => exact h.connectToMqtt
  | accepted => exact ⟨h.latest, h.wifi, fun _ hf => Bool.noConfusion hf⟩
  | refused => exact h.running Callback.noConfusion _ _
  | lost => exact h.running Callback.noConfusion _ _
  | wait => exact h
  | leave => exact h.running Callback.noConfusion _ _
  | goOn => exact h.running Callback.noConfusion _ _
  | giveUp _ hup =>
    -- the client is called again by the next `GOT_IP`
    exact ⟨h.latest, h.wifi, fun hf => absurd (hup.symm.trans hf) Bool.noConfusion⟩
  | startTimer => exact ⟨h.latest, h.wifi, fun _ _ => Or.inr (Or.inl rfl)⟩

end Pending

end Firmware

/-- **The firmware is never stuck.**  In every reachable state, if the Wi-Fi is down, a `WiFi.begin`
is in progress, or `wifiReconnectTimer` is active, or a `STA_DISCONNECTED` is still to be delivered;
if the Wi-Fi is up and the client is not connected, an attempt is in flight, or
`mqttReconnectTimer` is active, or `onMqttDisconnect` is running, or a `GOT_IP` is still to be
delivered. -/
theorem reconnection_pending {f : Firmware} (h : firmware.Reachable f) :
    (f.wifiUp = false →
      f.beginning = true ∨ f.wifiReconnectTimer = true ∨ .disconnected ∈ f.events) ∧
    (f.wifiUp = true → f.connected = false →
      0 < f.attempts ∨ f.mqttReconnectTimer = true ∨ f.callback ≠ .idle ∨ .gotIp ∈ f.events) := by
  have hp : f.Pending := by
    refine h.invariant Firmware.Pending.setup ?_
    intro f a f' _ hI hst
    exact hI.step (firmwareStep_of_step hst)
  exact ⟨hp.wifi, hp.mqtt⟩

/-- The connection is lost with the Wi-Fi, and `onMqttDisconnect` starts its timer after
`STA_DISCONNECTED` has stopped it. -/
def flapRun : List Act :=
  [.wifi .gotIp, .deliver .gotIp, .accepted, .lost, .wait, .check, .wifi .disconnected,
    .deliver .disconnected, .startTimer, .wifiExpires, .wifi .gotIp, .deliver .gotIp, .refused]

theorem reconnection_pending_flap : ∃ f, firmware.run flapRun = some f ∧
    (f.wifiUp = false →
      f.beginning = true ∨ f.wifiReconnectTimer = true ∨ .disconnected ∈ f.events) ∧
    (f.wifiUp = true → f.connected = false →
      0 < f.attempts ∨ f.mqttReconnectTimer = true ∨ f.callback ≠ .idle ∨ .gotIp ∈ f.events) :=
  ⟨_, rfl, reconnection_pending ⟨flapRun, rfl⟩⟩

/-! ### How many attempts are in flight -/

/-- In no state along the run `as` are two attempts in flight. -/
def OneAttempt (as : List Act) : Prop :=
  ∀ bs f, bs <+: as → firmware.run bs = some f → f.attempts ≤ 1

/-- An attempt is accepted or fails, or the connection is lost. -/
def Act.isOutcome : Act → Bool
  | .accepted | .refused | .lost => true
  | _ => false

/-- The Wi-Fi events and the expiries of `mqttReconnectTimer` leave each attempt its time. -/
structure Unhurried (as : List Act) : Prop where
  /-- A `GOT_IP` that is delivered while the client is not connected is the only one up to the next
  outcome, and the timer does not expire, before it or after it. -/
  gotIp : ∀ pre mid f, pre ++ mid <+: as → firmware.run pre = some f → f.connected = false →
    (∀ a ∈ mid, a.isOutcome = false) → .deliver .gotIp ∈ mid →
      mid.count (.deliver .gotIp) = 1 ∧ mid.count .mqttExpires = 0
  /-- A timer that is still active while `onMqttDisconnect` is running does not expire twice up to
  the next outcome. -/
  timer : ∀ pre mid f, pre ++ mid <+: as → firmware.run pre = some f → f.connected = false →
    (∀ a ∈ mid, a.isOutcome = false) → f.mqttReconnectTimer = true → f.callback ≠ .idle →
      mid.count .mqttExpires ≤ 1

theorem Unhurried.mono {as bs : List Act} (h : Unhurried as) (hle : bs <+: as) : Unhurried bs where
  gotIp pre mid f hp := h.gotIp pre mid f (hp.trans hle)
  timer pre mid f hp := h.timer pre mid f (hp.trans hle)

namespace Firmware

/-- What the steps `as`, without an outcome, make of `f` while the client is not connected. -/
structure Waits (f : Firmware) (as : List Act) (g : Firmware) : Prop where
  connected : g.connected = false
  attempts : g.attempts = f.attempts + (as.count (.deliver .gotIp) + as.count .mqttExpires)
  callback : g.callback ≠ .idle → f.callback ≠ .idle
  /-- The timer is started at the end of `onMqttDisconnect`. -/
  timer : g.mqttReconnectTimer = true → f.mqttReconnectTimer = true ∨ g.callback = .idle
  /-- It can expire again if it has been active all the time that `onMqttDisconnect` took. -/
  again : 0 < as.count .mqttExpires → g.mqttReconnectTimer = true ∨ g.callback ≠ .idle →
    f.mqttReconnectTimer = true ∧ f.callback ≠ .idle

namespace Waits

variable {f g g' : Firmware} {as : List Act} {a : Act}

theorem refl (hc : f.connected = false) : f.Waits [] f where
  connected := hc
  attempts := rfl
  callback h := h
  timer h := Or.inl h
  again h := absurd h (Nat.lt_irrefl 0)

/-- A step that concerns neither the attempts nor the timer. -/
theorem keep (h : f.Waits as g) (hcount : (as ++ [a]).count (.deliver .gotIp) =
      as.count (.deliver .gotIp) ∧ (as ++ [a]).count .mqttExpires = as.count .mqttExpires)
    (hconn : g'.connected = g.connected) (hatt : g'.attempts = g.attempts)
    (htimer : g'.mqttReconnectTimer = true → g.mqttReconnectTimer = true)
    (hcb : g'.callback ≠ .idle → g.callback ≠ .idle)
    (hidle : g.callback = .idle → g'.callback = .idle) : f.Waits (as ++ [a]) g' where
  connected := hconn.trans h.connected
  attempts := by rw [hatt, hcount.1, hcount.2, h.attempts]
  callback hc := h.callback (hcb hc)
  timer ht := (h.timer (htimer ht)).imp_right hidle
  again hpos hg := by
    rw [hcount.2] at hpos
    exact h.again hpos (hg.imp htimer hcb)

/-- `GOT_IP` starts an attempt. -/
theorem gotIp {es : List WiFiEvent} (h : f.Waits as g) : f.Waits (as ++ [.deliver .gotIp])
    ({ g with events := es, beginning := false }.wifiEvent .gotIp) := by
  have hcount : (as ++ [Act.deliver .gotIp]).count .mqttExpires = as.count .mqttExpires := by
    simp
  have heq : ({ g with events := es, beginning := false }.wifiEvent .gotIp) =
      { g with events := es, beginning := false, attempts := g.attempts + 1 } := by
    simp only [wifiEvent, Firmware.connectToMqtt, h.connected, Bool.false_eq_true, ↓reduceIte]
  rw [heq]
  refine ⟨h.connected, ?_, h.callback, h.timer, fun hpos hg => h.again (hcount ▸ hpos) hg⟩
  rw [hcount, List.count_append, List.count_singleton_self]
  show g.attempts + 1 = _
  rw [h.attempts]
  omega

/-- The timer expires and starts an attempt: it has been active from the beginning, or
`onMqttDisconnect` is over. -/
theorem expires (h : f.Waits as g) (ht : g.mqttReconnectTimer = true) :
    f.Waits (as ++ [.mqttExpires]) { g with mqttReconnectTimer := false }.connectToMqtt := by
  have hcount : (as ++ [Act.mqttExpires]).count (.deliver .gotIp) =
      as.count (.deliver .gotIp) := by
    simp
  have heq : { g with mqttReconnectTimer := false }.connectToMqtt =
      { g with mqttReconnectTimer := false, attempts := g.attempts + 1 } := by
    simp only [Firmware.connectToMqtt, h.connected, Bool.false_eq_true, ↓reduceIte]
  rw [heq]
  refine ⟨h.connected, ?_, h.callback, fun hf => Bool.noConfusion hf, fun _ hg => ?_⟩
  · rw [hcount, List.count_append, List.count_singleton_self]
    show g.attempts + 1 = _
    rw [h.attempts]
    omega
  · have hcb : g.callback ≠ .idle := hg.resolve_left fun hf => Bool.noConfusion hf
    exact ⟨(h.timer ht).resolve_right hcb, h.callback hcb⟩

/-- `onMqttDisconnect` starts the timer. -/
theorem startTimer (h : f.Waits as g) (hc : g.callback = .starting) :
    f.Waits (as ++ [.startTimer]) { g with mqttReconnectTimer := true, callback := .idle } := by
  have hcb : g.callback ≠ .idle := by
    rw [hc]
    exact Callback.noConfusion
  refine ⟨h.connected, by simpa using h.attempts, fun hf => absurd rfl hf, fun _ => Or.inr rfl,
    fun hpos _ => h.again (by simpa using hpos) (Or.inr hcb)⟩

theorem step (h : f.Waits as g) (hst : FirmwareStep g a g') (ha : a.isOutcome = false) :
    f.Waits (as ++ [a]) g' := by
  cases hst with
  | deliver e es he =>
    cases e with
    | gotIp => exact h.gotIp
    | disconnected =>
      exact h.keep (by simp) rfl rfl (fun hf => Bool.noConfusion hf) id id
  | wifiExpires ht =>
    have heq : ∀ x : Firmware, x.connectToWifi.connected = x.connected ∧
        x.connectToWifi.attempts = x.attempts ∧
        x.connectToWifi.mqttReconnectTimer = x.mqttReconnectTimer ∧
        x.connectToWifi.callback = x.callback := by
      intro x
      simp only [Firmware.connectToWifi]
      split_ifs <;> exact ⟨rfl, rfl, rfl, rfl⟩
    obtain ⟨hconn, hatt, htimer, hcb⟩ := heq { g with wifiReconnectTimer := false }
    exact h.keep (by simp) hconn hatt (fun h => htimer ▸ h) (fun h => hcb ▸ h)
      (fun h => hcb.trans h)
  | mqttExpires ht => exact h.expires ht
  | wifi e => exact h.keep (by simp) rfl rfl id id id
  | wait hc hm => exact h.keep (by simp) rfl rfl id id id
  | leave hc hm =>
    exact h.keep (by simp) rfl rfl id (fun _ hf => by rw [hc] at hf; cases hf)
      (fun hf => by rw [hc] at hf; cases hf)
  | giveUp hc => exact h.keep (by simp) rfl rfl id (fun hf => absurd rfl hf) fun _ => rfl
  | goOn hc =>
    exact h.keep (by simp) rfl rfl id (fun _ hf => by rw [hc] at hf; cases hf)
      (fun hf => by rw [hc] at hf; cases hf)
  | startTimer hc => exact h.startTimer hc
  | accepted => cases ha
  | refused => cases ha
  | lost => cases ha

theorem of_runFrom (hc : f.connected = false) (hm : ∀ a ∈ as, a.isOutcome = false)
    (h : firmware.runFrom f as = some g) : f.Waits as g := by
  refine Machine.runFrom_induction (M := firmware)
    (P := fun as g => (∀ a ∈ as, a.isOutcome = false) → f.Waits as g) (fun _ => refl hc) ?_ h hm
  intro as g a g' _ ih hst hm
  exact (ih fun b hb => hm b (List.mem_append_left _ hb)).step (firmwareStep_of_step hst)
    (hm a (by simp))

end Waits

/-- An accepted client has no attempt in flight; one that is not connected has waited since its
last attempt has been decided. -/
structure Single (as : List Act) (f : Firmware) : Prop where
  attempts : f.attempts ≤ 1
  online : f.connected = true → f.attempts = 0
  offline : f.connected = false → ∃ pre mid f₀, as = pre ++ mid ∧ firmware.run pre = some f₀ ∧
    f₀.connected = false ∧ f₀.attempts = 0 ∧ (∀ a ∈ mid, a.isOutcome = false) ∧ f₀.Waits mid f

namespace Single

variable {as : List Act} {f f' : Firmware} {a : Act}

/-- An attempt has just been decided, or the connection lost. -/
theorem decided (h : firmware.run as = some f) (hatt : f.attempts = 0) : Single as f where
  attempts := hatt ▸ Nat.zero_le 1
  online _ := hatt
  offline hc := ⟨as, [], f, (List.append_nil _).symm, h, hc, hatt, by simp, .refl hc⟩

/-- While the client is connected nothing happens to the attempts. -/
theorem connected (h : Single as f) (hc : f.connected = true) (hst : FirmwareStep f a f')
    (ha : a.isOutcome = false) : Single (as ++ [a]) f' := by
  have hzero := h.online hc
  have heq : f'.connected = true ∧ f'.attempts = 0 := by
    cases hst with
    | deliver e es he =>
      cases e with
      | gotIp => simp [wifiEvent, Firmware.connectToMqtt, hc, hzero]
      | disconnected => exact ⟨hc, hzero⟩
    | mqttExpires => simp [Firmware.connectToMqtt, hc, hzero]
    | wifiExpires =>
      simp only [Firmware.connectToWifi]
      split_ifs <;> exact ⟨hc, hzero⟩
    | accepted => cases ha
    | refused => cases ha
    | lost => cases ha
    | _ => exact ⟨hc, hzero⟩
  exact ⟨heq.2 ▸ Nat.zero_le 1, fun _ => heq.2, fun hf => absurd (heq.1.symm.trans hf) nofun⟩

/-- While the client waits, a second attempt would have to be started by a `GOT_IP` or by a timer
that has been active all the time. -/
theorem waits (h : Single as f) (hu : Unhurried (as ++ [a])) (hc : f.connected = false)
    (hst : FirmwareStep f a f') (ha : a.isOutcome = false) : Single (as ++ [a]) f' := by
  obtain ⟨pre, mid, f₀, rfl, hpre, hc₀, hzero, hm, hw⟩ := h.offline hc
  have hw' := hw.step hst ha
  have hm' : ∀ b ∈ mid ++ [a], b.isOutcome = false := by
    intro b hb
    rcases List.mem_append.1 hb with hb | hb
    · exact hm b hb
    · exact List.mem_singleton.1 hb ▸ ha
  have hp : pre ++ (mid ++ [a]) <+: pre ++ mid ++ [a] := by rw [List.append_assoc]
  refine ⟨?_, fun hf => absurd (hw'.connected.symm.trans hf) nofun,
    fun _ => ⟨pre, mid ++ [a], f₀, List.append_assoc _ _ _, hpre, hc₀, hzero, hm', hw'⟩⟩
  have hatt := h.attempts
  rw [hw.attempts, hzero] at hatt
  rw [hw'.attempts, hzero]
  by_cases hg : .deliver .gotIp ∈ mid ++ [a]
  · have honly := hu.gotIp pre (mid ++ [a]) f₀ hp hpre hc₀ hm' hg
    omega
  · rw [List.count_eq_zero.2 hg, Nat.zero_add, Nat.zero_add]
    by_cases hexp : a = .mqttExpires
    · subst hexp
      rcases Nat.eq_zero_or_pos (mid.count .mqttExpires) with hz | hpos
      · rw [List.count_append, hz]; rfl
      · have ht : f.mqttReconnectTimer = true := by cases hst with | mqttExpires ht => exact ht
        obtain ⟨ht₀, hcb₀⟩ := hw.again hpos (Or.inl ht)
        exact hu.timer pre _ f₀ hp hpre hc₀ hm' ht₀ hcb₀
    · rw [List.count_append, List.count_singleton, if_neg (by simpa using hexp)]
      omega

theorem step (h : Single as f) (hrun : firmware.run as = some f) (hu : Unhurried (as ++ [a]))
    (hst : firmware.step f a = some f') : Single (as ++ [a]) f' := by
  have hrun' : firmware.run (as ++ [a]) = some f' := Machine.run_snoc.2 ⟨f, hrun, hst⟩
  have hs := firmwareStep_of_step hst
  cases ha : a.isOutcome with
  | true =>
    refine decided hrun' ?_
    have hle := h.attempts
    cases hs with
    | accepted hpos => exact Nat.sub_eq_zero_of_le hle
    | refused hpos => exact Nat.sub_eq_zero_of_le hle
    | lost hm => exact h.online hm
    | _ => cases ha
  | false =>
    cases hc : f.connected with
    | true => exact h.connected hc hs ha
    | false => exact h.waits hu hc hs ha

theorem of_run (h : firmware.run as = some f) (hu : Unhurried as) : Single as f := by
  refine Machine.run_induction (M := firmware) (P := fun as f => Unhurried as → Single as f)
    (fun _ => decided rfl rfl) ?_ h hu
  intro as f a f' has ih hst hu
  exact (ih (hu.mono (List.prefix_append _ _))).step has hu hst

end Single

end Firmware

/-- **How many attempts are in flight.**  Along a run there are never two attempts in flight if and
only if the Wi-Fi events and the expiries of `mqttReconnectTimer` leave each attempt its time. -/
theorem one_attempt_iff {as : List Act} {f : Firmware} (h : firmware.run as = some f) :
    OneAttempt as ↔ Unhurried as := by
  constructor
  · intro hone
    -- what is started without an outcome is in flight
    have hcount : ∀ pre mid f, pre ++ mid <+: as → firmware.run pre = some f →
        f.connected = false → (∀ a ∈ mid, a.isOutcome = false) →
        mid.count (.deliver .gotIp) + mid.count .mqttExpires ≤ 1 := by
      intro pre mid f₀ hp hpre hc hm
      obtain ⟨g, hg⟩ := Machine.run_of_prefix h hp
      have hw : f₀.Waits mid g := .of_runFrom hc hm ((Machine.run_append hpre).symm.trans hg)
      have hle := hone _ g hp hg
      rw [hw.attempts] at hle
      omega
    refine ⟨fun pre mid f₀ hp hpre hc hm hg => ?_, fun pre mid f₀ hp hpre hc hm _ _ => ?_⟩
    · have hle := hcount pre mid f₀ hp hpre hc hm
      have hpos := List.count_pos_iff.2 hg
      omega
    · exact (Nat.le_add_left _ _).trans (hcount pre mid f₀ hp hpre hc hm)
  · intro hu bs g hbs hg
    exact (Firmware.Single.of_run hg (hu.mono hbs)).attempts

/-- The Wi-Fi goes down and up again during a handshake. -/
def slowHandshakeRun : List Act :=
  [.wifi .gotIp, .deliver .gotIp, .wifi .disconnected, .deliver .disconnected, .wifiExpires,
    .wifi .gotIp, .deliver .gotIp]

theorem one_attempt_iff_flap : ∃ f, firmware.run slowHandshakeRun = some f ∧
    (OneAttempt slowHandshakeRun ↔ Unhurried slowHandshakeRun) :=
  ⟨_, rfl, @one_attempt_iff slowHandshakeRun _ rfl⟩

theorem two_attempts : ¬ ∀ as f, firmware.run as = some f → f.attempts ≤ 1 := by
  intro h
  have hle := h slowHandshakeRun _ rfl
  exact absurd hle (by decide)

end MqttServerTest
