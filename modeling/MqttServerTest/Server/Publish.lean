import MqttServerTest.Server.Database
import Mathlib.Data.Int.Notation
import Mathlib.Logic.Function.Basic

/-!
# The publish handler

The variables that the handlers of all connections and the timer task share (`Buffers`), and what
the `synchronized(lock)` blocks of the publish handler do to them.  The two blocks differ only in
the list they append to, which is given by the `Level`.
-/

namespace MqttServerTest

/-- The levels of service whose packets are buffered. -/
inductive Level where
  /-- `MqttQoS.AT_MOST_ONCE` -/
  | atMostOnce
  /-- `MqttQoS.AT_LEAST_ONCE` -/
  | atLeastOnce
  deriving DecidableEq, Repr

/-- The variables of `main` that the handlers and the timer task share. -/
structure Buffers where
  /-- Message id and gap of the QoS 0 packets that have one. -/
  packetsAMO : List (ℤ × Int64)
  /-- Message id and gap of the QoS 1 packets that have one. -/
  packetsALO : List (ℤ × Int64)
  mesToDevIdMap : ℤ → Option ℕ
  /-- An `Int`, which wraps. -/
  pubackSent : Int32

/-- `prev != 0L && curr - prev < 700_000_000`. -/
def IsGap (prev curr : Int64) : Prop := prev ≠ 0 ∧ curr - prev < 700000000

instance (prev curr : Int64) : Decidable (IsGap prev curr) := inferInstanceAs (Decidable (_ ∧ _))

namespace Buffers

/-- The variables as `main` initialises them. -/
def empty : Buffers := ⟨[], [], fun _ => none, 0⟩

/-- The list of a level. -/
def packets (b : Buffers) : Level → List (ℤ × Int64)
  | .atMostOnce => b.packetsAMO
  | .atLeastOnce => b.packetsALO

/-- Append `p` to the list of its level and note the device under its message id. -/
def add (b : Buffers) (level : Level) (devId : ℕ) (p : ℤ × Int64) : Buffers :=
  let mesToDevIdMap := Function.update b.mesToDevIdMap p.1 (some devId)
  match level with
  | .atMostOnce => { b with packetsAMO := b.packetsAMO ++ [p], mesToDevIdMap }
  | .atLeastOnce => { b with packetsALO := b.packetsALO ++ [p], mesToDevIdMap }

/-- A `synchronized(lock)` block of the publish handler. -/
def record (b : Buffers) (level : Level) (devId : ℕ) (prev curr : Int64) (messageId : ℤ) :
    Buffers :=
  if IsGap prev curr then b.add level devId (messageId, curr - prev) else b

/-- `++pubackSent`. -/
def increment (b : Buffers) : Buffers := { b with pubackSent := b.pubackSent + 1 }

@[simp] theorem add_packets_self (b : Buffers) (level : Level) (devId : ℕ) (p : ℤ × Int64) :
    (b.add level devId p).packets level = b.packets level ++ [p] := by
  cases level <;> rfl

theorem add_packets_of_ne (b : Buffers) {level level' : Level} (devId : ℕ) (p : ℤ × Int64)
    (h : level' ≠ level) : (b.add level devId p).packets level' = b.packets level' := by
  cases level <;> cases level' <;> first | rfl | exact absurd rfl h

@[simp] theorem add_mesToDevIdMap (b : Buffers) (level : Level) (devId : ℕ) (p : ℤ × Int64) :
    (b.add level devId p).mesToDevIdMap = Function.update b.mesToDevIdMap p.1 (some devId) := by
  cases level <;> rfl

@[simp] theorem add_pubackSent (b : Buffers) (level : Level) (devId : ℕ) (p : ℤ × Int64) :
    (b.add level devId p).pubackSent = b.pubackSent := by
  cases level <;> rfl

theorem increment_packets (b : Buffers) : b.increment.packets = b.packets := by
  funext level
  cases level <;> rfl

theorem record_pubackSent (b : Buffers) (level : Level) (devId : ℕ) (prev curr : Int64) (m : ℤ) :
    (b.record level devId prev curr m).pubackSent = b.pubackSent := by
  simp only [record]
  split_ifs
  · exact add_pubackSent b level devId _
  · rfl

end Buffers

/-- Where a connection is in its publish handler. -/
inductive HandlerPc where
  /-- Not handling a packet. -/
  | idle
  /-- A QoS 1 packet is acknowledged, not yet counted. -/
  | acknowledged (messageId : ℤ)
  /-- A QoS 1 packet is counted, its `synchronized` block still to come. -/
  | counted (messageId : ℤ)
  deriving DecidableEq, Repr

/-- An accepted connection: the variables its handlers have captured. -/
structure Endpoint where
  devId : ℕ
  /-- The time of the previous packet, `0` before the first. -/
  prev : Int64
  pc : HandlerPc
  deriving DecidableEq

/-- A connection whose handlers have just been set. -/
def Endpoint.accept (devId : ℕ) : Endpoint := ⟨devId, 0, .idle⟩

end MqttServerTest
