import MqttServerTest.Data.Varint
import Mathlib.Data.Nat.ModEq

/-!
# The remaining length

`Helpers.hpp` of the MQTT client: the remaining length of a packet is a base-128 number.  The reader
accumulates it in 32 bits.

* `decodeRemainingLength_eq` : the reader, in terms of `Varint.decode`.
* `decodeRemainingLength_encodeRemainingLength` : round trip, and when the number fits the four
  bytes that the client has for it.
-/

namespace MqttServerTest

namespace AsyncMqtt

/-- The loop of `decodeRemainingLength`. -/
def decodeRemainingLengthLoop (multiplier value : ℕ) : List UInt8 → Option ℕ
  | [] => none
  | encodedByte :: bytes =>
    let value := (value + (encodedByte &&& 127).toNat * multiplier) % 2 ^ 32
    let multiplier := multiplier * 128 % 2 ^ 32
    if encodedByte &&& 128 ≠ 0 then decodeRemainingLengthLoop multiplier value bytes
    else some value

/-- `Helpers::decodeRemainingLength`; `none` if it reads behind the bytes. -/
def decodeRemainingLength (bytes : List UInt8) : Option ℕ := decodeRemainingLengthLoop 1 0 bytes

/-- `Helpers::encodeRemainingLength` -/
def encodeRemainingLength (remainingLength : ℕ) : List UInt8 :=
  let encodedByte := UInt8.ofNat (remainingLength % 128)
  if remainingLength / 128 > 0 then
    (encodedByte ||| 128) :: encodeRemainingLength (remainingLength / 128)
  else [encodedByte]
termination_by remainingLength
decreasing_by omega

/-! ### Bits -/

theorem toNat_and_127 (b : UInt8) : (b &&& 127).toNat = b.toNat % 128 := by
  rw [UInt8.toNat_and]
  exact Nat.and_two_pow_sub_one_eq_mod _ 7

theorem and_128_eq_zero_iff (b : UInt8) : b &&& 128 = 0 ↔ b.toNat < 128 := by
  have h : ∀ i : Fin 256, i.val &&& 128 = 0 ↔ i.val < 128 := by decide +kernel
  rw [← UInt8.toNat_inj, UInt8.toNat_and]
  exact h ⟨b.toNat, b.toNat_lt⟩

theorem ofNat_or_128 {n : ℕ} (h : n < 128) : UInt8.ofNat n ||| 128 = UInt8.ofNat (n + 128) := by
  have hor : ∀ i : Fin 128, i.val ||| 128 = i.val + 128 := by decide +kernel
  rw [← UInt8.toNat_inj, UInt8.toNat_or, Varint.toNat_ofNat (by omega),
    Varint.toNat_ofNat (by omega)]
  exact hor ⟨n, h⟩

/-! ### Reading and writing -/

theorem encodeRemainingLength_eq (n : ℕ) : encodeRemainingLength n = Varint.encode n := by
  induction n using Nat.strongRecOn with
  | ind n ih =>
    rw [encodeRemainingLength]
    by_cases h : n < 128
    · rw [if_neg (by omega), Varint.encode_of_lt h, Nat.mod_eq_of_lt h]
    · rw [if_pos (by omega), Varint.encode_of_le (by omega), ih (n / 128) (by omega),
        ofNat_or_128 (by omega)]

theorem decodeRemainingLengthLoop_eq (multiplier value : ℕ) (bytes : List UInt8) :
    decodeRemainingLengthLoop multiplier value bytes =
      (Varint.decode bytes).map fun r => (value + r.1 * multiplier) % 2 ^ 32 := by
  induction bytes generalizing multiplier value with
  | nil => rfl
  | cons b bytes ih =>
    rw [decodeRemainingLengthLoop, Varint.decode, toNat_and_127]
    by_cases hb : b.toNat < 128
    · rw [if_neg (by simp [and_128_eq_zero_iff, hb]), if_pos hb, Nat.mod_eq_of_lt hb]
      rfl
    · rw [if_pos (by simp [and_128_eq_zero_iff, hb]), if_neg hb, ih, Option.map_map]
      refine congrArg (fun f => (Varint.decode bytes).map f) (funext fun r => ?_)
      have hlt := b.toNat_lt
      have hmod : b.toNat % 128 = b.toNat - 128 := by omega
      -- wrapping the two accumulators early does not change the sum modulo `2 ^ 32`
      have hsum : (value + b.toNat % 128 * multiplier) % 2 ^ 32 +
          r.1 * (multiplier * 128 % 2 ^ 32) ≡
          value + b.toNat % 128 * multiplier + r.1 * (multiplier * 128) [MOD 2 ^ 32] :=
        (Nat.mod_modEq _ _).add ((Nat.mod_modEq _ _).mul_left _)
      refine hsum.trans ?_
      rw [hmod]
      exact congrArg (· % 2 ^ 32) (by simp only; ring)

/-- **The reader**: what it reads, modulo `2 ^ 32`. -/
theorem decodeRemainingLength_eq (bytes : List UInt8) :
    decodeRemainingLength bytes = (Varint.decode bytes).map fun r => r.1 % 2 ^ 32 := by
  rw [decodeRemainingLength, decodeRemainingLengthLoop_eq]
  simp

/-- **Round trip** of every 32-bit number, whatever is behind it; `fixedHeader` and
`_remainingLengthBuffer` have room for exactly those below `2 ^ 28`. -/
theorem decodeRemainingLength_encodeRemainingLength (n : ℕ) (h : n < 2 ^ 32) (bs : List UInt8) :
    decodeRemainingLength (encodeRemainingLength n ++ bs) = some n ∧
      ((encodeRemainingLength n).length ≤ 4 ↔ n < 2 ^ 28) := by
  rw [encodeRemainingLength_eq, decodeRemainingLength_eq, Varint.decode_encode]
  refine ⟨?_, Varint.length_encode_le_iff⟩
  rw [Option.map_some, Nat.mod_eq_of_lt h]

/-- The first number that does not fit. -/
theorem decodeRemainingLength_encodeRemainingLength_fiveBytes :
    decodeRemainingLength (encodeRemainingLength 268435456 ++ [7]) = some 268435456 ∧
      ((encodeRemainingLength 268435456).length ≤ 4 ↔ 268435456 < 2 ^ 28) :=
  decodeRemainingLength_encodeRemainingLength 268435456 (by decide) [7]

end AsyncMqtt

end MqttServerTest
