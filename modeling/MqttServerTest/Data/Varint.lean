import Mathlib.Algebra.Ring.Nat
import Mathlib.Data.Nat.Notation
import Mathlib.Tactic.Ring

/-!
# Base-128 numbers

A natural number is written in groups of seven bits, least significant first, one group a byte; the
top bit of a byte says that another one follows.

* `Varint.decode_encode` : the number, and whatever is behind it, is read back.
* `Varint.encode_spec` : only the last byte of a number ends one.
* `Varint.length_encode_le_iff` : how many bytes a number takes.
-/

namespace MqttServerTest

namespace Varint

/-- The bytes of `n`. -/
def encode (n : ℕ) : List UInt8 :=
  if n < 128 then [UInt8.ofNat n] else UInt8.ofNat (n % 128 + 128) :: encode (n / 128)
termination_by n
decreasing_by omega

/-- The number at the head of the bytes and what is behind it; `none` if they end within it. -/
def decode : List UInt8 → Option (ℕ × List UInt8)
  | [] => none
  | b :: bs =>
    if b.toNat < 128 then some (b.toNat, bs)
    else (decode bs).map fun r => (b.toNat - 128 + 128 * r.1, r.2)

theorem toNat_ofNat {n : ℕ} (h : n < 256) : (UInt8.ofNat n).toNat = n := by
  rw [UInt8.toNat_ofNat']
  exact Nat.mod_eq_of_lt h

theorem encode_of_lt {n : ℕ} (h : n < 128) : encode n = [UInt8.ofNat n] := by
  rw [encode, if_pos h]

theorem encode_of_le {n : ℕ} (h : 128 ≤ n) :
    encode n = UInt8.ofNat (n % 128 + 128) :: encode (n / 128) := by
  rw [encode, if_neg (by omega)]

/-- **Round trip.** -/
theorem decode_encode (n : ℕ) (bs : List UInt8) : decode (encode n ++ bs) = some (n, bs) := by
  induction n using Nat.strongRecOn with
  | ind n ih =>
    by_cases h : n < 128
    · rw [encode_of_lt h, List.singleton_append, decode, toNat_ofNat (by omega), if_pos h]
    · rw [encode_of_le (by omega), List.cons_append, decode, toNat_ofNat (by omega),
        if_neg (by omega), ih (n / 128) (by omega)]
      simp only [Option.map_some, Option.some.injEq, Prod.mk.injEq, and_true]
      omega

/-- The last byte of a number, and no other, has its top bit clear. -/
theorem encode_spec (n : ℕ) : ∃ init last, encode n = init ++ [last] ∧
    (∀ b ∈ init, 128 ≤ b.toNat) ∧ last.toNat < 128 := by
  induction n using Nat.strongRecOn with
  | ind n ih =>
    by_cases h : n < 128
    · refine ⟨[], UInt8.ofNat n, encode_of_lt h, by simp, ?_⟩
      rw [toNat_ofNat (by omega)]
      exact h
    · obtain ⟨init, last, heq, hinit, hlast⟩ := ih (n / 128) (by omega)
      refine ⟨UInt8.ofNat (n % 128 + 128) :: init, last, ?_, ?_, hlast⟩
      · rw [encode_of_le (by omega), heq, List.cons_append]
      · intro b hb
        rcases List.mem_cons.1 hb with rfl | hb
        · rw [toNat_ofNat (by omega)]
          omega
        · exact hinit b hb

/-- A number takes at most `k + 1` bytes exactly if it has at most `k + 1` groups of seven bits. -/
theorem length_encode_le_iff {n k : ℕ} : (encode n).length ≤ k + 1 ↔ n < 128 ^ (k + 1) := by
  induction k generalizing n with
  | zero =>
    by_cases h : n < 128
    · simp [encode_of_lt h, h]
    · rw [encode_of_le (by omega)]
      obtain ⟨init, last, heq, -⟩ := encode_spec (n / 128)
      rw [heq]
      simp [h]
  | succ k ih =>
    by_cases h : n < 128
    · have hpow : 128 ^ 1 ≤ 128 ^ (k + 1 + 1) := Nat.pow_le_pow_right (by omega) (by omega)
      have hlt : n < 128 ^ (k + 1 + 1) := by omega
      simp [encode_of_lt h, hlt]
    · have hmul : 128 ^ (k + 1 + 1) = 128 ^ (k + 1) * 128 := by ring
      rw [encode_of_le (by omega), List.length_cons, Nat.add_le_add_iff_right, ih, hmul,
        Nat.div_lt_iff_lt_mul (by omega)]

/-- Bytes of which only the last ends a number are one number. -/
theorem decode_snoc {init : List UInt8} {last : UInt8} (hinit : ∀ b ∈ init, 128 ≤ b.toNat)
    (hlast : last.toNat < 128) : ∃ n, decode (init ++ [last]) = some (n, []) ∧
      n < 128 ^ (init.length + 1) ∧ last.toNat ≤ n := by
  induction init with
  | nil =>
    exact ⟨last.toNat, by rw [List.nil_append, decode, if_pos hlast], by simpa using hlast, le_rfl⟩
  | cons b bs ih =>
    obtain ⟨n, hn, hlt, hle⟩ := ih fun c hc => hinit c (List.mem_cons_of_mem b hc)
    have hb := hinit b List.mem_cons_self
    have hb' := b.toNat_lt
    refine ⟨b.toNat - 128 + 128 * n, ?_, ?_, by omega⟩
    · rw [List.cons_append, decode, if_neg (by omega), hn]
      rfl
    · have hmul : 128 ^ ((b :: bs).length + 1) = 128 ^ (bs.length + 1) * 128 := by
        rw [List.length_cons]
        ring
      omega

end Varint

end MqttServerTest
