import Mathlib.Algebra.Ring.Nat
import Mathlib.Data.Nat.Log
import Mathlib.Data.Nat.Notation

/-!
# Rounding to a number of bits

`roundBits p n` is the number with `p` significant bits that is nearest to `n`, and of two the one
whose last bit is zero.  It is `n` exactly if the bits of `n` that do not fit are zero
(`roundBits_eq_self_iff`), and it does not confuse `n` with a number that fits
(`roundBits_eq_iff_of_lt`).
-/

namespace MqttServerTest

/-- How many bits of `n` do not fit into `p` bits. -/
def excess (p n : ℕ) : ℕ := n.log2 + 1 - p

/-- `n` rounded to `p` significant bits, ties to even. -/
def roundBits (p n : ℕ) : ℕ :=
  let e := excess p n
  let k := n / 2 ^ e
  let r := n % 2 ^ e
  (if 2 * r < 2 ^ e ∨ 2 * r = 2 ^ e ∧ k % 2 = 0 then k else k + 1) * 2 ^ e

/-- Rounding gives a multiple of the power of two that is rounded to. -/
theorem dvd_roundBits (p n : ℕ) : 2 ^ excess p n ∣ roundBits p n := Nat.dvd_mul_left _ _

theorem roundBits_eq_self_iff {p n : ℕ} : roundBits p n = n ↔ 2 ^ excess p n ∣ n := by
  constructor
  · intro h
    have hdvd := dvd_roundBits p n
    rwa [h] at hdvd
  · intro h
    have hr : n % 2 ^ excess p n = 0 := Nat.mod_eq_zero_of_dvd h
    have hpos : 2 * 0 < 2 ^ excess p n := Nat.two_pow_pos _
    simp only [roundBits, hr, hpos, true_or, ↓reduceIte]
    exact Nat.div_mul_cancel h

variable {p n m : ℕ} (hp : 0 < p)

include hp

theorem excess_of_lt (h : n < 2 ^ p) : excess p n = 0 := by
  have hlog : n.log2 < p := by
    rcases Nat.eq_zero_or_pos n with rfl | hn
    · rwa [Nat.log2_zero]
    · exact (Nat.log2_lt (Nat.ne_of_gt hn)).2 h
  unfold excess
  omega

theorem roundBits_of_lt (h : n < 2 ^ p) : roundBits p n = n := by
  rw [roundBits_eq_self_iff, excess_of_lt hp h]
  exact Nat.one_dvd n

/-- A number that does not fit is not rounded to one that does. -/
theorem le_roundBits (h : 2 ^ p ≤ n) : 2 ^ p ≤ roundBits p n := by
  have hn : n ≠ 0 := Nat.ne_of_gt (Nat.lt_of_lt_of_le (Nat.two_pow_pos p) h)
  have hlog : p ≤ n.log2 := (Nat.le_log2 hn).2 h
  have he : (p - 1) + excess p n = n.log2 := by unfold excess; omega
  -- the bits that are kept
  have hk : 2 ^ (p - 1) ≤ n / 2 ^ excess p n := by
    rw [Nat.le_div_iff_mul_le (Nat.two_pow_pos _), ← Nat.pow_add, he]
    exact Nat.log2_self_le hn
  have hround : 2 ^ (p - 1) * 2 ^ excess p n ≤ roundBits p n := by
    refine Nat.mul_le_mul_right _ ?_
    split_ifs
    · exact hk
    · exact Nat.le_succ_of_le hk
  rw [← Nat.pow_add, he] at hround
  exact Nat.le_trans (Nat.pow_le_pow_right Nat.two_pos hlog) hround

/-- The rounding of a number that does not fit is not confused with a number that does. -/
theorem roundBits_eq_iff_of_lt (hm : m < 2 ^ p) : roundBits p n = m ↔ n = m := by
  by_cases hn : n < 2 ^ p
  · rw [roundBits_of_lt hp hn]
  · have hle := le_roundBits hp (Nat.not_lt.1 hn)
    omega

end MqttServerTest
