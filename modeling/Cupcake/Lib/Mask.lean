import Mathlib.Data.Nat.Bitwise
import Mathlib.Tactic.Ring

/-! Masks of low and high bits, read as arithmetic. -/

namespace Cupcake

variable {x k w : ℕ}

private theorem testBit_mul_add_low (a : ℕ) {b : ℕ} (hb : b < 2 ^ k) (i : ℕ) :
    (a * 2 ^ k + b).testBit i = if i < k then b.testBit i else a.testBit (i - k) := by
  rw [mul_comm, Nat.testBit_two_pow_mul_add a hb]

theorem or_low_mask : x ||| (2 ^ k - 1) = x / 2 ^ k * 2 ^ k + (2 ^ k - 1) := by
  have hk : 2 ^ k - 1 < 2 ^ k := Nat.sub_one_lt (Nat.two_pow_pos k).ne'
  apply Nat.eq_of_testBit_eq
  intro i
  rw [testBit_mul_add_low _ hk, Nat.testBit_or, Nat.testBit_two_pow_sub_one]
  split_ifs with hi
  · simp [hi]
  · rw [Nat.testBit_div_two_pow, Nat.sub_add_cancel (by omega)]
    simp [hi]

theorem and_high_mask (hx : x < 2 ^ w) (hk : k ≤ w) :
    x &&& (2 ^ w - 1 - (2 ^ k - 1)) = x / 2 ^ k * 2 ^ k := by
  have hpow : 2 ^ w - 1 - (2 ^ k - 1) = (2 ^ (w - k) - 1) * 2 ^ k + 0 := by
    rw [Nat.sub_mul, ← pow_add, Nat.sub_add_cancel hk]
    have := Nat.two_pow_pos k
    omega
  rw [← add_zero (x / 2 ^ k * 2 ^ k), hpow]
  apply Nat.eq_of_testBit_eq
  intro i
  rw [Nat.testBit_and, testBit_mul_add_low _ (Nat.two_pow_pos k),
    testBit_mul_add_low _ (Nat.two_pow_pos k), Nat.testBit_two_pow_sub_one]
  split_ifs with hi
  · simp
  · rw [Nat.testBit_div_two_pow, Nat.sub_add_cancel (by omega)]
    by_cases hw : i < w
    · simp [show i - k < w - k by omega]
    · have : x.testBit i = false :=
        Nat.testBit_lt_two_pow (hx.trans_le (Nat.pow_le_pow_right (by omega) (by omega)))
      simp [this]

end Cupcake
