import Cupcake.Lib.Bytes
import Mathlib.Data.Nat.Bitwise

/-! The bits of a byte memory, numbered from the low bit of the byte at 0 on. -/

namespace Cupcake.Bytes

variable {m : ℕ → UInt8} {a n v i : ℕ}

/-- Bit `i` of the memory. -/
def bit (m : ℕ → UInt8) (i : ℕ) : Bool := (m (i / 8)).toNat.testBit (i % 8)

theorem testBit_load : (load m a n).testBit i = (decide (i < 8 * n) && bit m (8 * a + i)) := by
  induction n generalizing a i with
  | zero => simp [load]
  | succ n ih =>
    have hbyte : (m a).toNat < 2 ^ 8 := (m a).toNat_lt
    rw [load, add_comm, show 256 = 2 ^ 8 from rfl, Nat.testBit_two_pow_mul_add _ hbyte]
    split_ifs with hi
    · have hdiv : (8 * a + i) / 8 = a := by omega
      have hmod : (8 * a + i) % 8 = i := by omega
      simp [bit, hdiv, hmod, show i < 8 * (n + 1) by omega]
    · have hpos : 8 * (a + 1) + (i - 8) = 8 * a + i := by omega
      rw [ih, hpos]
      congr 1
      exact decide_eq_decide.mpr (by omega)

theorem bit_store : bit (store m a n v) i =
    if 8 * a ≤ i ∧ i < 8 * (a + n) then v.testBit (i - 8 * a) else bit m i := by
  rw [bit, store]
  by_cases h : 8 * a ≤ i ∧ i < 8 * (a + n)
  · have hpow : 256 ^ (i / 8 - a) = 2 ^ (8 * (i / 8 - a)) := by
      rw [show 256 = 2 ^ 8 from rfl, ← pow_mul]
    have hpos : i % 8 + 8 * (i / 8 - a) = i - 8 * a := by omega
    rw [if_pos h, if_pos (by omega), hpow]
    rw [UInt8.toNat_ofNat', Nat.testBit_mod_two_pow, Nat.testBit_div_two_pow, hpos]
    simp [Nat.mod_lt]
  · rw [if_neg h, if_neg (by omega)]
    rfl

end Cupcake.Bytes
