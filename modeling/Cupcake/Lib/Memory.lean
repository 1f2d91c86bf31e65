import Mathlib.Data.BitVec
import Mathlib.Tactic.Ring

/-! Byte-addressed memory with little-endian accesses. -/

namespace Cupcake

open BitVec

variable {w : ℕ}

def loadLe (mem : BitVec w → BitVec 8) : BitVec w → ℕ → ℕ
  | _, 0 => 0
  | a, n + 1 => (mem a).toNat + 256 * loadLe mem (a + 1) n

def storeLe : (BitVec w → BitVec 8) → BitVec w → ℕ → ℕ → BitVec w → BitVec 8
  | mem, _, _, 0 => mem
  | mem, a, v, n + 1 => storeLe (Function.update mem a (BitVec.ofNat 8 v)) (a + 1) (v / 256) n

variable {mem mem' : BitVec w → BitVec 8} {a b : BitVec w} {v n k : ℕ}

theorem add_one_add (a : BitVec w) (i : ℕ) :
    a + 1 + BitVec.ofNat w i = a + BitVec.ofNat w (i + 1) := by
  rw [add_assoc, add_comm 1]
  congr 1
  apply eq_of_toNat_eq
  simp [toNat_add]

theorem loadLe_congr (h : ∀ i < n, mem (a + BitVec.ofNat w i) = mem' (a + BitVec.ofNat w i)) :
    loadLe mem a n = loadLe mem' a n := by
  induction n generalizing a with
  | zero => rfl
  | succ n ih =>
    have h0 := h 0 (by omega)
    simp only [BitVec.add_zero] at h0
    rw [loadLe, loadLe, h0, ih fun i hi => ?_]
    rw [add_one_add]
    exact h (i + 1) (by omega)

theorem loadLe_lt : loadLe mem a n < 256 ^ n := by
  induction n generalizing a with
  | zero => simp [loadLe]
  | succ n ih =>
    have hb := (mem a).isLt
    have ht := ih (a := a + 1)
    rw [loadLe, Nat.pow_succ]
    omega

theorem storeLe_of_forall_ne (h : ∀ i < n, b ≠ a + BitVec.ofNat w i) :
    storeLe mem a v n b = mem b := by
  induction n generalizing mem a v with
  | zero => rfl
  | succ n ih =>
    have h0 : b ≠ a := by simpa using h 0 (by omega)
    rw [storeLe, ih fun i hi => ?_, Function.update_of_ne h0]
    rw [add_one_add]
    exact h (i + 1) (by omega)

theorem add_ofNat_inj {i j : ℕ} (hi : i < 2 ^ w) (hj : j < 2 ^ w)
    (h : a + BitVec.ofNat w i = a + BitVec.ofNat w j) : i = j := by
  have h' := congrArg BitVec.toNat (add_left_cancel h)
  rwa [toNat_ofNat, toNat_ofNat, Nat.mod_eq_of_lt hi, Nat.mod_eq_of_lt hj] at h'

theorem loadLe_storeLe (hn : n < 2 ^ w) : loadLe (storeLe mem a v n) a n = v % 256 ^ n := by
  induction n generalizing mem a v with
  | zero => simp [loadLe, Nat.mod_one]
  | succ n ih =>
    have hne : ∀ i < n, a ≠ a + 1 + BitVec.ofNat w i := by
      intro i hi h
      rw [add_one_add] at h
      have h0 : a + BitVec.ofNat w 0 = a + BitVec.ofNat w (i + 1) := by simpa using h
      have := add_ofNat_inj (by omega) (by omega) h0
      omega
    rw [loadLe, storeLe, ih (by omega), storeLe_of_forall_ne hne, Function.update_self,
      toNat_ofNat, show 256 ^ (n + 1) = 256 * 256 ^ n by ring, Nat.mod_mul]

end Cupcake
