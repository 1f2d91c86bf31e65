import Mathlib.Data.List.Basic
import Mathlib.Tactic.Ring

/-! Bytes at numbered addresses, with little-endian fields. -/

namespace Cupcake.Bytes

open List

variable {m m' : ℕ → UInt8} {a b n k v : ℕ}

def load (m : ℕ → UInt8) : ℕ → ℕ → ℕ
  | _, 0 => 0
  | a, n + 1 => (m a).toNat + 256 * load m (a + 1) n

def store (m : ℕ → UInt8) (a n v : ℕ) : ℕ → UInt8 :=
  fun i => if a ≤ i ∧ i < a + n then UInt8.ofNat (v / 256 ^ (i - a)) else m i

def read (m : ℕ → UInt8) (a n : ℕ) : List UInt8 := (List.range n).map fun i => m (a + i)

def write (m : ℕ → UInt8) (a n : ℕ) (l : List UInt8) : ℕ → UInt8 :=
  fun i => if a ≤ i ∧ i < a + n then l.getD (i - a) (m i) else m i

theorem load_lt : load m a n < 256 ^ n := by
  induction n generalizing a with
  | zero => simp [load]
  | succ n ih =>
    have hb := (m a).toNat_lt
    have ht := ih (a := a + 1)
    rw [load, Nat.pow_succ]
    omega

theorem load_congr (h : ∀ i, a ≤ i → i < a + n → m i = m' i) : load m a n = load m' a n := by
  induction n generalizing a with
  | zero => rfl
  | succ n ih =>
    rw [load, load, h a le_rfl (by omega), ih fun i h₁ h₂ => h i (by omega) (by omega)]

theorem read_congr (h : ∀ i, a ≤ i → i < a + n → m i = m' i) : read m a n = read m' a n := by
  apply map_congr_left
  intro i hi
  exact h (a + i) (by omega) (by have := mem_range.mp hi; omega)

theorem store_of_not_mem (h : ¬ (a ≤ b ∧ b < a + n)) : store m a n v b = m b := if_neg h

theorem load_store_of_disjoint (h : b + k ≤ a ∨ a + n ≤ b) : load (store m a n v) b k = load m b k :=
  load_congr fun i _ _ => store_of_not_mem (by omega)

theorem load_store : load (store m a n v) a n = v % 256 ^ n := by
  have hgen (k : ℕ) (hk : k ≤ n) :
      load (store m a n v) (a + (n - k)) k = v / 256 ^ (n - k) % 256 ^ k := by
    induction k with
    | zero => simp [load, Nat.mod_one]
    | succ k ih =>
      have hin : store m a n v (a + (n - (k + 1))) = UInt8.ofNat (v / 256 ^ (n - (k + 1))) := by
        rw [store, if_pos (by omega), Nat.add_sub_cancel_left]
      have hnext : a + (n - (k + 1)) + 1 = a + (n - k) := by omega
      have hdiv : v / 256 ^ (n - k) = v / 256 ^ (n - (k + 1)) / 256 := by
        rw [show n - k = n - (k + 1) + 1 by omega, Nat.pow_succ, Nat.div_div_eq_div_mul]
      rw [load, hin, hnext, ih (by omega), hdiv, show 256 ^ (k + 1) = 256 * 256 ^ k by ring,
        Nat.mod_mul]
      simp
  simpa using hgen n le_rfl

/-! ## Fields of a file -/

def ofBytes : List UInt8 → ℕ
  | [] => 0
  | b :: l => b.toNat + 256 * ofBytes l

/-- A field of `n` bytes. -/
def toBytes : ℕ → ℕ → List UInt8
  | 0, _ => []
  | n + 1, v => UInt8.ofNat v :: toBytes n (v / 256)

@[simp] theorem length_toBytes : (toBytes n v).length = n := by
  induction n generalizing v with
  | zero => rfl
  | succ n ih => simp [toBytes, ih]

theorem ofBytes_toBytes (h : v < 256 ^ n) : ofBytes (toBytes n v) = v := by
  induction n generalizing v with
  | zero => simp at h; simp [toBytes, ofBytes, h]
  | succ n ih =>
    have hlt : v / 256 < 256 ^ n := Nat.div_lt_of_lt_mul (by rwa [mul_comm, ← Nat.pow_succ])
    rw [toBytes, ofBytes, ih hlt, UInt8.toNat_ofNat']
    omega

end Cupcake.Bytes
