import Mathlib.Data.Nat.ModEq
import Mathlib.Tactic.Linarith

/-! Unsigned machine arithmetic on natural numbers: `w` is the width, and the
arguments of a subtraction are below `2 ^ w`. -/

namespace Cupcake

def wadd (w a b : ℕ) : ℕ := (a + b) % 2 ^ w

/-- Unsigned subtraction of width `w`. -/
def wsub (w a b : ℕ) : ℕ := (a + 2 ^ w - b) % 2 ^ w

theorem wsub_lt (w a b : ℕ) : wsub w a b < 2 ^ w := Nat.mod_lt _ (Nat.two_pow_pos w)

theorem wadd_of_lt {w a b : ℕ} (h : a + b < 2 ^ w) : wadd w a b = a + b := Nat.mod_eq_of_lt h

theorem wsub_of_le {w a b : ℕ} (h : b ≤ a) (ha : a < 2 ^ w) : wsub w a b = a - b := by
  rw [wsub, show a + 2 ^ w - b = a - b + 2 ^ w by omega, Nat.add_mod_right,
    Nat.mod_eq_of_lt (by omega)]

theorem wadd_mod (w a b : ℕ) : wadd w (a % 2 ^ w) b = (a + b) % 2 ^ w := Nat.mod_add_mod ..

theorem wsub_add_modEq {w a b : ℕ} (hb : b < 2 ^ w) : wsub w a b + b ≡ a [MOD 2 ^ w] := by
  have h : a + 2 ^ w - b + b = a + 2 ^ w := by omega
  refine (Nat.ModEq.add_right b (Nat.mod_modEq _ _)).trans ?_
  rw [h]
  simp [Nat.ModEq]

theorem wsub_wsub {w a b c : ℕ} (hb : b < 2 ^ w) :
    wsub w ((a + c) % 2 ^ w) (wsub w a b) = (b + c) % 2 ^ w := by
  have h₁ := wsub_add_modEq (a := (a + c) % 2 ^ w) (wsub_lt w a b)
  have h₂ : b + c + wsub w a b ≡ a + c [MOD 2 ^ w] := by
    have := (wsub_add_modEq (a := a) hb).add_right c
    rwa [show wsub w a b + b + c = b + c + wsub w a b by omega] at this
  have h := Nat.ModEq.add_right_cancel' _ ((h₁.trans (Nat.mod_modEq _ _)).trans h₂.symm)
  rwa [Nat.ModEq, Nat.mod_eq_of_lt (wsub_lt w _ _)] at h

theorem wsub_mod_add {w a b : ℕ} (ha : a < 2 ^ w) : wsub w ((a + b) % 2 ^ w) a = b % 2 ^ w := by
  have h := (wsub_add_modEq (a := (a + b) % 2 ^ w) ha).trans (Nat.mod_modEq _ _)
  rw [add_comm a b] at h
  have h' := Nat.ModEq.add_right_cancel' a h
  rwa [Nat.ModEq, Nat.mod_eq_of_lt (wsub_lt w _ _), add_comm b a] at h'

end Cupcake
