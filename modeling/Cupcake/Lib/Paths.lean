import Mathlib.Tactic.Common

/-! Paths of a given length in a relation, and which cycles a new edge closes. -/

namespace Cupcake

variable {α : Type*} {R R' : α → α → Prop} {a b c u v : α} {m n : ℕ}

def Path (R : α → α → Prop) : ℕ → α → α → Prop
  | 0, a, b => a = b
  | n + 1, a, b => ∃ c, R a c ∧ Path R n c b

namespace Path

theorem mono (h : ∀ a b, R a b → R' a b) (hp : Path R n a b) : Path R' n a b := by
  induction n generalizing a with
  | zero => exact hp
  | succ n ih =>
    obtain ⟨c, hc, hp⟩ := hp
    exact ⟨c, h a c hc, ih hp⟩

theorem append (h : Path R m a b) (h' : Path R n b c) : Path R (m + n) a c := by
  induction m generalizing a with
  | zero =>
    obtain rfl : a = b := h
    rwa [Nat.zero_add]
  | succ m ih =>
    obtain ⟨d, hd, h⟩ := h
    rw [Nat.add_right_comm]
    exact ⟨d, hd, ih h⟩

section

variable (hR : ∀ a b, R' a b → R a b ∨ a = u ∧ b = v)

include hR

theorem first_use (h : Path R' n a b) :
    Path R n a b ∨ ∃ i j, i + 1 + j = n ∧ Path R i a u ∧ Path R' j v b := by
  induction n generalizing a with
  | zero => exact .inl h
  | succ n ih =>
    obtain ⟨c, hc, h⟩ := h
    obtain hold | ⟨rfl, rfl⟩ := hR a c hc
    · obtain hp | ⟨i, j, hn, hi, hj⟩ := ih h
      · exact .inl ⟨c, hold, hp⟩
      · exact .inr ⟨i + 1, j, by omega, ⟨c, hold, hi⟩, hj⟩
    · exact .inr ⟨0, n, by omega, rfl, h⟩

theorem last_use (h : Path R' n a b) :
    Path R n a b ∨ ∃ i j, i + 1 + j = n ∧ Path R' i a u ∧ Path R j v b := by
  induction n generalizing a with
  | zero => exact .inl h
  | succ n ih =>
    obtain ⟨c, hc, h⟩ := h
    obtain hp | ⟨i, j, hn, hi, hj⟩ := ih h
    · obtain hold | ⟨rfl, rfl⟩ := hR a c hc
      · exact .inl ⟨c, hold, hp⟩
      · exact .inr ⟨0, n, by omega, rfl, hp⟩
    · exact .inr ⟨i + 1, j, by omega, ⟨c, hc, hi⟩, hj⟩

theorem cycle_of_new_edge (h : Path R' n a a) :
    Path R n a a ∨ ∃ k < n, Path R k v u := by
  obtain hp | ⟨i, j, hn, hi, hj⟩ := h.last_use hR
  · exact .inl hp
  · right
    obtain hp | ⟨i', j', hn', hi', -⟩ := hi.first_use hR
    · exact ⟨j + i, by omega, hj.append hp⟩
    · exact ⟨j + i', by omega, hj.append hi'⟩

end

end Path

end Cupcake
