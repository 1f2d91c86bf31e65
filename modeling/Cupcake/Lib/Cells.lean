import Mathlib.Data.List.Basic

/-! A buffer as a list of cells. A pointer is an index; an access outside the
buffer gives nothing. -/

namespace Cupcake.Cells

variable {α : Type*} {a b : List α} {x y : α}

def load (mem : List α) (i : ℕ) : Option α := mem[i]?

def store (mem : List α) (i : ℕ) (x : α) : Option (List α) :=
  if i < mem.length then some (mem.set i x) else none

def fill (mem : List α) (i n : ℕ) (x : α) : Option (List α) :=
  if i + n ≤ mem.length then some (mem.take i ++ List.replicate n x ++ mem.drop (i + n)) else none

theorem load_mid {i : ℕ} (hi : i = a.length) : load (a ++ x :: b) i = some x := by
  subst hi
  simp [load]

theorem store_mid {i : ℕ} (hi : i = a.length) :
    store (a ++ x :: b) i y = some (a ++ y :: b) := by
  subst hi
  simp [store]

theorem fill_mid {m : List α} {i n : ℕ} (hi : i = a.length) (hn : n = m.length) :
    fill (a ++ (m ++ b)) i n x = some (a ++ (List.replicate n x ++ b)) := by
  subst hi hn
  rw [fill, if_pos (by simp), List.drop_append, List.drop_append]
  simp

theorem exists_split {k : ℕ} (h : k ≤ a.length) : ∃ l r, a = l ++ r ∧ l.length = k :=
  ⟨a.take k, a.drop k, (List.take_append_drop k a).symm, List.length_take_of_le h⟩

end Cupcake.Cells
