import Mathlib.Data.List.Basic
import Mathlib.Tactic.Linarith

/-! Writing a stream into a fixed ring: the cell of a position is the position modulo the length. -/

namespace Cupcake.Ring

open List

variable {α : Type*}

def writeFrom (ring : List α) (pos : ℕ) : List α → List α
  | [] => ring
  | a :: as => writeFrom (ring.set (pos % ring.length) a) (pos + 1) as

@[simp] theorem length_writeFrom (ring : List α) (pos : ℕ) (as : List α) :
    (writeFrom ring pos as).length = ring.length := by
  induction as generalizing ring pos with
  | nil => rfl
  | cons a as ih => simp only [writeFrom, ih, length_set]

theorem writeFrom_append (ring : List α) (pos : ℕ) (as bs : List α) :
    writeFrom ring pos (as ++ bs) =
      writeFrom (writeFrom ring pos as) (pos + as.length) bs := by
  induction as generalizing ring pos with
  | nil => rfl
  | cons a as ih =>
    simp only [cons_append, writeFrom, ih, length_cons]
    rw [show pos + 1 + as.length = pos + (as.length + 1) by omega]

theorem writeFrom_mod (ring : List α) (pos : ℕ) (as : List α) :
    writeFrom ring (pos % ring.length) as = writeFrom ring pos as := by
  induction as generalizing ring pos with
  | nil => rfl
  | cons a as ih =>
    have hl : (ring.set (pos % ring.length) a).length = ring.length := length_set ..
    have hl' := ih (ring.set (pos % ring.length) a) (pos % ring.length + 1)
    have hr' := ih (ring.set (pos % ring.length) a) (pos + 1)
    rw [hl] at hl' hr'
    simp only [writeFrom, Nat.mod_mod]
    rw [← hl', ← hr', Nat.mod_add_mod]

theorem writeFrom_eq_splice (ring : List α) (off : ℕ) (as : List α)
    (h : off + as.length ≤ ring.length) :
    writeFrom ring off as = ring.take off ++ as ++ ring.drop (off + as.length) := by
  induction as generalizing ring off with
  | nil => simp [writeFrom]
  | cons a as ih =>
    have hoff : off < ring.length := by simp only [length_cons] at h; omega
    have hset : ring.set off a = ring.take off ++ a :: ring.drop (off + 1) :=
      set_eq_take_append_cons_drop .. |>.trans (by simp [hoff])
    rw [writeFrom, Nat.mod_eq_of_lt hoff, ih _ _ (by simp only [length_set, length_cons] at *; omega)]
    have htake : (ring.set off a).take (off + 1) = ring.take off ++ [a] := by
      rw [hset, take_append]
      simp [Nat.min_eq_left hoff.le, take_of_length_le]
    have hdrop : (ring.set off a).drop (off + 1 + as.length) = ring.drop (off + (as.length + 1)) := by
      rw [drop_set_of_lt (by omega)]
      congr 1; omega
    rw [htake, hdrop]
    simp

theorem getElem?_writeFrom_of_forall_ne (ring : List α) (pos : ℕ) (as : List α) (p : ℕ)
    (h : ∀ i < as.length, (pos + i) % ring.length ≠ p) :
    (writeFrom ring pos as)[p]? = ring[p]? := by
  induction as generalizing ring pos with
  | nil => rfl
  | cons a as ih =>
    have h0 : pos % ring.length ≠ p := h 0 (by simp)
    have ht : ∀ i < as.length, (pos + 1 + i) % (ring.set (pos % ring.length) a).length ≠ p := by
      intro i hi
      rw [length_set, show pos + 1 + i = pos + (i + 1) by omega]
      exact h (i + 1) (by simpa using hi)
    rw [writeFrom, ih _ _ ht, List.getElem?_set_ne h0]

theorem getElem?_writeFrom_latest (ring : List α) (pos : ℕ) (as : List α) (i : ℕ)
    (hring : 0 < ring.length) (hi : i < as.length)
    (hlast : ∀ j, i < j → j < as.length →
      (pos + j) % ring.length ≠ (pos + i) % ring.length) :
    (writeFrom ring pos as)[(pos + i) % ring.length]? = as[i]? := by
  have hsplit : as = as.take i ++ as[i] :: as.drop (i + 1) := by simp
  have hlen : (as.take i).length = i := by simp [Nat.min_eq_left hi.le]
  have hlater : ∀ j < (as.drop (i + 1)).length,
      (pos + i + 1 + j) % ring.length ≠ (pos + i) % ring.length := by
    intro j hj
    rw [length_drop] at hj
    have := hlast (i + 1 + j) (by omega) (by omega)
    rwa [show pos + i + 1 + j = pos + (i + 1 + j) by omega]
  conv_lhs => rw [hsplit]
  rw [writeFrom_append, hlen, writeFrom]
  simp only [length_writeFrom]
  rw [getElem?_writeFrom_of_forall_ne _ _ _ _ (by simpa using hlater)]
  rw [List.getElem?_set_self (by simpa using Nat.mod_lt _ hring)]
  exact (List.getElem?_eq_getElem hi).symm

end Cupcake.Ring
