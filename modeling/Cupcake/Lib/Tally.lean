import Mathlib.Data.Finset.Card

/-! The number of flags that are up among the first `B`. -/

namespace Cupcake

open Function

variable {B n : ℕ} {f : ℕ → Bool}

def tally (B : ℕ) (f : ℕ → Bool) : ℕ := ((Finset.range B).filter fun i => f i).card

theorem tally_raise (hn : n < B) (h : f n = false) :
    tally B (update f n true) = tally B f + 1 := by
  have heq : ((Finset.range B).filter fun i => update f n true i) =
      insert n ((Finset.range B).filter fun i => f i) := by
    ext i
    rcases eq_or_ne i n with rfl | hi
    · simp [hn]
    · simp [hi]
  rw [tally, heq, Finset.card_insert_of_notMem (by simp [h]), tally]

theorem tally_lower (hn : n < B) (h : f n = true) :
    tally B (update f n false) + 1 = tally B f := by
  have hup : f = update (update f n false) n true := by
    rw [update_idem, ← h, update_eq_self]
  conv_rhs => rw [hup]
  exact (tally_raise hn (update_self ..)).symm

end Cupcake
