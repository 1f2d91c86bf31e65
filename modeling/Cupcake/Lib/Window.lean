import Mathlib.Data.Int.ModEq
import Mathlib.Tactic.Linarith
import Mathlib.Tactic.Ring

/-! A window over the last numbers of a growing sequence, with one bit for each number, and its
layout in a ring of slots. -/

namespace Cupcake

/-- Bit `d` says whether the number `d` below the top was seen, and nothing above the top was. -/
structure Tracks (w : ℕ) (top : ℤ) (seen : ℤ → Prop) (bit : ℕ → Bool) : Prop where
  bits : ∀ d < w, bit d = true ↔ seen (top - d)
  le_top : ∀ n, seen n → n ≤ top

namespace Tracks

variable {w : ℕ} {top n : ℤ} {seen : ℤ → Prop} {bit bit' : ℕ → Bool}

theorem empty (w : ℕ) (top : ℤ) (h : ∀ d < w, bit d = false) :
    Tracks w top (fun _ => False) bit :=
  ⟨fun d hd => by simp [h d hd], fun _ hn => hn.elim⟩

theorem advance (h : Tracks w top seen bit) (hn : top < n) (hzero : bit' 0 = true)
    (hnew : ∀ d < w, 0 < d → (d : ℤ) < n - top → bit' d = false)
    (hold : ∀ d e : ℕ, d < w → n - d = top - e → bit' d = bit e) :
    Tracks w n (fun m => m = n ∨ seen m) bit' := by
  constructor
  · intro d hd
    by_cases h0 : d = 0
    · subst h0
      simp [hzero]
    · have hne : ¬ n - (d : ℤ) = n := by omega
      by_cases hlt : (d : ℤ) < n - top
      · have hno : ¬ seen (n - d) := fun hs => absurd (h.le_top _ hs) (by omega)
        simp [hnew d hd (by omega) hlt, hno, h0]
      · obtain ⟨e, he⟩ := Int.eq_ofNat_of_zero_le (a := d - (n - top)) (by omega)
        have hsub : n - (d : ℤ) = top - e := by omega
        rw [hold d e hd hsub, h.bits e (by omega), ← hsub]
        simp [h0]
  · rintro m (rfl | hm)
    · exact le_rfl
    · exact (h.le_top m hm).trans hn.le

theorem mark {d : ℕ} (h : Tracks w top seen bit)
    (hbit : ∀ e < w, bit' e = true ↔ e = d ∨ bit e = true) :
    Tracks w top (fun m => m = top - d ∨ seen m) bit' := by
  constructor
  · intro e he
    rw [hbit e he, h.bits e he]
    refine or_congr_left ?_
    omega
  · rintro m (rfl | hm)
    · omega
    · exact h.le_top m hm

end Tracks

/-! ## Rings of slots -/

def slot (w : ℕ) (n : ℤ) : ℕ := ((n - 1) % w).toNat

section

variable {w : ℕ} {m n : ℤ}

theorem slot_cast (hw : 0 < w) (n : ℤ) : (slot w n : ℤ) = (n - 1) % w :=
  Int.toNat_of_nonneg (Int.emod_nonneg _ (by omega))

theorem slot_lt (hw : 0 < w) (n : ℤ) : slot w n < w := by
  have h := Int.emod_lt_of_pos (n - 1) (b := (w : ℤ)) (by omega)
  rw [← slot_cast hw] at h
  exact_mod_cast h

theorem slot_inj (hw : 0 < w) (hlt : m - n < w) (hgt : n - m < w) (h : slot w m = slot w n) :
    m = n := by
  have hmod : (m - 1) % (w : ℤ) = (n - 1) % w := by rw [← slot_cast hw, ← slot_cast hw, h]
  have hdvd : (w : ℤ) ∣ (m - 1) - (n - 1) := Int.ModEq.dvd (Int.ModEq.symm hmod)
  have habs : |m - 1 - (n - 1)| < w := abs_lt.mpr ⟨by omega, by omega⟩
  have hzero := Int.eq_zero_of_abs_lt_dvd hdvd habs
  omega

theorem slot_of_modEq {u : ℕ} (hw : 0 < w) (h : (u : ℤ) ≡ n - 1 [ZMOD w]) : u % w = slot w n := by
  have hc : ((u % w : ℕ) : ℤ) = (slot w n : ℤ) := by
    rw [slot_cast hw, Int.natCast_emod]
    exact h
  exact_mod_cast hc

def ringBit (w : ℕ) (ring : ℕ → Bool) (top : ℤ) (d : ℕ) : Bool := ring (slot w (top - d))

end

namespace Tracks

variable {w : ℕ} {top n : ℤ} {seen : ℤ → Prop} {ring ring' : ℕ → Bool}

theorem ring_advance (h : Tracks w top seen (ringBit w ring top)) (hn : top < n)
    (hset : ring' (slot w n) = true)
    (hclear : ∀ m, top < m → m < n → n - m < w → ring' (slot w m) = false)
    (hkeep : ∀ m, m ≤ top → n - m < w → ring' (slot w m) = ring (slot w m)) :
    Tracks w n (fun m => m = n ∨ seen m) (ringBit w ring' n) := by
  apply h.advance hn
  · rw [ringBit, Nat.cast_zero, sub_zero, hset]
  · intro d hd h0 hlt
    exact hclear _ (by omega) (by omega) (by omega)
  · intro d e hd hde
    rw [ringBit, ringBit, hde]
    exact hkeep _ (by omega) (by omega)

theorem ring_mark (hw : 0 < w) (h : Tracks w top seen (ringBit w ring top)) (hle : n ≤ top)
    (hlt : top - n < w)
    (hset : ∀ i, ring' i = true ↔ i = slot w n ∨ ring i = true) :
    Tracks w top (fun m => m = n ∨ seen m) (ringBit w ring' top) := by
  obtain ⟨d, hd⟩ := Int.eq_ofNat_of_zero_le (a := top - n) (by omega)
  obtain rfl : n = top - d := by omega
  apply h.mark
  intro e he
  rw [ringBit, ringBit, hset]
  refine or_congr_left ⟨fun heq => ?_, fun heq => by rw [heq]⟩
  have := slot_inj hw (by omega) (by omega) heq
  omega

end Tracks
end Cupcake
