import Cupcake.Lib.Window
import Cupcake.Net.Xfrm.Defs

/-! The bitmap as a ring of slots, for windows whose size is a power of two. -/

namespace Cupcake.Xfrm

open Function BitVec

/-! ## Bits -/

theorem and_one_shiftLeft_ne_zero (x : BitVec 32) {k : ℕ} (hk : k < 32) :
    x &&& (1#32 <<< k) ≠ 0 ↔ x.getLsbD k = true := by
  change x &&& twoPow 32 k ≠ 0 ↔ _
  rw [and_twoPow]
  cases hx : x.getLsbD k with
  | false => simp
  | true =>
    have hne : (twoPow 32 k).getLsbD k = true := by simp [hk]
    simp only [if_true, iff_true]
    intro h0
    rw [h0] at hne
    simp at hne

theorem getLsbD_one_shiftLeft {j k : ℕ} (hk : k < 32) :
    (1#32 <<< k).getLsbD j = decide (j = k) := by
  change (twoPow 32 k).getLsbD j = _
  rw [getLsbD_twoPow]
  simp [hk, eq_comm]

theorem testBit_eq (bmp : ℕ → BitVec 32) (i : ℕ) :
    testBit bmp i = (bmp (i / 32)).getLsbD (i % 32) := by
  have hand : i &&& 0x1F = i % 32 := Nat.and_two_pow_sub_one_eq_mod i 5
  have hlt : i % 32 < 32 := Nat.mod_lt _ (by decide)
  rw [testBit, hand, Nat.shiftRight_eq_div_pow, Bool.eq_iff_iff, decide_eq_true_eq]
  exact and_one_shiftLeft_ne_zero _ hlt

theorem testBit_update {bmp : ℕ → BitVec 32} {b : ℕ} {word : BitVec 32} {v : Bool}
    (h : ∀ j < 32, word.getLsbD j = if j = b % 32 then v else (bmp (b / 32)).getLsbD j) (i : ℕ) :
    testBit (update bmp (b / 32) word) i = if i = b then v else testBit bmp i := by
  rw [testBit_eq, testBit_eq]
  by_cases hw : i / 32 = b / 32
  · rw [hw, update_self, h _ (Nat.mod_lt _ (by decide))]
    by_cases hib : i = b
    · rw [if_pos (by rw [hib]), if_pos hib]
    · rw [if_neg (by omega), if_neg hib]
  · have hib : i ≠ b := fun hib => hw (by rw [hib])
    rw [update_of_ne hw, if_neg hib]

theorem testBit_setBit (bmp : ℕ → BitVec 32) (b i : ℕ) :
    testBit (setBit bmp b) i = if i = b then true else testBit bmp i := by
  have hand : b &&& 0x1F = b % 32 := Nat.and_two_pow_sub_one_eq_mod b 5
  rw [setBit, hand, Nat.shiftRight_eq_div_pow]
  apply testBit_update
  intro j _
  rw [getLsbD_or, getLsbD_one_shiftLeft (Nat.mod_lt _ (by decide))]
  by_cases hj : j = b % 32
  · simp [hj]
  · simp [hj]

theorem testBit_clearBit (bmp : ℕ → BitVec 32) (b i : ℕ) :
    testBit (clearBit bmp b) i = if i = b then false else testBit bmp i := by
  have hand : b &&& 0x1F = b % 32 := Nat.and_two_pow_sub_one_eq_mod b 5
  rw [clearBit, hand, Nat.shiftRight_eq_div_pow]
  apply testBit_update
  intro j hj32
  rw [getLsbD_and, getLsbD_not, getLsbD_one_shiftLeft (Nat.mod_lt _ (by decide))]
  by_cases hj : j = b % 32
  · simp [hj]
  · simp [hj, hj32]

theorem testBit_clearWords {window : ℕ} (bmp : ℕ → BitVec 32) {i : ℕ} (hi : i < window) :
    testBit (clearWords ((window - 1) >>> 5) bmp) i = false := by
  have hle : i / 32 ≤ (window - 1) >>> 5 := by
    rw [Nat.shiftRight_eq_div_pow]
    exact Nat.div_le_div_right (by omega)
  rw [testBit_eq, clearWords, if_pos hle]
  simp

theorem testBit_clearBits (window pos turns i : ℕ) (bmp : ℕ → BitVec 32) (b : ℕ) :
    testBit (clearBits window pos turns i bmp) b = true ↔
      testBit bmp b = true ∧ ∀ k, i ≤ k → k < i + turns → b ≠ wadd 32 pos k % window := by
  induction turns generalizing i bmp with
  | zero =>
    refine ⟨fun h => ⟨h, fun k h₁ h₂ => ?_⟩, fun h => h.1⟩
    omega
  | succ turns ih =>
    rw [clearBits, ih, testBit_clearBit]
    constructor
    · rintro ⟨hb, hrest⟩
      split_ifs at hb with hi
      refine ⟨hb, fun k h₁ h₂ => ?_⟩
      by_cases hk : k = i
      · rw [hk]
        exact hi
      · exact hrest k (by omega) (by omega)
    · rintro ⟨hb, hall⟩
      rw [if_neg (hall i le_rfl (by omega))]
      exact ⟨hb, fun k h₁ h₂ => hall k (by omega) (by omega)⟩

/-! ## Slots -/

structure At (r : ReplayEsn) (top : ℤ) : Prop where
  dvd : r.replayWindow ∣ 2 ^ 32
  pos : 0 < r.replayWindow
  seq_lt : r.seq < 2 ^ 32
  seq : (r.seq : ℤ) ≡ top [ZMOD 2 ^ 32]

namespace At

variable {r : ReplayEsn} {top : ℤ}

section

variable (h : At r top)

include h

theorem modEq_window {a b : ℤ} (hab : a ≡ b [ZMOD 2 ^ 32]) : a ≡ b [ZMOD r.replayWindow] := by
  apply hab.of_dvd
  exact_mod_cast h.dvd

theorem wadd_mod (a b : ℕ) {n : ℤ} (hab : (a : ℤ) + b ≡ n - 1 [ZMOD r.replayWindow]) :
    wadd 32 a b % r.replayWindow = slot r.replayWindow n := by
  apply slot_of_modEq h.pos
  refine (h.modEq_window ?_).trans hab
  rw [wadd, Int.natCast_emod]
  push_cast
  exact Int.mod_modEq _ _

theorem pos_eq : r.pos = slot r.replayWindow top := by
  apply slot_of_modEq h.pos
  apply h.modEq_window
  have hsub : ((wsub 32 r.seq 1 : ℕ) : ℤ) ≡ r.seq - 1 [ZMOD 2 ^ 32] := by
    have hcast : ((r.seq + 2 ^ 32 - 1 : ℕ) : ℤ) = r.seq - 1 + 2 ^ 32 := by omega
    rw [wsub, Int.natCast_emod, hcast]
    exact (Int.mod_modEq _ _).trans Int.add_modEq_right
  exact hsub.trans (h.seq.sub_right 1)

theorem pos_modEq : (r.pos : ℤ) ≡ top - 1 [ZMOD r.replayWindow] := by
  rw [h.pos_eq, slot_cast h.pos]
  exact Int.mod_modEq _ _

theorem bitnr_eq {diff : ℕ} (hd : diff < r.replayWindow) :
    r.bitnr diff = slot r.replayWindow (top - diff) := by
  have hpos : r.pos < r.replayWindow := h.pos_eq ▸ slot_lt h.pos top
  have hmod : (r.pos : ℤ) - diff ≡ top - diff - 1 [ZMOD r.replayWindow] := by
    rw [show top - diff - 1 = top - 1 - diff by ring]
    exact h.pos_modEq.sub_right _
  rw [ReplayEsn.bitnr]
  by_cases hle : r.pos ≥ diff
  · rw [if_pos hle]
    apply slot_of_modEq h.pos
    push_cast [hle]
    exact hmod
  · rw [if_neg hle, wsub_of_le (by omega) r.window_lt,
      ← Nat.mod_eq_of_lt (show r.replayWindow - (diff - r.pos) < r.replayWindow by omega)]
    apply slot_of_modEq h.pos
    push_cast [show diff - r.pos ≤ r.replayWindow by omega, show r.pos ≤ diff by omega]
    refine Int.ModEq.trans ?_ hmod
    rw [show (r.replayWindow : ℤ) - (diff - r.pos) = r.pos - diff + r.replayWindow by ring]
    exact Int.add_modEq_right

end

section

variable {seen : ℤ → Prop} (h : At r top)
  (ht : Tracks r.replayWindow top seen (ringBit r.replayWindow (testBit r.bmp) top))

include h ht

theorem slide_tracks {n : ℤ} {diff : ℕ} (hdiff : n - top = diff) (hn : top < n) :
    Tracks r.replayWindow n (fun m => m = n ∨ seen m)
      (ringBit r.replayWindow (testBit (r.slide diff)) n) := by
  have hslot : ∀ k : ℕ, wadd 32 r.pos k % r.replayWindow = slot r.replayWindow (top + k) := by
    intro k
    apply h.wadd_mod
    rw [show top + k - 1 = top - 1 + (k : ℤ) by ring]
    exact h.pos_modEq.add_right _
  have hset : wadd 32 r.pos diff % r.replayWindow = slot r.replayWindow n := by
    rw [hslot, ← hdiff]
    congr 1
    ring
  have hbit : ∀ m, m < n → n - m < r.replayWindow →
      testBit (r.slide diff) (slot r.replayWindow m) =
        testBit (if diff < r.replayWindow then
            clearBits r.replayWindow r.pos (diff - 1) 1 r.bmp
          else clearWords ((r.replayWindow - 1) >>> 5) r.bmp) (slot r.replayWindow m) := by
    intro m hm hw
    rw [ReplayEsn.slide, hset, testBit_setBit, if_neg]
    intro heq
    exact hm.ne (slot_inj h.pos (by omega) (by omega) heq)
  apply ht.ring_advance hn
  · rw [ReplayEsn.slide, hset, testBit_setBit, if_pos rfl]
  · intro m hlow hm hw
    rw [hbit m hm hw]
    split_ifs with hlt
    · obtain ⟨k, hk⟩ := Int.eq_ofNat_of_zero_le (a := m - top) (by omega)
      rw [← Bool.not_eq_true, testBit_clearBits]
      rintro ⟨-, hall⟩
      apply hall k (by omega) (by omega)
      rw [hslot, show top + (k : ℤ) = m by omega]
    · exact testBit_clearWords _ (slot_lt h.pos m)
  · intro m hm hw
    rw [hbit m (by omega) hw, if_pos (by omega), Bool.eq_iff_iff, testBit_clearBits]
    refine ⟨fun hb => hb.1, fun hb => ⟨hb, fun k h₁ h₂ heq => ?_⟩⟩
    rw [hslot] at heq
    have hmk := slot_inj h.pos (by omega) (by omega) heq
    omega

theorem mark_tracks {n : ℤ} {diff : ℕ} (hdiff : top - n = diff) (hd : diff < r.replayWindow) :
    Tracks r.replayWindow top (fun m => m = n ∨ seen m)
      (ringBit r.replayWindow (testBit (setBit r.bmp (r.bitnr diff))) top) := by
  apply ht.ring_mark h.pos (n := n) (by omega) (by omega)
  intro i
  rw [testBit_setBit, h.bitnr_eq hd, show top - (diff : ℤ) = n by omega]
  by_cases hi : i = slot r.replayWindow n
  · simp [hi]
  · simp [hi]

theorem not_seen_of_checkWindow {n : ℤ} {diff : ℕ} (hdiff : top - n = diff)
    (hc : r.checkWindow diff = .accept) :
    diff < r.replayWindow ∧ ¬ seen n := by
  rw [ReplayEsn.checkWindow] at hc
  split_ifs at hc with hold hbit
  have hd : diff < r.replayWindow := not_le.mp hold
  refine ⟨hd, ?_⟩
  intro hs
  apply hbit
  rw [h.bitnr_eq hd]
  apply (ht.bits diff hd).mpr
  rwa [← hdiff, sub_sub_cancel]

end

end At
end Cupcake.Xfrm
