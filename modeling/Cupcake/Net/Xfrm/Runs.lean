import Mathlib.Data.List.Nodup
import Cupcake.Lib.Run
import Cupcake.Net.Xfrm.Bitmap

/-! No number is accepted twice. Numbers are integers here: in the ESN mode a packet may stand
for a number below zero, whose high half has wrapped. -/

namespace Cupcake.Xfrm

open Option

def encode (n : ℤ) : ℕ × ℕ := ((n / 2 ^ 32 % 2 ^ 32).toNat, (n % 2 ^ 32).toNat)

theorem encode_inj {w m n : ℤ} (hm : -w < m ∧ m < 2 ^ 64 - w) (hn : -w < n ∧ n < 2 ^ 64 - w)
    (h : encode m = encode n) : m = n := by
  obtain ⟨hhi, hlo⟩ := Prod.mk.inj h
  omega

theorem encode_natCast {seq : ℕ} (h : seq < 2 ^ 32) : encode (seq : ℤ) = (0, seq) := by
  rw [encode, Prod.mk.injEq]
  omega

/-! ## The legacy mode -/

structure LegacyAt (window : ℕ) (r : ReplayState) (seen : ℤ → Prop) : Prop where
  window_pos : 1 ≤ window
  window_le : window ≤ 32
  seq_lt : r.seq < 2 ^ 32
  tracks : Tracks window r.seq seen (r.bitmap.getLsbD ·)

structure Accepts (w seq hi : ℕ) (seen seen' : ℤ → Prop) (n : ℤ) : Prop where
  fresh : ¬ seen n
  seen : ∀ m, seen' m ↔ m = n ∨ seen m
  encode : encode n = (hi, seq)
  low : -(w : ℤ) < n
  high : n < 2 ^ 64 - w

theorem replayAdvance_new {window : ℕ} {r : ReplayState} {seq : ℕ} (hne : ¬ window = 0)
    (hgt : seq > r.seq) (hseq : seq < 2 ^ 32) :
    replayAdvance window r seq =
      ⟨seq, if seq - r.seq < window then (r.bitmap <<< (seq - r.seq)) ||| 1#32 else 1#32⟩ := by
  simp only [replayAdvance, if_neg hne, if_pos hgt, wsub_of_le hgt.le hseq]

theorem replayAdvance_old {window : ℕ} {r : ReplayState} {seq : ℕ} (hne : ¬ window = 0)
    (hle : ¬ seq > r.seq) (hr : r.seq < 2 ^ 32) :
    replayAdvance window r seq = ⟨r.seq, r.bitmap ||| (1#32 <<< (r.seq - seq))⟩ := by
  simp only [replayAdvance, if_neg hne, if_neg hle, wsub_of_le (not_lt.mp hle) hr]

theorem tracks_shift {window : ℕ} {seen : ℤ → Prop} {bitmap : BitVec 32} {seq top : ℕ}
    (h : Tracks window top seen (bitmap.getLsbD ·)) (hle : window ≤ 32) (hgt : top < seq) :
    Tracks window seq (fun m => m = seq ∨ seen m)
      ((if seq - top < window then (bitmap <<< (seq - top)) ||| 1#32 else 1#32).getLsbD ·) := by
  apply h.advance (by omega)
  · split_ifs <;> simp
  · intro d hd hpos hlt
    have hd0 : d ≠ 0 := hpos.ne'
    have hds : d < seq - top := by omega
    split_ifs
    · simp [BitVec.getLsbD_or, hds, hd0]
    · simp [hd0]
  · intro d e hd hde
    have hd0 : d ≠ 0 := by omega
    have hds : ¬ d < seq - top := by omega
    have hd32 : d < 32 := by omega
    have he : d - (seq - top) = e := by omega
    have hone : (1#32).getLsbD d = false := by simp [hd0]
    rw [if_pos (by omega), BitVec.getLsbD_or, BitVec.getLsbD_shiftLeft, he, hone]
    simp only [hd32, hds, decide_true, decide_false, Bool.not_false, Bool.true_and, Bool.or_false]

theorem LegacyAt.accept {window : ℕ} {r : ReplayState} {seen : ℤ → Prop}
    (h : LegacyAt window r seen) {seq : ℕ} (hseq : seq < 2 ^ 32)
    (hc : replayCheck window r seq = .accept) :
    LegacyAt window (replayAdvance window r seq) (fun m => m = seq ∨ seen m) ∧
      Accepts window seq 0 seen (fun m => m = seq ∨ seen m) seq := by
  have hle := h.window_le
  have hne : ¬ window = 0 := Nat.one_le_iff_ne_zero.mp h.window_pos
  have hacc : ¬ seen seq → Accepts window seq 0 seen (fun m => m = seq ∨ seen m) seq :=
    fun hf => ⟨hf, fun _ => Iff.rfl, encode_natCast hseq, by omega, by omega⟩
  simp only [replayCheck, if_neg hne] at hc
  by_cases h0 : seq = 0
  · rw [if_pos h0] at hc
    cases hc
  rw [if_neg h0] at hc
  by_cases hgt : seq > r.seq
  · have hfresh : ¬ seen seq := fun hs => absurd (h.tracks.le_top _ hs) (by omega)
    rw [replayAdvance_new hne hgt hseq]
    exact ⟨⟨h.window_pos, hle, hseq, tracks_shift h.tracks hle hgt⟩, hacc hfresh⟩
  · rw [if_neg hgt, wsub_of_le (not_lt.mp hgt) h.seq_lt] at hc
    split_ifs at hc with hold hbit
    have hd : r.seq - seq < window := not_le.mp hold
    have hd32 : r.seq - seq < 32 := hd.trans_le hle
    have hnum : (r.seq : ℤ) - (r.seq - seq : ℕ) = seq := by omega
    have hfresh : ¬ seen seq := by
      intro hs
      apply hbit
      rw [and_one_shiftLeft_ne_zero _ hd32]
      apply (h.tracks.bits _ hd).mpr
      rwa [hnum]
    rw [replayAdvance_old hne hgt h.seq_lt]
    refine ⟨⟨h.window_pos, hle, h.seq_lt, ?_⟩, hacc hfresh⟩
    rw [← hnum]
    apply h.tracks.mark
    intro e _
    rw [BitVec.getLsbD_or, getLsbD_one_shiftLeft hd32]
    simp [or_comm]

/-! ## The bitmap mode -/

structure BitmapAt (r : ReplayEsn) (top : ℤ) (seen : ℤ → Prop) : Prop where
  at_top : At r top
  tracks : Tracks r.replayWindow top seen (ringBit r.replayWindow (testBit r.bmp) top)

section

variable {seen : ℤ → Prop} {top : ℤ} {r : ReplayEsn} (h : BitmapAt r top seen)

include h

theorem BitmapAt.slide
    {seq diff hi : ℕ} {n : ℤ} (hseq : seq < 2 ^ 32) (hn : top < n) (hdiff : n - top = diff)
    (hmod : (seq : ℤ) ≡ n [ZMOD 2 ^ 32]) :
    BitmapAt { r with seq := seq, seqHi := hi, bmp := r.slide diff } n
      (fun m => m = n ∨ seen m) :=
  ⟨⟨h.at_top.dvd, h.at_top.pos, hseq, hmod⟩, h.at_top.slide_tracks h.tracks hdiff hn⟩

theorem BitmapAt.mark {diff : ℕ} {n : ℤ} (hdiff : top - n = diff) (hd : diff < r.replayWindow) :
    BitmapAt { r with bmp := setBit r.bmp (r.bitnr diff) } top (fun m => m = n ∨ seen m) :=
  ⟨⟨h.at_top.dvd, h.at_top.pos, h.at_top.seq_lt, h.at_top.seq⟩,
    h.at_top.mark_tracks h.tracks hdiff hd⟩

end

theorem BitmapAt.accept_bmp {r : ReplayEsn} {seen : ℤ → Prop} (h : BitmapAt r r.seq seen)
    {seq : ℕ} (hseq : seq < 2 ^ 32) (hc : replayCheckBmp r seq = .accept) :
    BitmapAt (replayAdvanceBmp r seq) (replayAdvanceBmp r seq).seq (fun m => m = seq ∨ seen m) ∧
      Accepts r.replayWindow seq 0 seen (fun m => m = seq ∨ seen m) seq := by
  have hlt := r.window_lt
  have hrs := h.at_top.seq_lt
  have hne : ¬ r.replayWindow = 0 := h.at_top.pos.ne'
  have hpos := h.at_top.pos
  have hacc : ¬ seen seq → Accepts r.replayWindow seq 0 seen (fun m => m = seq ∨ seen m) seq :=
    fun hf => ⟨hf, fun _ => Iff.rfl, encode_natCast hseq, by omega, by omega⟩
  rw [replayCheckBmp, if_neg hne] at hc
  split_ifs at hc with h0 hgt
  · have hfresh : ¬ seen seq := fun hs => absurd (h.tracks.le_top _ hs) (by omega)
    rw [replayAdvanceBmp, if_neg hne, if_pos hgt, wsub_of_le hgt.le hseq]
    exact ⟨h.slide (n := seq) hseq (by omega) (by omega) rfl, hacc hfresh⟩
  · have hle := not_lt.mp hgt
    rw [wsub_of_le hle hrs] at hc
    obtain ⟨hd, hfresh⟩ := h.at_top.not_seen_of_checkWindow h.tracks (n := seq) (by omega) hc
    rw [replayAdvanceBmp, if_neg hne, if_neg hgt, wsub_of_le hle hrs]
    exact ⟨h.mark (by omega) hd, hacc hfresh⟩

/-! ## The ESN mode -/

def ReplayEsn.top (r : ReplayEsn) : ℤ := r.seqHi * 2 ^ 32 + r.seq

section

variable {r : ReplayEsn} {seq : ℕ}

theorem bottom_same (hr : r.seq < 2 ^ 32) (hpos : 0 < r.replayWindow)
    (hA : r.seq ≥ r.replayWindow - 1) :
    wadd 32 (wsub 32 r.seq r.replayWindow) 1 = r.seq + 1 - r.replayWindow := by
  have hw := r.window_lt
  unfold wadd wsub
  omega

theorem bottom_spans (hr : r.seq < 2 ^ 32) (hB : ¬ r.seq ≥ r.replayWindow - 1) :
    wadd 32 (wsub 32 r.seq r.replayWindow) 1 = r.seq + 1 + 2 ^ 32 - r.replayWindow := by
  have hw := r.window_lt
  unfold wadd wsub
  omega

/-- Where a packet lies: above the window after the low half wrapped, in the window or above it,
or in the window before the low half wrapped. -/
inductive Place (r : ReplayEsn) (seq : ℕ) : Prop
  | next (h : seq + r.replayWindow ≤ r.seq) (hi : replaySeqhi r seq = wadd 32 r.seqHi 1)
  | same (h : r.seq < seq + r.replayWindow) (h' : seq + r.replayWindow ≤ r.seq + 2 ^ 32)
      (hi : replaySeqhi r seq = r.seqHi)
  | previous (h : r.seq + 2 ^ 32 < seq + r.replayWindow) (hi : replaySeqhi r seq = wsub 32 r.seqHi 1)

theorem place (hr : r.seq < 2 ^ 32) (hpos : 0 < r.replayWindow) (hseq : seq < 2 ^ 32) :
    Place r seq := by
  have hone : wsub 32 r.replayWindow 1 = r.replayWindow - 1 := wsub_of_le hpos r.window_lt
  have hw := r.window_lt
  by_cases hA : r.seq ≥ r.replayWindow - 1
  · have hhi : replaySeqhi r seq =
        if seq < r.seq + 1 - r.replayWindow then wadd 32 r.seqHi 1 else r.seqHi := by
      simp only [replaySeqhi, hone, bottom_same hr hpos hA, if_pos hA]
    by_cases hlow : seq < r.seq + 1 - r.replayWindow
    · exact .next (by omega) (hhi.trans (if_pos hlow))
    · exact .same (by omega) (by omega) (hhi.trans (if_neg hlow))
  · have hhi : replaySeqhi r seq =
        if seq ≥ r.seq + 1 + 2 ^ 32 - r.replayWindow then wsub 32 r.seqHi 1 else r.seqHi := by
      simp only [replaySeqhi, hone, bottom_spans hr hA, if_neg hA]
    by_cases hhigh : seq ≥ r.seq + 1 + 2 ^ 32 - r.replayWindow
    · exact .previous (by omega) (hhi.trans (if_pos hhigh))
    · exact .same (by omega) (by omega) (hhi.trans (if_neg hhigh))

/-- The number that a low half stands for: the first one from the bottom of the window on. -/
def ReplayEsn.number (r : ReplayEsn) (seq : ℕ) : ℤ :=
  r.top - r.replayWindow + 1 + (seq - (r.top - r.replayWindow + 1)) % 2 ^ 32

theorem number_next (h : seq + r.replayWindow ≤ r.seq) (hr : r.seq < 2 ^ 32) :
    r.number seq = (r.seqHi + 1) * 2 ^ 32 + seq := by
  unfold ReplayEsn.number ReplayEsn.top
  omega

theorem number_same (h : r.seq < seq + r.replayWindow)
    (h' : seq + r.replayWindow ≤ r.seq + 2 ^ 32) : r.number seq = r.seqHi * 2 ^ 32 + seq := by
  unfold ReplayEsn.number ReplayEsn.top
  omega

theorem number_previous (h : r.seq + 2 ^ 32 < seq + r.replayWindow) (hseq : seq < 2 ^ 32) :
    r.number seq = (r.seqHi - 1) * 2 ^ 32 + seq := by
  have hw := r.window_lt
  unfold ReplayEsn.number ReplayEsn.top
  omega

theorem encode_number (hr : r.seq < 2 ^ 32) (hhi : r.seqHi < 2 ^ 32) (hpos : 0 < r.replayWindow)
    (hseq : seq < 2 ^ 32) : encode (r.number seq) = (replaySeqhi r seq, seq) := by
  rw [encode, Prod.mk.injEq]
  cases place hr hpos hseq with
  | next h hi =>
    rw [number_next h hr, hi]
    unfold wadd
    omega
  | same h h' hi =>
    rw [number_same h h', hi]
    omega
  | previous h hi =>
    rw [number_previous h hseq, hi]
    unfold wsub
    omega

theorem replayCheckEsn_eq (hr : r.seq < 2 ^ 32) (hpos : 0 < r.replayWindow) (hseq : seq < 2 ^ 32)
    (hzero : ¬ (seq = 0 ∧ r.seqHi = 0 ∧ r.seq < r.replayWindow - 1)) :
    replayCheckEsn r seq =
      if r.top < r.number seq then .accept else r.checkWindow (r.top - r.number seq).toNat := by
  have hone : wsub 32 r.replayWindow 1 = r.replayWindow - 1 := wsub_of_le hpos r.window_lt
  have hw := r.window_lt
  have htop : r.top = r.seqHi * 2 ^ 32 + r.seq := rfl
  by_cases hA : r.seq ≥ r.replayWindow - 1
  · simp only [replayCheckEsn, hone, bottom_same hr hpos hA, if_neg hpos.ne', if_neg hzero,
      if_pos hA]
    by_cases hlow : seq + r.replayWindow ≤ r.seq
    · rw [number_next hlow hr, if_pos (by omega), if_pos (by omega)]
    · rw [number_same (by omega) (by omega)]
      by_cases hgt : r.seq < seq
      · rw [if_pos (.inl hgt), if_pos (by omega)]
      · rw [if_neg (by omega), if_neg (by omega), wsub_of_le (by omega) hr]
        exact congrArg _ (by omega)
  · simp only [replayCheckEsn, hone, bottom_spans hr hA, if_neg hpos.ne', if_neg hzero, if_neg hA]
    by_cases hprev : r.seq + 2 ^ 32 < seq + r.replayWindow
    · have hwrap : wadd 32 (wadd 32 (2 ^ 32 - 1 - seq) r.seq) 1 = r.seq + 2 ^ 32 - seq := by
        unfold wadd
        omega
      rw [number_previous hprev hseq, if_neg (by omega), if_pos (by omega), if_neg (by omega), hwrap]
      exact congrArg _ (by omega)
    · rw [number_same (by omega) (by omega)]
      by_cases hgt : r.seq < seq
      · rw [if_pos (by omega), if_pos (by omega)]
      · rw [if_neg (by omega), if_neg (by omega), if_neg (by omega), wsub_of_le (by omega) hr]
        exact congrArg _ (by omega)

section

variable (hpos : 0 < r.replayWindow)

include hpos

theorem advanceEsn_next (hr : r.seq < 2 ^ 32) (hhi : r.seqHi < 2 ^ 32 - 1)
    (hlow : seq + r.replayWindow ≤ r.seq) (hi : replaySeqhi r seq = wadd 32 r.seqHi 1) :
    replayAdvanceEsn r seq = { r with
      seq := seq, seqHi := r.seqHi + 1, bmp := r.slide (seq + 2 ^ 32 - r.seq) } := by
  have hup : wadd 32 r.seqHi 1 = r.seqHi + 1 := wadd_of_lt (by omega)
  have hdiff : wadd 32 (wadd 32 (2 ^ 32 - 1 - r.seq) seq) 1 = seq + 2 ^ 32 - r.seq := by
    unfold wadd
    omega
  have hwrap : wsub 32 (r.seqHi + 1) r.seqHi = 1 := by
    rw [wsub_of_le (by omega) (by omega)]
    omega
  simp only [replayAdvanceEsn, if_neg hpos.ne', hi, hup, hwrap, hdiff]
  norm_num

theorem advanceEsn_above (hseq : seq < 2 ^ 32) (hhi : r.seqHi < 2 ^ 32) (hgt : r.seq < seq)
    (hi : replaySeqhi r seq = r.seqHi) :
    replayAdvanceEsn r seq = { r with
      seq := seq, seqHi := r.seqHi, bmp := r.slide (seq - r.seq) } := by
  have hwrap : wsub 32 r.seqHi r.seqHi = 0 := by rw [wsub_of_le le_rfl hhi, Nat.sub_self]
  simp [replayAdvanceEsn, hpos.ne', hi, hwrap, hgt, wsub_of_le hgt.le hseq]

theorem advanceEsn_within (hr : r.seq < 2 ^ 32) (hhi : r.seqHi < 2 ^ 32) (hle : seq ≤ r.seq)
    (hi : replaySeqhi r seq = r.seqHi) :
    replayAdvanceEsn r seq = { r with bmp := setBit r.bmp (r.bitnr (r.seq - seq)) } := by
  have hwrap : wsub 32 r.seqHi r.seqHi = 0 := by rw [wsub_of_le le_rfl hhi, Nat.sub_self]
  simp [replayAdvanceEsn, hpos.ne', hi, hwrap, hle, wsub_of_le hle hr]

theorem advanceEsn_previous (hr : r.seq < 2 ^ 32) (hseq : seq < 2 ^ 32) (hhi : r.seqHi < 2 ^ 32)
    (hlow : r.seq + 2 ^ 32 < seq + r.replayWindow) (hi : replaySeqhi r seq = wsub 32 r.seqHi 1) :
    replayAdvanceEsn r seq = { r with bmp := setBit r.bmp (r.bitnr (r.seq + 2 ^ 32 - seq)) } := by
  have hw := r.window_lt
  have hwrap : wsub 32 (wsub 32 r.seqHi 1) r.seqHi = 2 ^ 32 - 1 := by
    unfold wsub
    omega
  have hdiff : wsub 32 r.seq seq = r.seq + 2 ^ 32 - seq := by
    unfold wsub
    omega
  simp only [replayAdvanceEsn, if_neg hpos.ne', hi, hwrap, hdiff]
  norm_num

end

theorem number_emod (r : ReplayEsn) (hseq : seq < 2 ^ 32) : r.number seq % 2 ^ 32 = seq := by
  unfold ReplayEsn.number
  omega

section

variable (hr : r.seq < 2 ^ 32) (hhi : r.seqHi < 2 ^ 32) (hpos : 0 < r.replayWindow)
  (hseq : seq < 2 ^ 32) (hlt : r.number seq < 2 ^ 64)

include hr hhi hpos hseq hlt

theorem replayAdvanceEsn_eq :
    replayAdvanceEsn r seq =
      if r.top < r.number seq then { r with
        seq := seq, seqHi := (r.number seq / 2 ^ 32).toNat,
        bmp := r.slide (r.number seq - r.top).toNat }
      else { r with bmp := setBit r.bmp (r.bitnr (r.top - r.number seq).toNat) } := by
  have hw := r.window_lt
  have htop : r.top = r.seqHi * 2 ^ 32 + r.seq := rfl
  cases place hr hpos hseq with
  | next hlow hi =>
    have hnum := number_next hlow hr
    have hup : (r.number seq / 2 ^ 32).toNat = r.seqHi + 1 := by omega
    have hdiff : (r.number seq - r.top).toNat = seq + 2 ^ 32 - r.seq := by omega
    rw [advanceEsn_next hpos hr (by omega) hlow hi, if_pos (by omega), hup, hdiff]
  | same hlow hhigh hi =>
    have hnum := number_same hlow hhigh
    by_cases hgt : r.seq < seq
    · have hsame : (r.number seq / 2 ^ 32).toNat = r.seqHi := by omega
      have hdiff : (r.number seq - r.top).toNat = seq - r.seq := by omega
      rw [advanceEsn_above hpos hseq hhi hgt hi, if_pos (by omega), hsame, hdiff]
    · have hdiff : (r.top - r.number seq).toNat = r.seq - seq := by omega
      rw [advanceEsn_within hpos hr hhi (not_lt.mp hgt) hi, if_neg (by omega), hdiff]
  | previous hlow hi =>
    have hnum := number_previous hlow hseq
    have hdiff : (r.top - r.number seq).toNat = r.seq + 2 ^ 32 - seq := by omega
    rw [advanceEsn_previous hpos hr hseq hhi hlow hi, if_neg (by omega), hdiff]

theorem top_replayAdvanceEsn :
    (replayAdvanceEsn r seq).top = max r.top (r.number seq) ∧
      (replayAdvanceEsn r seq).seqHi < 2 ^ 32 := by
  have hmod := number_emod r hseq
  have htop : r.top = r.seqHi * 2 ^ 32 + r.seq := rfl
  rw [replayAdvanceEsn_eq hr hhi hpos hseq hlt]
  split_ifs with hgt
  · rw [max_eq_right hgt.le]
    simp only [ReplayEsn.top]
    omega
  · rw [max_eq_left (not_lt.mp hgt)]
    exact ⟨rfl, hhi⟩

end

section

variable {seen : ℤ → Prop} (h : BitmapAt r r.top seen) (hseq : seq < 2 ^ 32)

include h hseq

theorem BitmapAt.advance_esn (hhi : r.seqHi < 2 ^ 32) (hlt : r.number seq < 2 ^ 64) :
    BitmapAt (replayAdvanceEsn r seq) (max r.top (r.number seq))
      (fun m => m = r.number seq ∨ seen m) := by
  have hr := h.at_top.seq_lt
  have hpos := h.at_top.pos
  have hlow : r.top - r.replayWindow < r.number seq := by
    unfold ReplayEsn.number
    omega
  rw [replayAdvanceEsn_eq hr hhi hpos hseq hlt]
  split_ifs with hgt
  · have hmod : (seq : ℤ) ≡ r.number seq [ZMOD 2 ^ 32] := by
      unfold Int.ModEq
      rw [number_emod r hseq]
      omega
    rw [max_eq_right hgt.le]
    exact h.slide hseq hgt (by omega) hmod
  · rw [max_eq_left (not_lt.mp hgt)]
    exact h.mark (by omega) (by omega)

theorem BitmapAt.accept_esn (hhi : r.seqHi < 2 ^ 32 - 1) (hc : replayCheckEsn r seq = .accept) :
    ∃ n, BitmapAt (replayAdvanceEsn r seq) (replayAdvanceEsn r seq).top (fun m => m = n ∨ seen m) ∧
      Accepts r.replayWindow seq (replaySeqhi r seq) seen (fun m => m = n ∨ seen m) n ∧
      (replayAdvanceEsn r seq).seqHi < 2 ^ 32 := by
  have hr := h.at_top.seq_lt
  have hpos := h.at_top.pos
  have hw := r.window_lt
  have hrange : -(r.replayWindow : ℤ) < r.number seq ∧ r.number seq < 2 ^ 64 - r.replayWindow := by
    unfold ReplayEsn.number ReplayEsn.top
    omega
  have hlt : r.number seq < 2 ^ 64 := hrange.2.trans (by omega)
  obtain ⟨htop, hhi'⟩ := top_replayAdvanceEsn hr (by omega) hpos hseq hlt
  refine ⟨r.number seq, htop ▸ h.advance_esn hseq (by omega) hlt,
    ⟨?_, fun _ => Iff.rfl, ?_, hrange.1, hrange.2⟩, hhi'⟩
  · have hzero : ¬ (seq = 0 ∧ r.seqHi = 0 ∧ r.seq < r.replayWindow - 1) := by
      intro hz
      have hone : wsub 32 r.replayWindow 1 = r.replayWindow - 1 := wsub_of_le hpos hw
      simp only [replayCheckEsn, if_neg hpos.ne', hone, if_pos hz] at hc
      cases hc
    rw [replayCheckEsn_eq hr hpos hseq hzero] at hc
    split_ifs at hc with hgt
    · exact fun hs => absurd (h.tracks.le_top _ hs) (not_le.mpr hgt)
    · exact (h.at_top.not_seen_of_checkWindow h.tracks (by omega) hc).2
  · exact encode_number hr (by omega) hpos hseq

end

end

/-! ## Runs -/

def window (mode : Mode) (x : XfrmState) : ℕ :=
  match mode, x.replayEsn with
  | .legacy, _ => x.replayWindow
  | _, some r => r.replayWindow
  | _, none => 0

def Knows : Mode → XfrmState → (ℤ → Prop) → Prop
  | .legacy, x, seen => LegacyAt x.replayWindow x.replay seen
  | .bmp, x, seen => ∃ r, x.replayEsn = some r ∧ BitmapAt r r.seq seen
  | .esn, x, seen => ∃ r, x.replayEsn = some r ∧ BitmapAt r r.top seen ∧ r.seqHi < 2 ^ 32

/-- The high half has not reached its last value. -/
def guard (mode : Mode) (st : Run) (_pkt : Packet) : Prop :=
  mode = .esn → st.x.replayEsn.map ReplayEsn.seqHi ≠ some (2 ^ 32 - 1)

instance (mode : Mode) (st : Run) (pkt : Packet) : Decidable (guard mode st pkt) :=
  inferInstanceAs (Decidable (_ → _))

theorem replayAdvanceBmp_window (r : ReplayEsn) (seq : ℕ) :
    (replayAdvanceBmp r seq).replayWindow = r.replayWindow := by
  unfold replayAdvanceBmp
  split_ifs <;> rfl

theorem replayAdvanceEsn_window (r : ReplayEsn) (seq : ℕ) :
    (replayAdvanceEsn r seq).replayWindow = r.replayWindow := by
  simp only [replayAdvanceEsn]
  split_ifs <;> rfl

theorem Knows.accept {mode : Mode} {x : XfrmState} {seen : ℤ → Prop} (h : Knows mode x seen)
    {seq : ℕ} (hseq : seq < 2 ^ 32)
    (hg : mode = .esn → x.replayEsn.map ReplayEsn.seqHi ≠ some (2 ^ 32 - 1))
    (hc : verdict mode x seq = .accept) :
    ∃ n, Knows mode (advance mode x seq) (fun m => m = n ∨ seen m) ∧
      Accepts (window mode x) seq (seqhi mode x seq) seen (fun m => m = n ∨ seen m) n ∧
      window mode (advance mode x seq) = window mode x := by
  cases mode with
  | legacy =>
    obtain ⟨hk, ha⟩ := LegacyAt.accept h hseq hc
    exact ⟨seq, hk, ha, rfl⟩
  | bmp =>
    obtain ⟨r, hr, hb⟩ := h
    simp only [verdict, hr] at hc
    obtain ⟨hk, ha⟩ := hb.accept_bmp hseq hc
    have hadv : (advance .bmp x seq).replayEsn = some (replayAdvanceBmp r seq) := by
      simp only [advance, hr, map_some]
    refine ⟨(seq : ℤ), ⟨replayAdvanceBmp r seq, hadv, hk⟩, ?_, ?_⟩
    · have hw : window .bmp x = r.replayWindow := by simp only [window, hr]
      rw [hw]
      exact ha
    · simp only [window, hadv, hr, replayAdvanceBmp_window]
  | esn =>
    obtain ⟨r, hr, hb, hhi⟩ := h
    simp only [verdict, hr] at hc
    have hlt : r.seqHi < 2 ^ 32 - 1 := by
      have hne : r.seqHi ≠ 2 ^ 32 - 1 := fun he => hg rfl (by rw [hr, map_some, he])
      omega
    obtain ⟨n, hk, ha, hhi'⟩ := hb.accept_esn hseq hlt hc
    have hadv : (advance .esn x seq).replayEsn = some (replayAdvanceEsn r seq) := by
      simp only [advance, hr, map_some]
    refine ⟨n, ⟨replayAdvanceEsn r seq, hadv, hk, hhi'⟩, ?_, ?_⟩
    · have hw : window .esn x = r.replayWindow := by simp only [window, hr]
      have hi : seqhi .esn x seq = replaySeqhi r seq := by
        rw [seqhi, hr, map_some, getD_some]
      rw [hw, hi]
      exact ha
    · simp only [window, hadv, hr, replayAdvanceEsn_window]

theorem verdict_of_recheck {mode : Mode} {x : XfrmState} {seq hi : ℕ}
    (h : recheck mode x seq hi = .accept) : verdict mode x seq = .accept := by
  unfold recheck at h
  split at h
  · next r hr =>
    split_ifs at h
    simpa only [verdict, hr] using h
  · exact h

structure Inv (mode : Mode) (w : ℕ) (st : Run) : Prop where
  window_eq : window mode st.x = w
  exists_nums : ∃ nums : List ℤ, st.accepted = nums.map encode ∧ nums.Nodup ∧
    (∀ n ∈ nums, -(w : ℤ) < n ∧ n < 2 ^ 64 - w) ∧ Knows mode st.x (· ∈ nums)

theorem Inv.nodup {mode : Mode} {w : ℕ} {st : Run} (h : Inv mode w st) : st.accepted.Nodup := by
  obtain ⟨nums, hacc, hnd, hrange, -⟩ := h.exists_nums
  rw [hacc]
  exact List.Nodup.map_on (fun m hm n hn => encode_inj (hrange m hm) (hrange n hn)) hnd

theorem knows_stats {mode : Mode} {x : XfrmState} {seen : ℤ → Prop} (h : Knows mode x seen)
    (stats : Stats) : Knows mode { x with stats := stats } seen := by
  cases mode with
  | legacy | bmp | esn => exact h

theorem verdict_of_packet {mode : Mode} {x : XfrmState} {pkt : Packet}
    (h : pkt.verdict mode x = .accept) : verdict mode x pkt.seq = .accept := by
  unfold Packet.verdict at h
  split at h
  · exact h
  · exact verdict_of_recheck h

theorem Inv.receive {mode : Mode} {w : ℕ} {st : Run} (h : Inv mode w st) (pkt : Packet)
    (hg : guard mode st pkt) : Inv mode w (receive mode st pkt) := by
  obtain ⟨nums, hacc, hnd, hrange, hk⟩ := h.exists_nums
  by_cases haccept : pkt.verdict mode st.x = .accept
  · simp only [Xfrm.receive, if_pos haccept]
    obtain ⟨n, hkn, ha, hwin⟩ := (knows_stats hk (st.x.stats.count (pkt.verdict mode st.x))).accept
      pkt.seq_lt hg (verdict_of_packet haccept)
    refine ⟨hwin.trans h.window_eq, n :: nums, ?_, List.nodup_cons.mpr ⟨ha.fresh, hnd⟩, ?_, ?_⟩
    · rw [List.map_cons, ha.encode, hacc]
    · intro m hm
      obtain rfl | hm := List.mem_cons.mp hm
      · exact h.window_eq ▸ ⟨ha.low, ha.high⟩
      · exact hrange m hm
    · simpa only [List.mem_cons] using hkn
  · simp only [Xfrm.receive, if_neg haccept]
    exact ⟨h.window_eq, nums, hacc, hnd, hrange, knows_stats hk _⟩

/-! ## From a zeroed state -/

structure Zeroed (x : XfrmState) : Prop where
  seq : x.replay.seq = 0
  bitmap : x.replay.bitmap = 0
  esn : ∀ r ∈ x.replayEsn, r.seq = 0 ∧ r.seqHi = 0 ∧ ∀ i, r.bmp i = 0

/-- The windows that work: in the legacy mode from 1 to 32, in the others the powers of two. -/
def SoundWindow : Mode → XfrmState → Prop
  | .legacy, x => 1 ≤ x.replayWindow ∧ x.replayWindow ≤ 32
  | _, x => ∀ r ∈ x.replayEsn, ∃ k, r.replayWindow = 2 ^ k

theorem bitmapAt_zero {r : ReplayEsn} {k : ℕ} (hw : r.replayWindow = 2 ^ k) (hseq : r.seq = 0)
    (hbmp : ∀ i, r.bmp i = 0) : BitmapAt r 0 (· ∈ ([] : List ℤ)) := by
  have hk : k < 32 := (Nat.pow_lt_pow_iff_right (by decide)).mp (hw ▸ r.window_lt)
  refine ⟨⟨hw ▸ Nat.pow_dvd_pow 2 hk.le, hw ▸ Nat.two_pow_pos k, by omega, by rw [hseq]; rfl⟩, ?_⟩
  simp only [List.not_mem_nil]
  apply Tracks.empty
  intro d _
  simp [ringBit, testBit_eq, hbmp]

theorem inv_init {x : XfrmState} {mode : Mode} (hz : Zeroed x)
    (hm : xfrmInitReplay x = .ok mode) (hw : SoundWindow mode x) :
    Inv mode (window mode x) ⟨x, []⟩ := by
  refine ⟨rfl, [], rfl, List.nodup_nil, by simp, ?_⟩
  unfold xfrmInitReplay at hm
  cases hr : x.replayEsn with
  | none =>
    rw [hr] at hm
    cases hm
    refine ⟨hw.1, hw.2, ?_, ?_⟩
    · rw [hz.seq]
      decide
    · simp only [List.not_mem_nil]
      apply Tracks.empty
      intro d _
      simp [hz.bitmap]
  | some r =>
    obtain ⟨hseq, hhi, hbmp⟩ := hz.esn r hr
    simp only [hr] at hm
    split_ifs at hm
    · cases hm
      obtain ⟨k, hk⟩ := hw r hr
      refine ⟨r, hr, ?_, by omega⟩
      have htop : r.top = 0 := by simp [ReplayEsn.top, hseq, hhi]
      rw [htop]
      exact bitmapAt_zero hk hseq hbmp
    · cases hm
      obtain ⟨k, hk⟩ := hw r hr
      refine ⟨r, hr, ?_⟩
      rw [hseq]
      exact bitmapAt_zero hk hseq hbmp

/-- No packet is accepted whose number was accepted before. -/
theorem accepted_nodup {x : XfrmState} {mode : Mode} (hz : Zeroed x)
    (hm : xfrmInitReplay x = .ok mode) (hw : SoundWindow mode x) {st : Run}
    (h : Reach (fun st pkt => some (receive mode st pkt)) (guard mode) ⟨x, []⟩ st) :
    st.accepted.Nodup := by
  apply Inv.nodup
  apply Reach.invariant (inv_init hz hm hw) _ h
  intro st st' pkt hi hg hs
  cases hs
  exact hi.receive pkt hg

def zeroState (esn : Bool) (w : ℕ) (hw : w < 2 ^ 32) : XfrmState :=
  ⟨esn, 0, ⟨0, 0⟩, some ⟨1, 0, 0, w, fun _ => 0, hw⟩, ⟨0, 0⟩⟩

def wrapPackets : List Packet :=
  [⟨2, none, by decide⟩, ⟨4000000000, none, by decide⟩, ⟨4000000000, some 0, by decide⟩,
    ⟨2, some 1, by decide⟩]

theorem accepted_nodup_wrapPackets :
    ∃ st, Reach (fun st pkt => some (receive .esn st pkt)) (guard .esn)
        ⟨zeroState true 32 (by decide), []⟩ st ∧
      st.accepted = [(1, 2), (0, 4000000000), (0, 2)] ∧ st.accepted.Nodup := by
  have hz : Zeroed (zeroState true 32 (by decide)) := by
    refine ⟨rfl, rfl, ?_⟩
    rintro r ⟨⟩
    exact ⟨rfl, rfl, fun _ => rfl⟩
  have hw : SoundWindow .esn (zeroState true 32 (by decide)) := by
    rintro r ⟨⟩
    exact ⟨5, rfl⟩
  have hrun : (runGuarded (fun st pkt => some (receive .esn st pkt)) (guard .esn)
      ⟨zeroState true 32 (by decide), []⟩ wrapPackets).map Run.accepted =
        some [(1, 2), (0, 4000000000), (0, 2)] := by
    decide +kernel
  obtain ⟨st, hst, hacc⟩ := map_eq_some_iff.mp hrun
  have hreach := Reach.of_runGuarded wrapPackets .init hst
  exact ⟨st, hreach, hacc, accepted_nodup hz rfl hw hreach⟩

/-! ## Numbers accepted twice -/

def one : Packet := ⟨1, none, by decide⟩

/-- The packets 1 and 2 in turn lead here from a zeroed state with a window of 1, round by round. -/
def lastRound : Run :=
  ⟨⟨true, 0, ⟨0, 0⟩, some ⟨1, 2, 2 ^ 32 - 1, 1, fun _ => 1, by decide⟩, ⟨0, 0⟩⟩, [(0, 1)]⟩

/-- A window that is no power of two, a high half that is at its last value, and a window of 0,
which switches the detection off. -/
theorem accepted_twice :
    (receive .bmp (receive .bmp ⟨zeroState false 3 (by decide), []⟩ one) one).accepted =
      [(0, 1), (0, 1)] ∧
    (receive .esn lastRound one).accepted = [(0, 1), (0, 1)] ∧
    (receive .bmp (receive .bmp ⟨zeroState false 0 (by decide), []⟩ one) one).accepted =
      [(0, 1), (0, 1)] := by
  refine ⟨?_, ?_, ?_⟩ <;> decide +kernel

end Cupcake.Xfrm
