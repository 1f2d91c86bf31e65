import Cupcake.Net.Xfrm.Runs

/-! Fresh numbers pass the checks. A run records the numbers of the packets that it accepts. -/

namespace Cupcake.Xfrm

/-! ## Numbers of a run -/

def top (mode : Mode) (x : XfrmState) : ℤ :=
  match mode, x.replayEsn with
  | .legacy, _ => x.replay.seq
  | .bmp, some r => r.seq
  | .esn, some r => r.top
  | _, none => 0

/-- The number that a received low half stands for. -/
def number (mode : Mode) (x : XfrmState) (seq : ℕ) : ℤ :=
  match mode, x.replayEsn with
  | .esn, some r => r.number seq
  | _, _ => seq

structure Log where
  x : XfrmState
  numbers : List ℤ

def record (mode : Mode) (st : Log) (pkt : Packet) : Log :=
  ⟨(receive mode ⟨st.x, []⟩ pkt).x,
    if pkt.verdict mode st.x = .accept then number mode st.x pkt.seq :: st.numbers
    else st.numbers⟩

/-- The number of the packet has 64 bits. -/
def inSpace (mode : Mode) (st : Log) (pkt : Packet) : Prop := number mode st.x pkt.seq < 2 ^ 64

instance (mode : Mode) (st : Log) (pkt : Packet) : Decidable (inSpace mode st pkt) :=
  inferInstanceAs (Decidable (_ < _))

/-- The number 0, which is never sent; the ESN mode looks for it as long as the window reaches
below it. -/
def Excluded (mode : Mode) (x : XfrmState) (seq : ℕ) : Prop :=
  number mode x seq = 0 ∧ (mode = .esn → top mode x < window mode x - 1)

/-- A number with the low half `seq` that is above the bottom of the window by less than
`2 ^ 32`. -/
structure IsNumber (r : ReplayEsn) (seq : ℕ) (n : ℤ) : Prop where
  modEq : n ≡ seq [ZMOD 2 ^ 32]
  low : r.top - r.replayWindow + 1 ≤ n
  high : n ≤ r.top - r.replayWindow + 2 ^ 32

theorem isNumber_iff {r : ReplayEsn} {seq : ℕ} {n : ℤ} : IsNumber r seq n ↔ n = r.number seq := by
  constructor
  · rintro ⟨hmod, hlow, hhigh⟩
    unfold Int.ModEq at hmod
    unfold ReplayEsn.number
    omega
  · rintro rfl
    refine ⟨?_, ?_, ?_⟩
    · unfold Int.ModEq ReplayEsn.number
      omega
    · unfold ReplayEsn.number
      omega
    · unfold ReplayEsn.number
      omega

/-! ## One packet -/

theorem LegacyAt.fresh {window : ℕ} {r : ReplayState} {seen : ℤ → Prop}
    (h : LegacyAt window r seen) {seq : ℕ} (hfresh : ¬ seen seq) (h0 : seq ≠ 0)
    (hwin : (r.seq : ℤ) - window < seq) : replayCheck window r seq = .accept := by
  have hpos := h.window_pos
  have hle := h.window_le
  by_cases hgt : seq > r.seq
  · rw [replayCheck, if_neg (by omega), if_neg h0, if_pos hgt]
  · have hd : r.seq - seq < window := by omega
    have hnum : (r.seq : ℤ) - (r.seq - seq : ℕ) = seq := by omega
    have hbit : ¬ r.bitmap &&& (1#32 <<< (r.seq - seq)) ≠ 0 := by
      rw [and_one_shiftLeft_ne_zero _ (by omega)]
      intro hset
      apply hfresh
      rw [← hnum]
      exact (h.tracks.bits _ hd).mp hset
    simp only [replayCheck, wsub_of_le (not_lt.mp hgt) h.seq_lt]
    rw [if_neg (by omega), if_neg h0, if_neg hgt, if_neg (by omega), if_neg hbit]

theorem BitmapAt.checkWindow_fresh {r : ReplayEsn} {top : ℤ} {seen : ℤ → Prop}
    (h : BitmapAt r top seen) {n : ℤ} {diff : ℕ} (hfresh : ¬ seen n) (hdiff : top - n = diff)
    (hd : diff < r.replayWindow) : r.checkWindow diff = .accept := by
  have hbit : ¬ testBit r.bmp (r.bitnr diff) = true := by
    rw [h.at_top.bitnr_eq hd]
    intro hset
    apply hfresh
    rw [show n = top - diff by omega]
    exact (h.tracks.bits diff hd).mp hset
  rw [ReplayEsn.checkWindow, if_neg (by omega), if_neg hbit]

section

variable {mode : Mode} {x : XfrmState} {seen : ℤ → Prop} {seq : ℕ} (h : Knows mode x seen)
  (hseq : seq < 2 ^ 32)

include h hseq

theorem Knows.fresh (hfresh : ¬ seen (number mode x seq))
    (hwin : top mode x - window mode x < number mode x seq) (hex : ¬ Excluded mode x seq) :
    verdict mode x seq = .accept := by
  cases mode with
  | legacy =>
    have h0 : seq ≠ 0 := by
      rintro rfl
      exact hex ⟨rfl, by simp⟩
    exact LegacyAt.fresh h hfresh h0 hwin
  | bmp =>
    obtain ⟨r, hr, hb⟩ := h
    have h0 : seq ≠ 0 := by
      rintro rfl
      exact hex ⟨rfl, by simp⟩
    simp only [verdict, hr]
    simp only [top, window, number, hr] at hwin hfresh
    have hpos := hb.at_top.pos
    rw [replayCheckBmp, if_neg hpos.ne', if_neg h0]
    split_ifs with hgt
    · rfl
    · rw [wsub_of_le (not_lt.mp hgt) hb.at_top.seq_lt]
      exact hb.checkWindow_fresh hfresh (by omega) (by omega)
  | esn =>
    obtain ⟨r, hr, hb, hhi⟩ := h
    simp only [Excluded, top, window, number, hr] at hwin hfresh hex
    simp only [verdict, hr]
    have htop : r.top = r.seqHi * 2 ^ 32 + r.seq := rfl
    have hzero : ¬ (seq = 0 ∧ r.seqHi = 0 ∧ r.seq < r.replayWindow - 1) := by
      rintro ⟨rfl, hhi0, hlow⟩
      refine hex ⟨?_, fun _ => by omega⟩
      have hw := r.window_lt
      rw [number_same (by omega) (by omega), hhi0]
      rfl
    rw [replayCheckEsn_eq hb.at_top.seq_lt hb.at_top.pos hseq hzero]
    split_ifs with hgt
    · rfl
    · exact hb.checkWindow_fresh hfresh (by omega) (by omega)

theorem Knows.advance (hlt : number mode x seq < 2 ^ 64) (hc : verdict mode x seq = .accept) :
    Knows mode (advance mode x seq) (fun m => m = number mode x seq ∨ seen m) ∧
      top mode (Xfrm.advance mode x seq) = max (top mode x) (number mode x seq) ∧
      window mode (Xfrm.advance mode x seq) = window mode x := by
  cases mode with
  | legacy =>
    refine ⟨(LegacyAt.accept h hseq hc).1, ?_, rfl⟩
    have hne : ¬ x.replayWindow = 0 := Nat.one_le_iff_ne_zero.mp h.window_pos
    simp only [top, number, Xfrm.advance]
    by_cases hgt : seq > x.replay.seq
    · rw [replayAdvance_new hne hgt hseq, max_eq_right (by omega)]
    · rw [replayAdvance_old hne hgt h.seq_lt, max_eq_left (by omega)]
  | bmp =>
    obtain ⟨r, hr, hb⟩ := h
    have hadv : (Xfrm.advance .bmp x seq).replayEsn = some (replayAdvanceBmp r seq) := by
      simp only [Xfrm.advance, hr, Option.map_some]
    simp only [verdict, hr] at hc
    refine ⟨⟨_, hadv, ?_⟩, ?_, ?_⟩
    · exact (hb.accept_bmp hseq hc).1
    · simp only [top, number, hadv, hr, replayAdvanceBmp, if_neg hb.at_top.pos.ne']
      split_ifs with hgt
      · rw [max_eq_right (by omega)]
      · rw [max_eq_left (by omega)]
    · simp only [window, hadv, hr, replayAdvanceBmp_window]
  | esn =>
    obtain ⟨r, hr, hb, hhi⟩ := h
    have hadv : (Xfrm.advance .esn x seq).replayEsn = some (replayAdvanceEsn r seq) := by
      simp only [Xfrm.advance, hr, Option.map_some]
    simp only [number, hr] at hlt
    obtain ⟨htop, hhi'⟩ := top_replayAdvanceEsn hb.at_top.seq_lt hhi hb.at_top.pos hseq hlt
    refine ⟨⟨_, hadv, ?_, hhi'⟩, ?_, ?_⟩
    · simp only [number, hr, htop]
      exact hb.advance_esn hseq hhi hlt
    · simp only [top, number, hadv, hr]
      exact htop
    · simp only [window, hadv, hr, replayAdvanceEsn_window]

end

/-! ## Runs -/

structure Recorded (mode : Mode) (w : ℕ) (st : Log) : Prop where
  window_eq : window mode st.x = w
  top_eq : top mode st.x = st.numbers.foldr max 0
  knows : Knows mode st.x (· ∈ st.numbers)

theorem Recorded.record {mode : Mode} {w : ℕ} {st : Log} (h : Recorded mode w st) (pkt : Packet)
    (hspace : inSpace mode st pkt) : Recorded mode w (record mode st pkt) := by
  have hk := knows_stats h.knows (st.x.stats.count (pkt.verdict mode st.x))
  by_cases haccept : pkt.verdict mode st.x = .accept
  · obtain ⟨hk, htop, hwin⟩ := hk.advance pkt.seq_lt hspace (verdict_of_packet haccept)
    simp only [Xfrm.record, receive, if_pos haccept]
    refine ⟨hwin.trans h.window_eq, ?_, ?_⟩
    · rw [List.foldr_cons, ← h.top_eq, max_comm]
      exact htop
    · simp only [List.mem_cons]
      exact hk
  · simp only [Xfrm.record, receive, if_neg haccept]
    exact ⟨h.window_eq, h.top_eq, hk⟩

theorem recorded_init {x : XfrmState} {mode : Mode} (hz : Zeroed x)
    (hm : xfrmInitReplay x = .ok mode) (hw : SoundWindow mode x) :
    Recorded mode (window mode x) ⟨x, []⟩ := by
  obtain ⟨nums, hnil, -, -, hk⟩ := (inv_init hz hm hw).exists_nums
  cases List.map_eq_nil_iff.mp hnil.symm
  refine ⟨rfl, ?_, hk⟩
  change top mode x = 0
  cases hr : x.replayEsn with
  | none => cases mode <;> simp [top, hr, hz.seq]
  | some r =>
    obtain ⟨hseq, hhi, -⟩ := hz.esn r hr
    cases mode <;> simp [top, hr, hz.seq, hseq, hhi, ReplayEsn.top]

/-- Fresh numbers above the bottom of the window pass, and `xfrm_replay_seqhi` finds the number. -/
theorem fresh_accepted {x : XfrmState} {mode : Mode} (hz : Zeroed x)
    (hm : xfrmInitReplay x = .ok mode) (hw : SoundWindow mode x) :
    (∀ st, Reach (fun st pkt => some (record mode st pkt)) (inSpace mode) ⟨x, []⟩ st →
      top mode st.x = st.numbers.foldr max 0 ∧
      ∀ seq < 2 ^ 32, number mode st.x seq ∉ st.numbers →
        top mode st.x - window mode x < number mode st.x seq → ¬ Excluded mode st.x seq →
        verdict mode st.x seq = .accept) ∧
    ∀ r : ReplayEsn, 0 < r.replayWindow → r.seq < 2 ^ 32 → r.seqHi < 2 ^ 32 →
      ∀ seq < 2 ^ 32, ∃ n, (∀ m, IsNumber r seq m ↔ m = n) ∧ encode n = (replaySeqhi r seq, seq) ∧
        (n < 2 ^ 64 → (replayAdvanceEsn r seq).top = max r.top n) := by
  constructor
  · intro st hreach
    have hrec : Recorded mode (window mode x) st := by
      apply Reach.invariant (recorded_init hz hm hw) _ hreach
      intro st st' pkt h hspace hs
      cases hs
      exact h.record pkt hspace
    refine ⟨hrec.top_eq, fun seq hseq hfresh hwin hex => ?_⟩
    rw [← hrec.window_eq] at hwin
    exact hrec.knows.fresh hseq hfresh hwin hex
  · intro r hpos hr hhi seq hseq
    exact ⟨r.number seq, fun m => isNumber_iff, encode_number hr hhi hpos hseq,
      fun hlt => (top_replayAdvanceEsn hr hhi hpos hseq hlt).1⟩

theorem fresh_accepted_late :
    ∃ st, Reach (fun st pkt => some (record .esn st pkt)) (inSpace .esn)
        ⟨zeroState true 32 (by decide), []⟩ st ∧
      st.numbers = [5] ∧ top .esn st.x = 5 ∧ verdict .esn st.x 3 = .accept := by
  have hz : Zeroed (zeroState true 32 (by decide)) := by
    refine ⟨rfl, rfl, ?_⟩
    rintro r ⟨⟩
    exact ⟨rfl, rfl, fun _ => rfl⟩
  have hw : SoundWindow .esn (zeroState true 32 (by decide)) := by
    rintro r ⟨⟩
    exact ⟨5, rfl⟩
  obtain ⟨st, hst⟩ : ∃ st, st = record .esn ⟨zeroState true 32 (by decide), []⟩
      ⟨5, none, by decide⟩ := ⟨_, rfl⟩
  have hspace : inSpace .esn ⟨zeroState true 32 (by decide), []⟩ ⟨5, none, by decide⟩ := by
    decide +kernel
  have hreach : Reach (fun st pkt => some (record .esn st pkt)) (inSpace .esn)
      ⟨zeroState true 32 (by decide), []⟩ st :=
    .step .init hspace (by rw [hst])
  have hnums : st.numbers = [5] := by
    rw [hst]
    decide +kernel
  obtain ⟨htop, hfresh⟩ := (fresh_accepted hz rfl hw).1 st hreach
  have hnum : number .esn st.x 3 = 3 := by
    rw [hst]
    decide +kernel
  have htop : top .esn st.x = 5 := by
    rw [htop, hnums]
    rfl
  refine ⟨st, hreach, hnums, htop, hfresh 3 (by decide) ?_ ?_ ?_⟩
  · rw [hnum, hnums]
    decide
  · rw [hnum, htop]
    decide
  · rintro ⟨h0, -⟩
    rw [hnum] at h0
    cases h0

theorem zero_rejected_and_top_wraps :
    verdict .esn (zeroState true 32 (by decide)) 0 = .zero ∧
    (0 : ℤ) ∉ ([] : List ℤ) ∧ number .esn (zeroState true 32 (by decide)) 0 = 0 ∧
    top .esn (zeroState true 32 (by decide)) - 32 < 0 ∧
    (replayAdvanceEsn ⟨1, 2 ^ 32 - 1, 2 ^ 32 - 1, 32, fun _ => 0, by decide⟩ 0).top = 0 := by
  decide +kernel

end Cupcake.Xfrm
