import Cupcake.Sound.SpiPcm

/-! The period accounting of `spi_data_read`. The threshold steps by the compile-time
period and the wrap subtracts the ring's own length. -/

namespace Cupcake.Sound.SpiPcm

open List

variable {bd : Board} {s : Capture} {n : ℕ}

def spiBufferBytesMax (bd : Board) : ℕ := spiBytesPerPeriod bd * 10

/-- A ring that `amzn_mt_spi_pcm_hardware` admits: one to ten periods of whole frames. -/
structure Buffer (bd : Board) extends Dma bd where
  period : ℕ
  periods : ℕ
  length_eq : area.length = periods * period
  period_frames : spiBytesPerFrame bd ∣ period
  period_min : spiPeriodBytesMin bd ≤ period
  periods_pos : 1 ≤ periods
  periods_le : periods ≤ 10
  le_max : area.length ≤ spiBufferBytesMax bd

/-- `elapsed -= dma_bytes` is reached with fewer bytes than it takes away. -/
def underflows (bd : Board) (s : Capture) (copied : ℕ) : Bool :=
  decide (s.elapsedThreshold ≤ wadd 64 s.elapsed copied ∧
    s.dmaArea.length < wadd 64 s.elapsedThreshold (spiBytesPerPeriod bd) ∧
    wadd 64 s.elapsed copied < s.dmaArea.length)

/-- The counter stays below the threshold up to one missed period, the `k`-th call of
`snd_pcm_period_elapsed` comes after `k` periods, and the counter does not underflow. -/
def Accounts (d : Dma bd) : Prop :=
  ∀ fs : List (Bool × DoughFrame bd), ∃ s, receiveAll fs (start d) = some s ∧
    s.elapsed < s.elapsedThreshold + spiBytesPerPeriod bd ∧
    s.periodElapsed * spiBytesPerPeriod bd ≤ (stream 0 fs).length ∧
    ∀ ts (f : DoughFrame bd), accepts s f = true → underflows bd s (payloadBytes ts f) = false

theorem spiBytesPerPeriod_le (bd : Board) : spiBytesPerPeriod bd ≤ 13851 := by
  unfold spiBytesPerPeriod spiBytesPerFrame spiNChannels
  split <;> decide

theorem spiBytesPerPeriod_pos (bd : Board) : 0 < spiBytesPerPeriod bd := by
  unfold spiBytesPerPeriod spiBytesPerFrame spiNChannels
  split <;> decide

theorem payloadBytes_le {f : DoughFrame bd} (h : accepts s f = true) (ts : Bool) :
    payloadBytes ts f ≤ spiBytesPerPeriod bd := by
  have hin := payload_in_frame ts f ((accepts_iff s f).mp h).2.2
  rw [f.length_bytes] at hin
  omega

theorem length_contribution (ts : Bool) (f : DoughFrame bd) :
    (contribution s.iterCount ts f).length =
      if accepts s f then payloadBytes ts f else 0 := by
  rw [contribution]
  by_cases h : accepts s f = true
  · rw [if_pos ((accepts_iff s f).mp h), if_pos h]
    exact length_payload ts f ((accepts_iff s f).mp h).2.2
  · rw [if_neg (mt (accepts_iff s f).mpr h), if_neg h]
    rfl

/-! ## Rings of whole periods -/

structure Kept (bd : Board) (length written : ℕ) (s : Capture) : Prop where
  below : s.elapsed < s.elapsedThreshold
  above : s.elapsedThreshold ≤ s.elapsed + spiBytesPerPeriod bd
  le_length : s.elapsedThreshold ≤ length
  dvd : spiBytesPerPeriod bd ∣ s.elapsedThreshold
  laps : ∃ laps, written = s.elapsed + laps * length ∧
    (s.periodElapsed + 1) * spiBytesPerPeriod bd = s.elapsedThreshold + laps * length

theorem Kept.of_counters {length written : ℕ} {t : Capture} (h : Kept bd length written s)
    (ht : counters t = counters s) : Kept bd length written t := by
  simp only [counters, Prod.mk.injEq] at ht
  obtain ⟨he, ht, hp⟩ := ht
  refine ⟨?_, ?_, ht ▸ h.le_length, ht ▸ h.dvd, ?_⟩
  · rw [he, ht]
    exact h.below
  · rw [he, ht]
    exact h.above
  · rw [he, ht, hp]
    exact h.laps

section Whole

variable {written : ℕ} (hdvd : spiBytesPerPeriod bd ∣ s.dmaArea.length)
  (hmax : s.dmaArea.length ≤ spiBufferBytesMax bd) (hn : n ≤ spiBytesPerPeriod bd)
  (h : Kept bd s.dmaArea.length written s)

include hmax hn h in
theorem Kept.wadd_eq : wadd 64 s.elapsed n = s.elapsed + n ∧
    wadd 64 s.elapsedThreshold (spiBytesPerPeriod bd) =
      s.elapsedThreshold + spiBytesPerPeriod bd := by
  have := spiBytesPerPeriod_le bd
  have := h.below
  have := h.le_length
  rw [spiBufferBytesMax] at hmax
  exact ⟨wadd_of_lt (by omega), wadd_of_lt (by omega)⟩

include hdvd h in
-- The threshold is a multiple of the period, so it passes the end of the ring only from there.
theorem Kept.eq_length (hend : s.dmaArea.length < s.elapsedThreshold + spiBytesPerPeriod bd) :
    s.elapsedThreshold = s.dmaArea.length := by
  obtain ⟨a, ha⟩ := h.dvd
  obtain ⟨b, hb⟩ := hdvd
  have hle := h.le_length
  rw [ha, hb] at hle hend ⊢
  have hab := Nat.le_of_mul_le_mul_left hle (spiBytesPerPeriod_pos bd)
  rw [← Nat.mul_succ] at hend
  have hba := Nat.lt_of_mul_lt_mul_left hend
  rw [show a = b by omega]

include hdvd hmax hn h

theorem Kept.not_underflows : underflows bd s n = false := by
  obtain ⟨he, ht⟩ := h.wadd_eq hmax hn
  rw [underflows, he, ht, decide_eq_false_iff_not]
  rintro ⟨hreach, hend, hlt⟩
  have := h.eq_length hdvd hend
  omega

theorem Kept.accountPeriod : Kept bd s.dmaArea.length (written + n) (accountPeriod bd s n) := by
  obtain ⟨he, ht⟩ := h.wadd_eq hmax hn
  have hpos := spiBytesPerPeriod_pos bd
  have hbelow := h.below
  have habove := h.above
  obtain ⟨laps, hw, hcalls⟩ := h.laps
  have hcalls' : (s.periodElapsed + 1 + 1) * spiBytesPerPeriod bd =
      s.elapsedThreshold + laps * s.dmaArea.length + spiBytesPerPeriod bd := by
    rw [Nat.succ_mul, hcalls]
  simp only [SpiPcm.accountPeriod, he, ht]
  split_ifs with hreach hend
  · have hlen := h.eq_length hdvd hend
    have hsub : wsub 64 (s.elapsed + n) s.dmaArea.length = s.elapsed + n - s.dmaArea.length := by
      have := spiBytesPerPeriod_le bd
      rw [spiBufferBytesMax] at hmax
      exact wsub_of_le (by omega) (by omega)
    refine ⟨?_, Nat.le_add_left _ _, Nat.le_of_dvd (by omega) hdvd, dvd_rfl, laps + 1, ?_, ?_⟩
    · simp only [hsub]
      omega
    · simp only [hsub, Nat.succ_mul]
      omega
    · simp only [hcalls', Nat.succ_mul]
      omega
  · exact ⟨by simp only; omega, by simp only; omega, not_lt.mp hend, Nat.dvd_add h.dvd dvd_rfl, laps,
      by simp only; omega, by simp only [hcalls']; omega⟩
  · exact ⟨not_le.mp hreach, by simp only; omega, h.le_length, h.dvd, laps, by simp only; omega, hcalls⟩

end Whole

theorem receiveAll_kept (fs : List (Bool × DoughFrame bd)) {written : ℕ}
    (hdvd : spiBytesPerPeriod bd ∣ s.dmaArea.length)
    (hmax : s.dmaArea.length ≤ spiBufferBytesMax bd) (hmin : spiPeriodBytesMin bd ≤ s.dmaArea.length)
    (hoff : s.curWriteOffset < s.dmaArea.length) (hiter : s.iterCount ≤ maxFlushedCycles)
    (h : Kept bd s.dmaArea.length written s) :
    ∃ s', receiveAll fs s = some s' ∧ s'.dmaArea.length = s.dmaArea.length ∧
      Kept bd s.dmaArea.length (written + (stream s.iterCount fs).length) s' := by
  induction fs generalizing s written with
  | nil => exact ⟨s, rfl, rfl, h⟩
  | cons p fs ih =>
    obtain ⟨ts, f⟩ := p
    obtain ⟨s₁, h₁, harea, hcoff, hcount, hcounters⟩ := receive_spec ts f hmin hoff hiter
    have hlen : s₁.dmaArea.length = s.dmaArea.length := by rw [harea, Ring.length_writeFrom]
    have hkept : Kept bd s.dmaArea.length
        (written + (contribution s.iterCount ts f).length) s₁ := by
      rw [length_contribution]
      split_ifs at hcounters ⊢ with hacc
      · exact (h.accountPeriod hdvd hmax (payloadBytes_le hacc ts)).of_counters hcounters
      · exact h.of_counters hcounters
    obtain ⟨s', hrun, hlen', hkept'⟩ := ih (s := s₁) (hlen ▸ hdvd) (hlen ▸ hmax) (hlen ▸ hmin)
      (by rw [hcoff, hlen]; exact Nat.mod_lt _ (by omega)) (by omega) (hlen ▸ hkept)
    refine ⟨s', by rw [receiveAll, h₁, Option.bind_some, hrun], hlen'.trans hlen, ?_⟩
    rw [hlen, hcount, Nat.add_assoc] at hkept'
    rwa [stream, length_append]

theorem accounts_of_dvd (d : Buffer bd) (hdvd : spiBytesPerPeriod bd ∣ d.area.length) :
    Accounts d.toDma := by
  intro fs
  have hpos := spiBytesPerPeriod_pos bd
  have hmin := d.min_le
  rw [spiPeriodBytesMin, Nat.mul_one] at hmin
  have hkept : Kept bd d.area.length 0 (start d.toDma) :=
    ⟨hpos, by simp [start], hmin, dvd_rfl, 0, by simp [start], by simp [start]⟩
  obtain ⟨s, hrun, hlen, h⟩ := receiveAll_kept fs (s := start d.toDma) hdvd d.le_max d.min_le
    (hpos.trans_le hmin) (Nat.zero_le _) hkept
  have harea : s.dmaArea.length = d.area.length := hlen
  refine ⟨s, hrun, by have := h.below; omega, ?_, fun ts f hacc => ?_⟩
  · obtain ⟨laps, hw, hcalls⟩ := h.laps
    have habove := h.above
    have hw : (stream 0 fs).length = _ := (Nat.zero_add _).symm.trans hw
    rw [Nat.succ_mul] at hcalls
    omega
  · exact Kept.not_underflows (harea ▸ hdvd) (harea ▸ d.le_max) (payloadBytes_le hacc ts) (harea ▸ h)

/-! ## Other rings -/

theorem length_fullFrame (bd : Board) :
    (replicate (spiBytesPerFrame bd - 8) (0 : UInt8) ++ ([0, 2, 0, 0, 0, 0, 0, 30] ++
      replicate (spiBytesPerFrame bd * doughAudioFrameBuf) 0)).length =
      spiBytesPerPeriod bd := by
  have h : 8 ≤ spiBytesPerFrame bd := by
    unfold spiBytesPerFrame spiNChannels
    split <;> decide
  simp only [length_append, length_replicate, length_cons, length_nil, spiBytesPerPeriod,
    Nat.mul_succ]
  omega

def fullFrame (bd : Board) : DoughFrame bd where
  bytes := List.replicate (spiBytesPerFrame bd - 8) 0 ++ ([0, 2, 0, 0, 0, 0, 0, 30] ++
    List.replicate (spiBytesPerFrame bd * doughAudioFrameBuf) 0)
  length_bytes := length_fullFrame bd

theorem accepts_fullFrame (s : Capture) : accepts s (fullFrame bd) = true := by
  have hfields : verifyFpgaFrmVer (fullFrame bd).fpgaRev = true ∧ (fullFrame bd).overrun = 0 ∧
      (fullFrame bd).numAudioFrames = 512 := by
    obtain ⟨_ | _⟩ := bd <;> exact ⟨rfl, rfl, rfl⟩
  rw [accepts_iff, hfields.2.1, hfields.2.2]
  exact ⟨hfields.1, by simp, le_rfl⟩

theorem payloadBytes_fullFrame : payloadBytes true (fullFrame bd) = spiBytesPerPeriod bd := by
  have hframes : (fullFrame bd).numAudioFrames = 512 := by
    obtain ⟨_ | _⟩ := bd <;> rfl
  rw [payloadBytes, if_pos rfl, hframes, spiBytesPerPeriod, Nat.mul_comm]
  rfl

theorem counters_full {j : ℕ} (hmax : s.dmaArea.length ≤ spiBufferBytesMax bd)
    (hs : counters s = (j * spiBytesPerPeriod bd, (j + 1) * spiBytesPerPeriod bd, j))
    (hend : (j + 2) * spiBytesPerPeriod bd ≤ s.dmaArea.length) :
    counters (accountPeriod bd s (spiBytesPerPeriod bd)) =
      ((j + 1) * spiBytesPerPeriod bd, (j + 2) * spiBytesPerPeriod bd, j + 1) := by
  have hle := spiBytesPerPeriod_le bd
  simp only [counters, Prod.mk.injEq] at hs
  rw [spiBufferBytesMax] at hmax
  simp only [Nat.succ_mul] at hs hend ⊢
  rw [accountPeriod, hs.1, hs.2.1, wadd_of_lt (by omega), wadd_of_lt (by omega), if_pos le_rfl,
    if_neg (by omega)]
  simp only [counters, hs.2.2]

theorem receiveAll_fullFrames (k : ℕ) {j : ℕ} (hmax : s.dmaArea.length ≤ spiBufferBytesMax bd)
    (hmin : spiPeriodBytesMin bd ≤ s.dmaArea.length)
    (hoff : s.curWriteOffset < s.dmaArea.length) (hiter : s.iterCount ≤ maxFlushedCycles)
    (hs : counters s = (j * spiBytesPerPeriod bd, (j + 1) * spiBytesPerPeriod bd, j))
    (hend : (j + k + 1) * spiBytesPerPeriod bd ≤ s.dmaArea.length) :
    ∃ s', receiveAll (replicate k (true, fullFrame bd)) s = some s' ∧
      s'.dmaArea.length = s.dmaArea.length ∧ counters s' =
        ((j + k) * spiBytesPerPeriod bd, (j + k + 1) * spiBytesPerPeriod bd, j + k) := by
  induction k generalizing s j with
  | zero => exact ⟨s, rfl, rfl, hs⟩
  | succ k ih =>
    obtain ⟨s₁, h₁, harea, hcoff, hcount, hcounters⟩ :=
      receive_spec true (fullFrame bd) hmin hoff hiter
    have hlen : s₁.dmaArea.length = s.dmaArea.length := by rw [harea, Ring.length_writeFrom]
    have hend' : (j + 2) * spiBytesPerPeriod bd ≤ s.dmaArea.length :=
      (Nat.mul_le_mul_right _ (by omega)).trans hend
    rw [if_pos (accepts_fullFrame s), payloadBytes_fullFrame, counters_full hmax hs hend'] at hcounters
    obtain ⟨s', hrun, hlen', hs'⟩ := ih (s := s₁) (hlen ▸ hmax) (hlen ▸ hmin)
      (by rw [hcoff, hlen]; exact Nat.mod_lt _ (by omega)) (by omega) hcounters
      (by rw [hlen, show j + 1 + k + 1 = j + (k + 1) + 1 by omega]; exact hend)
    refine ⟨s', by rw [replicate_succ, receiveAll, h₁, Option.bind_some, hrun],
      hlen'.trans hlen, ?_⟩
    rw [hs', show j + 1 + k = j + (k + 1) by omega]

theorem dvd_of_accounts (d : Buffer bd) (h : Accounts d.toDma) :
    spiBytesPerPeriod bd ∣ d.area.length := by
  have hpos := spiBytesPerPeriod_pos bd
  have hle := spiBytesPerPeriod_le bd
  have hmin := d.min_le
  have hmax := d.le_max
  rw [spiPeriodBytesMin, Nat.mul_one] at hmin
  obtain ⟨q, hq⟩ : ∃ q, d.area.length / spiBytesPerPeriod bd = q + 1 :=
    ⟨d.area.length / spiBytesPerPeriod bd - 1, by have := Nat.div_pos hmin hpos; omega⟩
  have hdiv := Nat.div_add_mod d.area.length (spiBytesPerPeriod bd)
  have hmod := Nat.mod_lt d.area.length hpos
  rw [hq, Nat.mul_comm, Nat.succ_mul] at hdiv
  obtain ⟨s, hrun, hlen, hs⟩ := receiveAll_fullFrames q (s := start d.toDma) (j := 0) d.le_max
    d.min_le (hpos.trans_le hmin) (Nat.zero_le _) (by simp [counters, start])
    (by rw [Nat.zero_add, Nat.succ_mul]; show _ ≤ d.area.length; omega)
  obtain ⟨s', hrun', -, -, hflow⟩ := h (replicate q (true, fullFrame bd))
  obtain rfl := Option.some.inj (hrun.symm.trans hrun')
  have hlen : s.dmaArea.length = d.area.length := hlen
  simp only [counters, Prod.mk.injEq, Nat.zero_add, Nat.succ_mul] at hs
  have hflow := hflow true (fullFrame bd) (accepts_fullFrame s)
  rw [spiBufferBytesMax] at hmax
  rw [underflows, payloadBytes_fullFrame, hs.1, hs.2.1, hlen, wadd_of_lt (by omega),
    wadd_of_lt (by omega), decide_eq_false_iff_not] at hflow
  refine Nat.dvd_of_mod_eq_zero ?_
  by_contra hne
  exact hflow ⟨le_rfl, by omega, by omega⟩

/-- The accounting is right exactly for the rings of whole periods of `SPI_BYTES_PER_PERIOD`. -/
theorem accounts_iff_dvd (d : Buffer bd) :
    Accounts d.toDma ↔ spiBytesPerPeriod bd ∣ d.area.length :=
  ⟨dvd_of_accounts d, accounts_of_dvd d⟩

def oddBuffer : Buffer ⟨false⟩ where
  area := List.replicate 13878 0
  frame_dvd := by rw [length_replicate]; decide
  min_le := by rw [length_replicate]; decide
  period := 13878
  periods := 1
  length_eq := by rw [length_replicate]
  period_frames := by decide
  period_min := by decide
  periods_pos := le_rfl
  periods_le := by decide
  le_max := by rw [length_replicate]; decide

theorem oddBuffer_underflow : ∃ s,
    receiveAll [(true, fullFrame ⟨false⟩)] (start oddBuffer.toDma) = some s ∧
      s.elapsed = 2 ^ 64 - 27 := by
  have hlen : (start oddBuffer.toDma).dmaArea.length = 13878 := length_replicate
  obtain ⟨s, hs, -, -, -, hcounters⟩ := receive_spec true (fullFrame ⟨false⟩)
    (s := start oddBuffer.toDma) oddBuffer.min_le (by rw [hlen]; decide) (Nat.zero_le _)
  refine ⟨s, by rw [receiveAll, hs]; rfl, ?_⟩
  rw [if_pos (accepts_fullFrame _), payloadBytes_fullFrame, accountPeriod, hlen] at hcounters
  exact congrArg Prod.fst hcounters

end Cupcake.Sound.SpiPcm
