import Cupcake.Lib.Ring
import Cupcake.Lib.Word

/-! The capture thread of the SPI microphone driver (`amzn-mt-spi-pcm.c`): the payload of an
accepted frame is copied into the PCM ring. -/

namespace Cupcake.Sound.SpiPcm

open List Option

/-- `CONFIG_SND_I2S_MCLK` selects the board with six channels. -/
structure Board where
  sndI2sMclk : Bool

variable (bd : Board)

def spiNChannels : ℕ := if bd.sndI2sMclk then 6 else 9
def spiBytesPerFrame : ℕ := spiNChannels bd * 3
def doughAudioFrameBuf : ℕ := 512
def spiBytesPerPeriod : ℕ := spiBytesPerFrame bd * (doughAudioFrameBuf + 1)
def spiPeriodBytesMin : ℕ := spiBytesPerPeriod bd * 1
def maxFlushedCycles : ℕ := 10
def doughFpgaRevMin : ℕ := 30
def doughFpgaRevMax : ℕ := 251

/-- `struct dough_frame` as the bytes the SPI transfer leaves in memory: the
packed status frame, as long as one audio frame, then the audio frames. -/
structure DoughFrame where
  bytes : List UInt8
  length_bytes : bytes.length = spiBytesPerPeriod bd

variable {bd}

namespace DoughFrame

def byte (f : DoughFrame bd) (i : ℕ) : ℕ := (f.bytes.getD i 0).toNat

-- The reserved bytes in front pad the status frame to one audio frame, so its
-- fields sit at fixed distances from the first audio frame.
def numAudioFrames (f : DoughFrame bd) : ℕ :=
  f.byte (spiBytesPerFrame bd - 8) + 256 * f.byte (spiBytesPerFrame bd - 7)
def overrun (f : DoughFrame bd) : ℕ := f.byte (spiBytesPerFrame bd - 2)
def fpgaRev (f : DoughFrame bd) : ℕ := f.byte (spiBytesPerFrame bd - 1)

end DoughFrame

def verifyFpgaFrmVer (ver : ℕ) : Bool := !(ver < doughFpgaRevMin || doughFpgaRevMax < ver)

/-- The part of `struct amzn_spi_priv`, of the PCM runtime and of the thread's
locals that the loop of `spi_data_read` carries from frame to frame. -/
structure Capture where
  dmaArea : List UInt8
  curWriteOffset : ℕ
  elapsed : ℕ
  elapsedThreshold : ℕ
  iterCount : ℕ
  /-- calls of `snd_pcm_period_elapsed` so far -/
  periodElapsed : ℕ

def memcpy (dst : List UInt8) (dstOff : ℕ) (src : List UInt8) (srcOff n : ℕ) :
    Option (List UInt8) :=
  if dstOff + n ≤ dst.length ∧ srcOff + n ≤ src.length then
    some (dst.take dstOff ++ (src.drop srcOff).take n ++ dst.drop (dstOff + n))
  else none

/-- The locals of the copy loop. `srcPtr` is the offset of `src_ptr` in the frame. -/
structure Copy where
  dmaArea : List UInt8
  curWriteOffset : ℕ
  srcPtr : ℕ
  nBytes : ℕ
  copied : ℕ

/-- One turn of `while (n_bytes > 0)`. -/
def copyChunk (src : List UInt8) (c : Copy) : Option Copy :=
  let dmaBytes := c.dmaArea.length
  let bytes := min (dmaBytes - c.curWriteOffset) c.nBytes
  let srcPtr := c.srcPtr + c.copied
  (memcpy c.dmaArea c.curWriteOffset src srcPtr bytes).map fun area =>
    { dmaArea := area
      curWriteOffset := (c.curWriteOffset + bytes) % dmaBytes
      srcPtr := srcPtr
      nBytes := c.nBytes - bytes
      copied := c.copied + bytes }

def copyLoop (src : List UInt8) : ℕ → Copy → Option Copy
  | 0, c => if c.nBytes > 0 then none else some c
  | fuel + 1, c => if c.nBytes > 0 then (copyChunk src c).bind (copyLoop src fuel) else some c

/-- The period bookkeeping after a copied frame; the counters are `size_t`. -/
def accountPeriod (bd : Board) (s : Capture) (copied : ℕ) : Capture :=
  let elapsed := wadd 64 s.elapsed copied
  if elapsed ≥ s.elapsedThreshold then
    let threshold := wadd 64 s.elapsedThreshold (spiBytesPerPeriod bd)
    if threshold > s.dmaArea.length then
      { s with
        elapsedThreshold := spiBytesPerPeriod bd
        elapsed := wsub 64 elapsed s.dmaArea.length
        periodElapsed := s.periodElapsed + 1 }
    else
      { s with elapsedThreshold := threshold, elapsed := elapsed, periodElapsed := s.periodElapsed + 1 }
  else { s with elapsed := elapsed }

def delay (s : Capture) : Capture :=
  if s.iterCount < maxFlushedCycles then { s with iterCount := s.iterCount + 1 } else s

/-- The frames the loop copies; the others go straight to `delay`. -/
def accepts (s : Capture) (f : DoughFrame bd) : Bool :=
  verifyFpgaFrmVer f.fpgaRev &&
  !(f.overrun == 1 && s.iterCount < maxFlushedCycles) &&
  !(f.numAudioFrames > doughAudioFrameBuf)

/-- Where the payload starts: the whole frame with the timestamp header on,
`rx_df->daf` with it off. -/
def payloadOffset (bd : Board) (timestamps : Bool) : ℕ :=
  if timestamps then 0 else spiBytesPerFrame bd

def payloadBytes (timestamps : Bool) (f : DoughFrame bd) : ℕ :=
  if timestamps then (f.numAudioFrames + 1) * spiBytesPerFrame bd
  else f.numAudioFrames * spiBytesPerFrame bd

/-- One turn of the loop of `spi_data_read`, for one received frame. -/
def receive (timestamps : Bool) (f : DoughFrame bd) (s : Capture) : Option Capture :=
  if accepts s f then
    let n := payloadBytes timestamps f
    (copyLoop f.bytes n
      { dmaArea := s.dmaArea, curWriteOffset := s.curWriteOffset
        srcPtr := payloadOffset bd timestamps, nBytes := n, copied := 0 }).map fun c =>
      delay (accountPeriod bd
        { s with dmaArea := c.dmaArea, curWriteOffset := c.curWriteOffset } c.copied)
  else some (delay s)

/-- The thread's loop over the frames it receives, each with the setting of
`transfer_timestamps_enab` at that time. -/
def receiveAll : List (Bool × DoughFrame bd) → Capture → Option Capture
  | [], s => some s
  | (ts, f) :: fs, s => (receive ts f s).bind (receiveAll fs)

/-- The ring the PCM layer hands over: a whole number of frames, and at least
the smallest period the hardware description allows. -/
structure Dma (bd : Board) where
  area : List UInt8
  frame_dvd : spiBytesPerFrame bd ∣ area.length
  min_le : spiPeriodBytesMin bd ≤ area.length

def start (d : Dma bd) : Capture where
  dmaArea := d.area
  curWriteOffset := 0
  elapsed := 0
  elapsedThreshold := spiBytesPerPeriod bd
  iterCount := 0
  periodElapsed := 0

/-! ## The payload stream -/

def payload (timestamps : Bool) (f : DoughFrame bd) : List UInt8 :=
  (f.bytes.drop (payloadOffset bd timestamps)).take (payloadBytes timestamps f)

def contribution (iter : ℕ) (timestamps : Bool) (f : DoughFrame bd) : List UInt8 :=
  if verifyFpgaFrmVer f.fpgaRev ∧ ¬(f.overrun = 1 ∧ iter < maxFlushedCycles) ∧
      f.numAudioFrames ≤ doughAudioFrameBuf then payload timestamps f else []

/-- The concatenated payload of the accepted frames. -/
def stream : ℕ → List (Bool × DoughFrame bd) → List UInt8
  | _, [] => []
  | iter, (ts, f) :: fs =>
    contribution iter ts f ++ stream (min (iter + 1) maxFlushedCycles) fs

/-! ## The copy loop -/

theorem copyLoop_done (src : List UInt8) (fuel : ℕ) (c : Copy) (h : c.nBytes = 0) :
    copyLoop src fuel c = some c := by
  cases fuel <;> simp [copyLoop, h]

theorem copyLoop_step {src : List UInt8} {fuel : ℕ} {c c' : Copy} (hn : 0 < c.nBytes)
    (hc : copyChunk src c = some c') : copyLoop src (fuel + 1) c = copyLoop src fuel c' := by
  rw [copyLoop, if_pos hn, hc, bind_some]

theorem copyChunk_eq (src : List UInt8) {c : Copy} {b : ℕ}
    (hb : b = min (c.dmaArea.length - c.curWriteOffset) c.nBytes)
    (hoff : c.curWriteOffset ≤ c.dmaArea.length)
    (hsrc : c.srcPtr + c.copied + b ≤ src.length) :
    copyChunk src c = some
      { dmaArea := Ring.writeFrom c.dmaArea c.curWriteOffset
          ((src.drop (c.srcPtr + c.copied)).take b)
        curWriteOffset := (c.curWriteOffset + b) % c.dmaArea.length
        srcPtr := c.srcPtr + c.copied
        nBytes := c.nBytes - b
        copied := c.copied + b } := by
  have hdst : c.curWriteOffset + b ≤ c.dmaArea.length := by omega
  have hlen : ((src.drop (c.srcPtr + c.copied)).take b).length = b := by
    rw [length_take, length_drop]
    omega
  rw [Ring.writeFrom_eq_splice _ _ _ (by rw [hlen]; exact hdst), hlen]
  simp only [copyChunk, ← hb, memcpy, hdst, hsrc, and_self, if_true, map_some]

theorem copyLoop_spec (src : List UInt8) (fuel : ℕ) {n : ℕ} {c : Copy}
    (hn : c.nBytes = n) (hcopied : c.copied = 0) (hfuel : n ≤ fuel)
    (hoff : c.curWriteOffset < c.dmaArea.length) (hfit : n ≤ c.dmaArea.length)
    (hsrc : c.srcPtr + n ≤ src.length) :
    ∃ c', copyLoop src fuel c = some c' ∧
      c'.dmaArea = Ring.writeFrom c.dmaArea c.curWriteOffset ((src.drop c.srcPtr).take n) ∧
      c'.curWriteOffset = (c.curWriteOffset + n) % c.dmaArea.length ∧ c'.copied = n := by
  rcases Nat.eq_zero_or_pos n with hzero | hpos
  · refine ⟨c, copyLoop_done src fuel c (hn.trans hzero), ?_, ?_, ?_⟩
    · simp [hzero, Ring.writeFrom]
    · rw [hzero, Nat.add_zero, Nat.mod_eq_of_lt hoff]
    · rw [hcopied, hzero]
  obtain ⟨fuel, rfl⟩ : ∃ k, fuel = k + 1 := ⟨fuel - 1, by omega⟩
  rcases le_or_gt n (c.dmaArea.length - c.curWriteOffset) with hone | htwo
  · -- the frame fits in front of the end of the ring
    have hchunk := copyChunk_eq src (c := c) (b := n) (by omega) hoff.le (by omega)
    rw [hcopied, Nat.add_zero, Nat.zero_add] at hchunk
    exact ⟨_, (copyLoop_step (by omega) hchunk).trans
      (copyLoop_done _ _ _ (by simp only; omega)), rfl, rfl, rfl⟩
  · -- the frame wraps: the rest is copied to the start of the ring
    obtain ⟨fuel, rfl⟩ : ∃ k, fuel = k + 1 := ⟨fuel - 1, by omega⟩
    set b := c.dmaArea.length - c.curWriteOffset with hb
    have hchunk := copyChunk_eq src (c := c) (b := b) (by omega) hoff.le (by omega)
    have hend : c.curWriteOffset + b = c.dmaArea.length := by omega
    rw [hcopied, Nat.add_zero, Nat.zero_add, hend, Nat.mod_self] at hchunk
    set area := Ring.writeFrom c.dmaArea c.curWriteOffset ((src.drop c.srcPtr).take b) with harea
    have hlen : area.length = c.dmaArea.length := Ring.length_writeFrom ..
    have hrest := copyChunk_eq src (b := n - b)
      (c := ⟨area, 0, c.srcPtr, c.nBytes - b, b⟩)
      (by simp only; omega) (Nat.zero_le _) (by simp only; omega)
    refine ⟨_, (copyLoop_step (by omega) hchunk).trans ((copyLoop_step (by simp only; omega)
      hrest).trans (copyLoop_done _ _ _ (by simp only; omega))), ?_, ?_, ?_⟩
    · have hsplit : (src.drop c.srcPtr).take n =
          (src.drop c.srcPtr).take b ++ (src.drop (c.srcPtr + b)).take (n - b) := by
        rw [← drop_drop, ← take_add, show b + (n - b) = n by omega]
      have hb' : ((src.drop c.srcPtr).take b).length = b := by
        rw [length_take, length_drop]
        omega
      have hzero : ∀ as, Ring.writeFrom area c.dmaArea.length as = Ring.writeFrom area 0 as := by
        intro as
        rw [← Ring.writeFrom_mod area c.dmaArea.length, hlen, Nat.mod_self]
      rw [hsplit, Ring.writeFrom_append, hb', hend, ← harea, hzero]
    · simp only [Nat.zero_add, hlen]
      rw [show c.curWriteOffset + n = n - b + c.dmaArea.length by omega, Nat.add_mod_right]
    · simp only
      omega

/-! ## A frame, and a run of frames -/

theorem payload_in_frame (ts : Bool) (f : DoughFrame bd)
    (h : f.numAudioFrames ≤ doughAudioFrameBuf) :
    payloadOffset bd ts + payloadBytes ts f ≤ f.bytes.length := by
  rw [f.length_bytes, spiBytesPerPeriod]
  have hmul : f.numAudioFrames * spiBytesPerFrame bd ≤ doughAudioFrameBuf * spiBytesPerFrame bd :=
    Nat.mul_le_mul_right _ h
  cases ts <;> simp only [payloadOffset, payloadBytes, Bool.false_eq_true, if_false, if_true] <;>
    linarith

theorem length_payload (ts : Bool) (f : DoughFrame bd)
    (h : f.numAudioFrames ≤ doughAudioFrameBuf) : (payload ts f).length = payloadBytes ts f := by
  have := payload_in_frame ts f h
  rw [payload, length_take, length_drop]
  omega

theorem spiPeriodBytesMin_pos : 0 < spiPeriodBytesMin bd := by
  unfold spiPeriodBytesMin spiBytesPerPeriod spiBytesPerFrame spiNChannels doughAudioFrameBuf
  split <;> decide

theorem delay_accountPeriod (bd : Board) (s : Capture) (copied : ℕ) :
    (delay (accountPeriod bd s copied)).dmaArea = s.dmaArea ∧
    (delay (accountPeriod bd s copied)).curWriteOffset = s.curWriteOffset ∧
    (delay (accountPeriod bd s copied)).iterCount =
      if s.iterCount < maxFlushedCycles then s.iterCount + 1 else s.iterCount := by
  have h : (accountPeriod bd s copied).dmaArea = s.dmaArea ∧
      (accountPeriod bd s copied).curWriteOffset = s.curWriteOffset ∧
      (accountPeriod bd s copied).iterCount = s.iterCount := by
    simp only [accountPeriod]
    split_ifs <;> exact ⟨rfl, rfl, rfl⟩
  obtain ⟨harea, hoff, hiter⟩ := h
  unfold delay
  rw [hiter]
  split_ifs <;> exact ⟨harea, hoff, by simp [hiter]⟩

theorem accepts_iff (s : Capture) (f : DoughFrame bd) :
    accepts s f = true ↔ verifyFpgaFrmVer f.fpgaRev = true ∧
      ¬(f.overrun = 1 ∧ s.iterCount < maxFlushedCycles) ∧
      f.numAudioFrames ≤ doughAudioFrameBuf := by
  simp [accepts, and_assoc, imp_iff_not_or]

def counters (s : Capture) : ℕ × ℕ × ℕ := (s.elapsed, s.elapsedThreshold, s.periodElapsed)

@[simp] theorem counters_delay (s : Capture) : counters (delay s) = counters s := by
  unfold delay
  split <;> rfl

theorem counters_accountPeriod {s t : Capture} (h : counters t = counters s)
    (hlen : t.dmaArea.length = s.dmaArea.length) (n : ℕ) :
    counters (accountPeriod bd t n) = counters (accountPeriod bd s n) := by
  simp only [counters, Prod.mk.injEq] at h
  obtain ⟨he, ht, hp⟩ := h
  simp only [accountPeriod, he, ht, hp, hlen]
  split_ifs <;> rfl

theorem receive_spec (ts : Bool) (f : DoughFrame bd) {s : Capture}
    (hmin : spiPeriodBytesMin bd ≤ s.dmaArea.length)
    (hoff : s.curWriteOffset < s.dmaArea.length) (hiter : s.iterCount ≤ maxFlushedCycles) :
    ∃ s', receive ts f s = some s' ∧
      s'.dmaArea = Ring.writeFrom s.dmaArea s.curWriteOffset (contribution s.iterCount ts f) ∧
      s'.curWriteOffset =
        (s.curWriteOffset + (contribution s.iterCount ts f).length) % s.dmaArea.length ∧
      s'.iterCount = min (s.iterCount + 1) maxFlushedCycles ∧
      counters s' = if accepts s f then counters (accountPeriod bd s (payloadBytes ts f))
        else counters s := by
  have hnext : (if s.iterCount < maxFlushedCycles then s.iterCount + 1 else s.iterCount) =
      min (s.iterCount + 1) maxFlushedCycles := by
    split <;> omega
  by_cases hacc : accepts s f = true
  · have hcond := (accepts_iff s f).mp hacc
    have hframes := hcond.2.2
    have hlen := length_payload ts f hframes
    have hin := payload_in_frame ts f hframes
    have hfit : payloadBytes ts f ≤ s.dmaArea.length := by
      rw [f.length_bytes] at hin
      rw [spiPeriodBytesMin, Nat.mul_one] at hmin
      omega
    rw [contribution, if_pos hcond, hlen]
    obtain ⟨c, hloop, harea, hcoff, hcopied⟩ := copyLoop_spec f.bytes
      (payloadBytes ts f) (n := payloadBytes ts f)
      (c := ⟨s.dmaArea, s.curWriteOffset, payloadOffset bd ts, payloadBytes ts f, 0⟩)
      rfl rfl le_rfl hoff hfit hin
    obtain ⟨h1, h2, h3⟩ := delay_accountPeriod bd
      { s with dmaArea := c.dmaArea, curWriteOffset := c.curWriteOffset } c.copied
    refine ⟨_, ?_, h1.trans harea, h2.trans hcoff, h3.trans hnext, ?_⟩
    · simp only [receive, hacc, if_true, hloop, map_some]
    · rw [if_pos hacc, counters_delay, hcopied]
      apply counters_accountPeriod
      · rfl
      · exact (congrArg List.length harea).trans (Ring.length_writeFrom ..)
  · rw [contribution, if_neg (mt (accepts_iff s f).mpr hacc)]
    refine ⟨delay s, by simp only [receive, hacc, Bool.false_eq_true, if_false], ?_, ?_, ?_,
      by rw [if_neg hacc, counters_delay]⟩
    · unfold delay
      split <;> rfl
    · rw [length_nil, Nat.add_zero, Nat.mod_eq_of_lt hoff]
      unfold delay
      split <;> rfl
    · rw [← hnext]
      unfold delay
      split <;> rfl

theorem receiveAll_spec (fs : List (Bool × DoughFrame bd)) {s : Capture}
    (hmin : spiPeriodBytesMin bd ≤ s.dmaArea.length)
    (hoff : s.curWriteOffset < s.dmaArea.length) (hiter : s.iterCount ≤ maxFlushedCycles) :
    ∃ s', receiveAll fs s = some s' ∧
      s'.dmaArea = Ring.writeFrom s.dmaArea s.curWriteOffset (stream s.iterCount fs) ∧
      s'.curWriteOffset =
        (s.curWriteOffset + (stream s.iterCount fs).length) % s.dmaArea.length := by
  induction fs generalizing s with
  | nil =>
    refine ⟨s, rfl, rfl, ?_⟩
    rw [stream, length_nil, Nat.add_zero, Nat.mod_eq_of_lt hoff]
  | cons p fs ih =>
    obtain ⟨ts, f⟩ := p
    obtain ⟨s₁, h₁, harea, hcoff, hcount, -⟩ := receive_spec ts f hmin hoff hiter
    have hlen : s₁.dmaArea.length = s.dmaArea.length := by rw [harea, Ring.length_writeFrom]
    have hpos : 0 < s.dmaArea.length := by omega
    obtain ⟨s', h', harea', hcoff'⟩ := ih (s := s₁) (by omega)
      (by rw [hcoff, hlen]; exact Nat.mod_lt _ hpos) (by omega)
    refine ⟨s', by rw [receiveAll, h₁, bind_some, h'], ?_, ?_⟩
    · rw [harea', hcoff, harea, hcount, stream, Ring.writeFrom_append]
      conv_lhs => rw [← Ring.length_writeFrom s.dmaArea s.curWriteOffset
        (contribution s.iterCount ts f), Ring.writeFrom_mod]
    · rw [hcoff', hlen, hcoff, hcount, stream, length_append, Nat.mod_add_mod, Nat.add_assoc]

/-- The write offset is the number of payload bytes modulo the ring, and every cell holds the byte
written to it last. -/
theorem receiveAll_ring (d : Dma bd) (fs : List (Bool × DoughFrame bd)) :
    ∃ s, receiveAll fs (start d) = some s ∧
      s.dmaArea.length = d.area.length ∧
      s.curWriteOffset = (stream 0 fs).length % d.area.length ∧
      (∀ i < (stream 0 fs).length,
        (∀ j, i < j → j < (stream 0 fs).length → j % d.area.length ≠ i % d.area.length) →
        s.dmaArea[i % d.area.length]? = (stream 0 fs)[i]?) ∧
      (∀ p, (∀ i < (stream 0 fs).length, i % d.area.length ≠ p) →
        s.dmaArea[p]? = d.area[p]?) := by
  have hpos : 0 < d.area.length := lt_of_lt_of_le spiPeriodBytesMin_pos d.min_le
  obtain ⟨s, hrun, harea, hoff⟩ := receiveAll_spec fs (s := start d) d.min_le hpos (Nat.zero_le _)
  simp only [start, Nat.zero_add] at harea hoff
  refine ⟨s, hrun, by rw [harea, Ring.length_writeFrom], hoff, ?_, ?_⟩
  · intro i hi hlast
    have := Ring.getElem?_writeFrom_latest d.area 0 (stream 0 fs) i hpos hi (by simpa using hlast)
    rw [harea]
    simpa using this
  · intro p hp
    rw [harea]
    exact Ring.getElem?_writeFrom_of_forall_ne _ _ _ _ (by simpa using hp)

end Cupcake.Sound.SpiPcm
