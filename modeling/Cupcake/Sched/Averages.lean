import Cupcake.Lib.Run
import Cupcake.Lib.Word
import Mathlib.Algebra.Order.BigOperators.Group.Finset

/-! Averages of the run queues (`drivers/misc/mediatek/sched/sched_avg.c`): the numbers of
running and of waiting tasks, summed over time for every CPU and read by the polls. -/

namespace Cupcake.Sched

open Function (update)

structure Cpu where
  nrProdSum : ℕ
  iowaitProdSum : ℕ
  lastTime : ℕ
  nr : ℕ

structure Stats where
  cpu : ℕ → Cpu
  lastGetTime : ℕ

/-- `nrIowait` is what `nr_iowait_cpu` returns, `currTime` what `sched_clock` does. -/
def schedUpdateNrProd (s : Stats) (cpu nrRunning : ℕ) (inc : ℤ) (currTime nrIowait : ℕ) : Stats :=
  let c := s.cpu cpu
  let diff := wsub 64 currTime c.lastTime
  if 2 ^ 63 ≤ diff then s
  else { s with cpu := update s.cpu cpu {
    nrProdSum := (c.nrProdSum + nrRunning * diff) % 2 ^ 64
    iowaitProdSum := (c.iowaitProdSum + nrIowait * diff) % 2 ^ 64
    lastTime := currTime
    nr := ((nrRunning + inc) % 2 ^ 64).toNat } }

structure Sums where
  stats : Stats
  tmpAvg : ℕ
  tmpIowait : ℕ
  scaledTlp : ℤ
  clkFaulty : Bool

def readCpu (currTime : ℕ) (nrIowait : ℕ → ℕ) (a : Sums) (cpu : ℕ) : Sums :=
  let c := a.stats.cpu cpu
  let diff := wsub 64 currTime c.lastTime
  { stats := { a.stats with cpu := update a.stats.cpu cpu ⟨0, 0, currTime, c.nr⟩ }
    tmpAvg := (a.tmpAvg + (c.nrProdSum + c.nr * diff)) % 2 ^ 64
    -- the first of the two assignments drops what the CPUs before have added
    tmpIowait := (c.iowaitProdSum + nrIowait cpu * diff) % 2 ^ 64
    scaledTlp := (a.scaledTlp + c.nr).bmod (2 ^ 32)
    -- the difference is compared with zero before it is made signed
    clkFaulty := a.clkFaulty || decide (diff < 0) }

def readCpus (n currTime : ℕ) (nrIowait : ℕ → ℕ) (s : Stats) : Sums :=
  (List.range n).foldl (readCpu currTime nrIowait) ⟨{ s with lastGetTime := currTime }, 0, 0, 0, false⟩

/-- `(int)div64_u64(sum * 100, diff)`, and zero for a negative result. -/
def average (sum diff : ℕ) : ℤ := max 0 (Int.bmod (sum * 100 % 2 ^ 64 / diff : ℕ) (2 ^ 32))

structure Averages where
  avg : ℤ
  iowaitAvg : ℤ
  ret : ℤ

def schedGetNrRunningAvg (n : ℕ) (s : Stats) (currTime : ℕ) (nrIowait : ℕ → ℕ) :
    Stats × Averages :=
  let diff := wsub 64 currTime s.lastGetTime
  if diff = 0 then (s, ⟨0, 0, 0⟩)
  else
    let a := readCpus n currTime nrIowait s
    if a.clkFaulty then (a.stats, ⟨0, 0, 0⟩)
    else (a.stats, ⟨average a.tmpAvg diff, average a.tmpIowait diff,
      (a.scaledTlp * 100).bmod (2 ^ 32)⟩)

/-- The statistics, the run queues, and since the last poll the time integrals of `nr_running`
and the contributions of the waiting tasks. -/
structure World where
  stats : Stats
  nrRunning : ℕ → ℕ
  now : ℕ
  polled : ℕ
  running : ℕ → ℕ
  since : ℕ → ℕ
  waiting : ℕ → ℕ

def World.init : World where
  stats := ⟨fun _ => ⟨0, 0, 0, 0⟩, 0⟩
  nrRunning _ := 0
  now := 0
  polled := 0
  running _ := 0
  since _ := 0
  waiting _ := 0

inductive Op
  | change (cpu : ℕ) (inc : ℤ) (time nrIowait : ℕ)
  | poll (time : ℕ) (nrIowait : ℕ → ℕ)

namespace World

def runningAt (w : World) (time cpu : ℕ) : ℕ := w.running cpu + w.nrRunning cpu * (time - w.now)

def waitingAt (w : World) (time : ℕ) (nrIowait : ℕ → ℕ) (cpu : ℕ) : ℕ :=
  w.waiting cpu + nrIowait cpu * (time - w.since cpu)

/-- `add_nr_running` and `sub_nr_running`, and the polls. -/
def step (n : ℕ) (w : World) : Op → Option World
  | .change cpu inc time nrIowait => some
    { stats := schedUpdateNrProd w.stats cpu (w.nrRunning cpu) inc time nrIowait
      nrRunning := update w.nrRunning cpu (w.nrRunning cpu + inc).toNat
      now := time
      polled := w.polled
      running := w.runningAt time
      since := update w.since cpu time
      waiting := update w.waiting cpu (w.waitingAt time (fun _ => nrIowait) cpu) }
  | .poll time nrIowait =>
    let stats := (schedGetNrRunningAvg n w.stats time nrIowait).1
    some (if time = w.polled then { w with stats }
      else ⟨stats, w.nrRunning, time, time, fun _ => 0, fun _ => time, fun _ => 0⟩)

def Valid (n : ℕ) (w : World) : Op → Prop
  | .change cpu inc time _ => cpu < n ∧ w.now ≤ time ∧ time < 2 ^ 63 ∧
      0 ≤ w.nrRunning cpu + inc ∧ w.nrRunning cpu + inc < 2 ^ 32
  | .poll time _ => w.now ≤ time ∧ time < 2 ^ 63

instance (n : ℕ) (w : World) : (op : Op) → Decidable (Valid n w op)
  | .change .. => inferInstanceAs (Decidable (_ ∧ _))
  | .poll .. => inferInstanceAs (Decidable (_ ∧ _))

def exactAvg (n : ℕ) (w : World) (time : ℕ) : ℕ :=
  100 * (∑ c ∈ Finset.range n, w.runningAt time c) / (time - w.polled)

def exactIowaitAvg (n : ℕ) (w : World) (time : ℕ) (nrIowait : ℕ → ℕ) : ℕ :=
  100 * (∑ c ∈ Finset.range n, w.waitingAt time nrIowait c) / (time - w.polled)

structure CpuOk (w : World) (c : ℕ) : Prop where
  lastTime : (w.stats.cpu c).lastTime = w.since c
  since_le : w.since c ≤ w.now
  nr : (w.stats.cpu c).nr = w.nrRunning c
  running : (w.stats.cpu c).nrProdSum + w.nrRunning c * (w.now - w.since c) ≡
    w.running c [MOD 2 ^ 64]
  waiting : (w.stats.cpu c).iowaitProdSum ≡ w.waiting c [MOD 2 ^ 64]

structure Inv (n : ℕ) (w : World) : Prop where
  lastGetTime : w.stats.lastGetTime = w.polled
  polled_le : w.polled ≤ w.now
  cpus : ∀ c < n, w.CpuOk c

variable {n time : ℕ} {nrIowait : ℕ → ℕ} {w : World}

theorem init_inv : Inv n init where
  lastGetTime := rfl
  polled_le := le_rfl
  cpus _ _ := ⟨rfl, le_rfl, rfl, .refl _, .refl _⟩

theorem CpuOk.diff {c : ℕ} (h : w.CpuOk c) (hle : w.now ≤ time) (hlt : time < 2 ^ 63) :
    wsub 64 time (w.stats.cpu c).lastTime = time - w.since c := by
  rw [h.lastTime, wsub_of_le (h.since_le.trans hle) (by omega)]

theorem CpuOk.runningAt {c : ℕ} (h : w.CpuOk c) (hle : w.now ≤ time) :
    (w.stats.cpu c).nrProdSum + w.nrRunning c * (time - w.since c) ≡ w.runningAt time c
      [MOD 2 ^ 64] := by
  have hsplit : time - w.since c = w.now - w.since c + (time - w.now) := by
    have := h.since_le
    omega
  rw [hsplit, Nat.mul_add, ← Nat.add_assoc]
  exact h.running.add_right _

theorem Inv.change (h : Inv n w) {cpu nrIowait : ℕ} {inc : ℤ}
    (hv : Valid n w (.change cpu inc time nrIowait)) {w' : World}
    (hs : step n w (.change cpu inc time nrIowait) = some w') : Inv n w' := by
  obtain ⟨hcpu, hle, hlt, hpos, hsmall⟩ := hv
  have hok := h.cpus cpu hcpu
  have hnr : ((w.nrRunning cpu + inc) % 2 ^ 64).toNat = (w.nrRunning cpu + inc).toNat := by
    rw [Int.emod_eq_of_lt hpos (by omega)]
  have hdiff : ¬2 ^ 63 ≤ time - w.since cpu := by omega
  simp only [World.step, schedUpdateNrProd, hok.diff hle hlt, if_neg hdiff, hnr] at hs
  obtain rfl := Option.some.inj hs
  refine ⟨h.lastGetTime, h.polled_le.trans hle, fun c hc => ?_⟩
  rcases eq_or_ne c cpu with rfl | hne
  · refine ⟨by simp, by simp, by simp, ?_, ?_⟩
    · simpa using (Nat.mod_modEq _ _).trans (hok.runningAt hle)
    · simpa [waitingAt] using (Nat.mod_modEq _ _).trans (hok.waiting.add_right _)
  · have hc := h.cpus c hc
    refine ⟨?_, ?_, ?_, ?_, ?_⟩
    · simpa [hne] using hc.lastTime
    · simpa [hne] using hc.since_le.trans hle
    · simpa [hne] using hc.nr
    · simpa [hne] using hc.runningAt hle
    · simpa [hne] using hc.waiting

theorem readCpus_spec (h : Inv n w) (hle : w.now ≤ time) (hlt : time < 2 ^ 63)
    (nrIowait : ℕ → ℕ) {k : ℕ} (hk : k ≤ n) :
    let a := readCpus k time nrIowait w.stats
    a.stats.lastGetTime = time ∧ a.clkFaulty = false ∧
    (∀ c, a.stats.cpu c = if c < k then ⟨0, 0, time, (w.stats.cpu c).nr⟩ else w.stats.cpu c) ∧
    a.tmpAvg = (∑ c ∈ Finset.range k, w.runningAt time c) % 2 ^ 64 ∧
    ∀ c, k = c + 1 → a.tmpIowait = w.waitingAt time nrIowait c % 2 ^ 64 := by
  induction k with
  | zero => exact ⟨rfl, rfl, fun c => by simp [readCpus], rfl, fun c hc => by cases hc⟩
  | succ k ih =>
    obtain ⟨hget, hfaulty, hcpu, havg, -⟩ := ih (by omega)
    have hok := h.cpus k hk
    have hk' := hcpu k
    rw [if_neg (lt_irrefl k)] at hk'
    have hsucc : readCpus (k + 1) time nrIowait w.stats =
        readCpu time nrIowait (readCpus k time nrIowait w.stats) k := by
      rw [readCpus, List.range_succ, List.foldl_concat]
      rfl
    simp only [hsucc, readCpu, hk', hok.diff hle hlt, hok.nr]
    refine ⟨hget, by rw [hfaulty]; rfl, fun c => ?_, ?_, fun c hc => ?_⟩
    · rcases eq_or_ne c k with rfl | hne
      · rw [Function.update_self, if_pos (by omega), hok.nr]
      · rw [Function.update_of_ne hne, hcpu c]
        simp only [show c < k + 1 ↔ c < k by omega]
    · rw [havg, Finset.sum_range_succ, Nat.mod_add_mod]
      exact (hok.runningAt hle).add_left _
    · obtain rfl : k = c := by omega
      exact hok.waiting.add_right _

theorem Inv.poll_eq (h : Inv n w) (hle : w.now ≤ time) (hlt : time < 2 ^ 63) :
    schedGetNrRunningAvg n w.stats time nrIowait =
      let a := readCpus n time nrIowait w.stats
      if time = w.polled then (w.stats, ⟨0, 0, 0⟩)
      else (a.stats, ⟨average a.tmpAvg (time - w.polled), average a.tmpIowait (time - w.polled),
        (a.scaledTlp * 100).bmod (2 ^ 32)⟩) := by
  have hpolled := h.polled_le.trans hle
  have hdiff : wsub 64 time w.stats.lastGetTime = time - w.polled := by
    rw [h.lastGetTime, wsub_of_le hpolled (by omega)]
  obtain ⟨-, hfaulty, -⟩ := readCpus_spec h hle hlt nrIowait le_rfl
  simp only [schedGetNrRunningAvg, hdiff, hfaulty, show time - w.polled = 0 ↔ time = w.polled by omega]
  rfl

theorem Inv.step (h : Inv n w) {op : Op} {w' : World} (hv : Valid n w op)
    (hs : step n w op = some w') : Inv n w' := by
  cases op with
  | change => exact h.change hv hs
  | poll time nrIowait =>
    obtain ⟨hle, hlt⟩ := hv
    rw [World.step, h.poll_eq hle hlt] at hs
    obtain rfl := Option.some.inj hs
    by_cases htime : time = w.polled
    · simpa [htime] using h
    · obtain ⟨hget, -, hcpu, -⟩ := readCpus_spec h hle hlt nrIowait le_rfl
      simp only [if_neg htime]
      refine ⟨hget, le_rfl, fun c hc => ?_⟩
      have hc' := hcpu c
      rw [if_pos hc] at hc'
      refine ⟨by simp only [hc'], le_rfl, ?_, ?_, ?_⟩
      · simp only [hc']
        exact (h.cpus c hc).nr
      · simp [hc', Nat.ModEq]
      · simp [hc', Nat.ModEq]

theorem average_eq {sum diff : ℕ} (hsum : 100 * sum < 2 ^ 64) (hquot : 100 * sum / diff < 2 ^ 31) :
    average (sum % 2 ^ 64) diff = (100 * sum / diff : ℕ) := by
  have hlt : sum < 2 ^ 64 := by omega
  unfold average
  rw [Nat.mod_eq_of_lt hlt, Nat.mul_comm sum, Nat.mod_eq_of_lt hsum]
  generalize 100 * sum / diff = q at *
  rw [Int.bmod_eq_of_le (by omega) (by omega)]
  exact max_eq_right (by omega)

/-- What a poll needs to report the averages: sums and quotients that fit, and no waiting
tasks but those of the last CPU. -/
structure Meets (n : ℕ) (w : World) (time : ℕ) (nrIowait : ℕ → ℕ) : Prop where
  now_le : w.now ≤ time
  time_lt : time < 2 ^ 63
  running : 100 * ∑ c ∈ Finset.range n, w.runningAt time c < 2 ^ 64
  waiting : 100 * ∑ c ∈ Finset.range n, w.waitingAt time nrIowait c < 2 ^ 64
  avg : w.exactAvg n time < 2 ^ 31
  iowaitAvg : w.exactIowaitAvg n time nrIowait < 2 ^ 31
  last : ∀ c, c + 1 < n → w.waitingAt time nrIowait c = 0

theorem poll_exact (h : Reach (step n) (Valid n) init w) (hm : Meets n w time nrIowait) :
    (schedGetNrRunningAvg n w.stats time nrIowait).2.avg = w.exactAvg n time ∧
    (schedGetNrRunningAvg n w.stats time nrIowait).2.iowaitAvg =
      w.exactIowaitAvg n time nrIowait := by
  have hinv : Inv n w := h.invariant init_inv fun _ _ _ h => h.step
  obtain ⟨-, -, -, havg, hiowait⟩ := readCpus_spec hinv hm.now_le hm.time_lt nrIowait le_rfl
  rw [hinv.poll_eq hm.now_le hm.time_lt]
  by_cases htime : time = w.polled
  · simp [exactAvg, exactIowaitAvg, htime]
  · simp only [if_neg htime, havg]
    refine ⟨average_eq hm.running hm.avg, ?_⟩
    cases n with
    | zero =>
      change average 0 _ = _
      rw [exactIowaitAvg, Finset.sum_range_zero, Nat.mul_zero, Nat.zero_div]
      unfold average
      rw [Nat.zero_mul, Nat.zero_mod, Nat.zero_div, Nat.cast_zero, Int.zero_bmod, max_self]
    | succ k =>
      have hsum : ∑ c ∈ Finset.range (k + 1), w.waitingAt time nrIowait c =
          w.waitingAt time nrIowait k := by
        rw [Finset.sum_range_succ, Finset.sum_eq_zero, Nat.zero_add]
        intro c hc
        exact hm.last c (by simpa using hc)
      rw [hiowait k rfl, ← hsum]
      exact average_eq hm.waiting hm.iowaitAvg

end World

open World

def twoStarts : List Op := [.change 0 1 100 0, .change 1 2 200 0]

theorem poll_exact_twoStarts : ∃ w, runGuarded (step 2) (Valid 2) init twoStarts = some w ∧
    (schedGetNrRunningAvg 2 w.stats 1000 fun c => c).2.avg = 250 ∧
    (schedGetNrRunningAvg 2 w.stats 1000 fun c => c).2.iowaitAvg = 80 := by
  have hrun : (runGuarded (step 2) (Valid 2) init twoStarts).map (fun w => (w.now, w.polled,
      w.runningAt 1000 0, w.runningAt 1000 1, w.waitingAt 1000 (fun c => c) 0,
      w.waitingAt 1000 (fun c => c) 1)) = some (200, 0, 900, 1600, 0, 800) := by decide +kernel
  obtain ⟨w, hw, hsums⟩ := Option.map_eq_some_iff.mp hrun
  simp only [Prod.mk.injEq] at hsums
  obtain ⟨hnow, hpolled, hr₀, hr₁, hw₀, hw₁⟩ := hsums
  have havg : w.exactAvg 2 1000 = 250 := by
    simp [exactAvg, Finset.sum_range_succ, hpolled, hr₀, hr₁]
  have hiowait : w.exactIowaitAvg 2 1000 (fun c => c) = 80 := by
    simp [exactIowaitAvg, Finset.sum_range_succ, hpolled, hw₀, hw₁]
  have hm : Meets 2 w 1000 fun c => c := {
    now_le := by omega
    time_lt := by decide
    running := by simp [Finset.sum_range_succ, hr₀, hr₁]
    waiting := by simp [Finset.sum_range_succ, hw₀, hw₁]
    avg := by omega
    iowaitAvg := by omega
    last := fun c hc => by rw [show c = 0 by omega, hw₀] }
  have hpoll := poll_exact (.of_runGuarded twoStarts .init hw) hm
  rw [havg, hiowait] at hpoll
  exact ⟨w, hw, hpoll⟩

theorem poll_drops_iowait : (∃ w, runGuarded (step 2) (Valid 2) init twoStarts = some w ∧
    w.exactIowaitAvg 2 1000 (fun _ => 1) = 170 ∧
    (schedGetNrRunningAvg 2 w.stats 1000 fun _ => 1).2.iowaitAvg = 80) ∧
    (schedGetNrRunningAvg 1 ⟨fun _ => ⟨0, 0, 5, 1⟩, 0⟩ 3 fun _ => 0).2.avg ≠ 0 := by
  have hrun : (runGuarded (step 2) (Valid 2) init twoStarts).map (fun w =>
      (w.exactIowaitAvg 2 1000 (fun _ => 1),
        (schedGetNrRunningAvg 2 w.stats 1000 fun _ => 1).2.iowaitAvg)) = some (170, 80) := by
    decide +kernel
  obtain ⟨w, hw, hsums⟩ := Option.map_eq_some_iff.mp hrun
  exact ⟨⟨w, hw, Prod.mk.inj hsums⟩, by decide +kernel⟩

end Cupcake.Sched
