import Cupcake.Lib.Run
import Cupcake.Lib.Tally
import Cupcake.Lib.Word
import Mathlib.Algebra.BigOperators.Group.Finset.Basic

/-! The hotplug strategy for machines with one kind of CPU, after
`drivers/misc/mediatek/base/power/hps_v1`: `n` little CPUs, with the ids below `n`. -/

namespace Cupcake.Hps

def maxCpuUpTimes : ℕ := 10

def maxCpuDownTimes : ℕ := 100

def maxTlpTimes : ℕ := 10

/-- The upper end of the range of `CONFIG_NR_CPUS`. -/
def nrCpus : ℕ := 4096

/-- The last samples of a value: `*_sum`, `*_count`, `*_history` and `*_history_index`. -/
structure History where
  sum : ℕ
  count : ℕ
  history : ℕ → ℕ
  index : ℕ

def History.zero : History := ⟨0, 0, fun _ => 0, 0⟩

/-- Update a history of `size` cells. `none` stands for an access outside of it or for a
`WARN_ON`. -/
def History.push (size times cur : ℕ) (h : History) : Option History :=
  if size ≤ h.index then none
  else
    let val := h.history h.index
    let sum := wadd 32 h.sum cur
    let count := wadd 32 h.count 1
    let h' : History :=
      { sum := sum
        count := count
        history := Function.update h.history h.index cur
        index := if wadd 32 h.index 1 = times then 0 else wadd 32 h.index 1 }
    if times < count then
      if sum < val then none else some { h' with sum := sum - val }
    else some h'

/-- What `hps_ctxt_reset_stas_nolock` does to one of the histories. -/
def History.reset (size times : ℕ) (h : History) : Option History :=
  if size ≤ wsub 32 times 1 then none
  else some ⟨0, 0, Function.update h.history (wsub 32 times 1) 0, 0⟩

inductive Limit
  | thermal
  | lowBattery
  | ultraPowerSaving
  | powerServ
  deriving DecidableEq

/-- `struct hps_ctxt_struct`, as far as `hps_algo_smp` uses it. -/
structure Ctxt where
  enabled : ℕ
  upThreshold : ℕ
  upTimes : ℕ
  downThreshold : ℕ
  downTimes : ℕ
  rushBoostEnabled : ℕ
  rushBoostThreshold : ℕ
  rushBoostTimes : ℕ
  tlpTimes : ℕ
  littleNumBasePerfServ : ℕ
  littleNumLimit : Limit → ℕ
  up : History
  down : History
  rushCount : ℕ
  tlp : History
  tlpAvg : ℕ

/-- The start values of `hps_ctxt` with the bounds of `hps_cpu_init`. -/
def Ctxt.init (n : ℕ) : Ctxt where
  enabled := 1
  upThreshold := 80
  upTimes := 2
  downThreshold := 70
  downTimes := 20
  rushBoostEnabled := 1
  rushBoostThreshold := 98
  rushBoostTimes := 1
  tlpTimes := 1
  littleNumBasePerfServ := 1
  littleNumLimit := fun _ => n
  up := .zero
  down := .zero
  rushCount := 0
  tlp := .zero
  tlpAvg := 0

def Ctxt.resetStasNolock (c : Ctxt) : Option Ctxt := do
  let up ← c.up.reset maxCpuUpTimes c.upTimes
  let down ← c.down.reset maxCpuDownTimes c.downTimes
  let tlp ← c.tlp.reset maxTlpTimes c.tlpTimes
  return { c with up := up, down := down, rushCount := 0, tlp := tlp }

def Ctxt.numLimit (c : Ctxt) : ℕ :=
  min (min (c.littleNumLimit .thermal) (c.littleNumLimit .lowBattery))
    (min (c.littleNumLimit .ultraPowerSaving) (c.littleNumLimit .powerServ))

/-! ## Bringing CPUs up and down -/

structure Sweep where
  mask : ℕ → Bool
  val : ℕ
  num : ℕ

/-- `cpu_up` or `cpu_down`, with the two counts. -/
def Sweep.change (on : Bool) (cpu : ℕ) (s : Sweep) : Sweep :=
  { mask := Function.update s.mask cpu on
    val := s.val - 1
    num := if on then s.num + 1 else s.num - 1 }

def sweep (on : Bool) (stop : ℕ → ℕ → Bool) : List ℕ → Sweep → Sweep
  | [], s => s
  | cpu :: cpus, s =>
    if s.mask cpu = on then sweep on stop cpus s
    else
      let s' := s.change on cpu
      if stop s'.val s'.num then s' else sweep on stop cpus s'

def upwards (n : ℕ) : List ℕ := List.range n

/-- From `little_cpu_id_max` down, without `little_cpu_id_min`. -/
def downwards (n : ℕ) : List ℕ := (List.range' 1 (n - 1)).reverse

structure Out where
  ctxt : Ctxt
  mask : ℕ → Bool
  acted : Bool

def algoSmpLimit (n : ℕ) (c : Ctxt) (mask : ℕ → Bool) (limit online : ℕ) : Option Out :=
  if online ≤ limit then some ⟨c, mask, false⟩
  else
    let s := sweep false (fun val _ => val = 0) (downwards n) ⟨mask, online - limit, online⟩
    if s.val ≠ 0 then none else some ⟨c, s.mask, true⟩

def algoSmpBase (n : ℕ) (c : Ctxt) (mask : ℕ → Bool) (base limit online : ℕ) : Option Out :=
  if limit < online then none
  else if base ≤ online ∨ limit ≤ online then some ⟨c, mask, false⟩
  else
    let s := sweep true (fun val num => val = 0 ∨ num = limit) (upwards n)
      ⟨mask, min base limit - online, online⟩
    if s.val ≠ 0 then none else some ⟨c, s.mask, true⟩

def rushTarget (tlpAvg : ℕ) : ℕ := tlpAvg / 100 + if tlpAvg % 100 ≠ 0 then 1 else 0

/-- `rush_count` after a round. -/
def nextRushCount (c : Ctxt) (curLoads online : ℕ) : ℕ :=
  if c.rushBoostThreshold * online % 2 ^ 32 < curLoads then wadd 32 c.rushCount 1 else 0

def rushes (c : Ctxt) (curLoads online : ℕ) : Prop :=
  c.rushBoostEnabled ≠ 0 ∧ c.rushBoostTimes ≤ nextRushCount c curLoads online ∧
    online * 100 % 2 ^ 32 < c.tlpAvg

instance (c : Ctxt) (curLoads online : ℕ) : Decidable (rushes c curLoads online) :=
  inferInstanceAs (Decidable (_ ∧ _))

def algoSmpRushBoost (n : ℕ) (c : Ctxt) (mask : ℕ → Bool) (curLoads limit online : ℕ) : Option Out :=
  if c.rushBoostEnabled = 0 then some ⟨c, mask, false⟩
  else
    let c' := { c with rushCount := nextRushCount c curLoads online }
    if ¬ rushes c curLoads online then some ⟨c', mask, false⟩
    else if ¬ online < rushTarget c.tlpAvg then none
    else
      let val := wsub 32 (min (rushTarget c.tlpAvg) n) online
      if val = 0 ∨ limit ≤ online then some ⟨c', mask, false⟩
      else
        let s := sweep true (fun val _ => val = 0) (upwards n) ⟨mask, val, online⟩
        some ⟨c', s.mask, true⟩

def algoSmpUp (n : ℕ) (c : Ctxt) (mask : ℕ → Bool) (curLoads limit online : ℕ) : Option Out :=
  if n ≤ online then some ⟨c, mask, false⟩
  else do
    let up ← c.up.push maxCpuUpTimes c.upTimes curLoads
    let c := { c with up := up }
    if up.count < c.upTimes then return ⟨c, mask, false⟩
    if up.sum ≤ c.upThreshold * c.upTimes * online % 2 ^ 32 then return ⟨c, mask, false⟩
    if limit ≤ online then return ⟨c, mask, false⟩
    let s := sweep true (fun _ _ => true) (upwards n) ⟨mask, 0, online⟩
    return ⟨c, s.mask, true⟩

/-- `while (down_loads_sum < down_threshold * (val - 1)) --val`. -/
def quickLanding (sum threshold : ℕ) : ℕ → ℕ
  | 0 => 0
  | val + 1 => if sum < threshold * val % 2 ^ 32 then quickLanding sum threshold val else val + 1

def algoSmpDown (n : ℕ) (c : Ctxt) (mask : ℕ → Bool) (curLoads base online : ℕ) : Option Out :=
  if online ≤ 1 then some ⟨c, mask, false⟩
  else do
    let down ← c.down.push maxCpuDownTimes c.downTimes curLoads
    let c := { c with down := down }
    if down.count < c.downTimes then return ⟨c, mask, false⟩
    let val := online - quickLanding down.sum (c.downThreshold * c.downTimes % 2 ^ 32) online
    if val = 0 ∨ online ≤ base then return ⟨c, mask, false⟩
    let s := sweep false (fun val num => val = 0 ∨ num = base) (downwards n) ⟨mask, val, online⟩
    return ⟨c, s.mask, true⟩

def pushTlp (c : Ctxt) (curTlp : ℕ) : Option Ctxt := do
  let tlp ← c.tlp.push maxTlpTimes c.tlpTimes curTlp
  let avg := if c.tlpTimes < tlp.count then tlp.sum / c.tlpTimes else tlp.sum / tlp.count
  return { c with tlp := tlp, tlpAvg := avg }

/-! ## Rounds -/

structure State where
  ctxt : Ctxt
  online : ℕ → Bool

def endWithAction (o : Out) : Option State := do
  let c ← o.ctxt.resetStasNolock
  return ⟨c, o.mask⟩

/-- One round, given the loads of the CPUs and a sample of the thread-level parallelism. -/
def hpsAlgoSmp (n : ℕ) (s : State) (loads : ℕ → ℕ) (curTlp : ℕ) : Option State :=
  if s.ctxt.enabled = 0 then some s
  else do
    let curLoads := (∑ cpu ∈ Finset.range n, loads cpu) % 2 ^ 32
    let limit := s.ctxt.numLimit
    let base := s.ctxt.littleNumBasePerfServ
    let online := tally n s.online
    let o ← algoSmpLimit n s.ctxt s.online limit online
    if o.acted then endWithAction o else
    let o ← algoSmpBase n o.ctxt o.mask base limit online
    if o.acted then endWithAction o else
    let c ← pushTlp o.ctxt curTlp
    let o ← algoSmpRushBoost n c o.mask curLoads limit online
    if o.acted then endWithAction o else
    let o ← algoSmpUp n o.ctxt o.mask curLoads limit online
    if o.acted then endWithAction o else
    let o ← algoSmpDown n o.ctxt o.mask curLoads base online
    if o.acted then endWithAction o else
    return ⟨o.ctxt, o.mask⟩

/-! ## Parameters -/

inductive Param
  | enabled
  | upThreshold
  | upTimes
  | downThreshold
  | downTimes
  | rushBoostEnabled
  | rushBoostThreshold
  | rushBoostTimes
  | tlpTimes
  deriving DecidableEq

def Ctxt.write (c : Ctxt) (v : ℕ) : Param → Ctxt
  | .enabled => { c with enabled := v }
  | .upThreshold => { c with upThreshold := v }
  | .upTimes => { c with upTimes := v }
  | .downThreshold => { c with downThreshold := v }
  | .downTimes => { c with downTimes := v }
  | .rushBoostEnabled => { c with rushBoostEnabled := v }
  | .rushBoostThreshold => { c with rushBoostThreshold := v }
  | .rushBoostTimes => { c with rushBoostTimes := v }
  | .tlpTimes => { c with tlpTimes := v }

/-- `hps_proc_uint_write_with_lock_reset`; only `rush_boost_enabled` is written without the
reset. -/
def procWrite (c : Ctxt) (p : Param) (v : ℕ) : Option Ctxt :=
  if p = .rushBoostEnabled then some (c.write v p) else (c.write v p).resetStasNolock

inductive Action
  | set (p : Param) (v : ℕ)
  | setBase (v : ℕ)
  | setLimit (l : Limit) (v : ℕ)
  | round (loads : ℕ → ℕ) (curTlp : ℕ)

/-- The bounds are written only if they are between 1 and the number of little CPUs. -/
def step (n : ℕ) (s : State) : Action → Option State
  | .set p v => do
    let c ← procWrite s.ctxt p v
    return { s with ctxt := c }
  | .setBase v =>
    if n < v ∨ v < 1 then some s
    else some { s with ctxt := { s.ctxt with littleNumBasePerfServ := v } }
  | .setLimit l v =>
    if n < v ∨ v < 1 then some s
    else some { s with ctxt := { s.ctxt with
      littleNumLimit := Function.update s.ctxt.littleNumLimit l v } }
  | .round loads curTlp => hpsAlgoSmp n s loads curTlp

end Cupcake.Hps
