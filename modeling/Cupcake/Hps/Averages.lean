import Cupcake.Hps.Runs

/-! The sums that the strategy compares with its thresholds are those of the last samples. -/

namespace Cupcake.Hps

open List Option Function

variable {n size times cur : ℕ} {h h' g : History} {c : Ctxt} {log : List ℕ}

/-! ## Histories -/

structure Exact (size times : ℕ) (h : History) (log : List ℕ) : Prop where
  pos : 1 ≤ times
  le : times ≤ size
  count : h.count = log.length
  index : h.index = log.length % times
  sum : h.sum = (log.take times).sum
  cells : ∀ i v, i < times → log[i]? = some v → h.history ((log.length - (i + 1)) % times) = v

theorem mod_sub_ne {a b t : ℕ} (hb : 0 < b) (hba : b ≤ a) (hbt : b < t) : (a - b) % t ≠ a % t := by
  intro h
  have hmod : a - b ≡ a [MOD t] := h
  have hdvd := (Nat.modEq_iff_dvd' (Nat.sub_le a b)).mp hmod
  rw [Nat.sub_sub_self hba] at hdvd
  exact absurd (Nat.le_of_dvd hb hdvd) (Nat.not_le.mpr hbt)

theorem succ_mod_eq {a t : ℕ} (ht : 1 ≤ t) :
    (a + 1) % t = if a % t + 1 = t then 0 else a % t + 1 := by
  have hlt := Nat.mod_lt a ht
  split_ifs with h
  · rw [← Nat.mod_add_mod, h, Nat.mod_self]
  · rw [← Nat.mod_add_mod, Nat.mod_eq_of_lt (by omega)]

theorem sum_take_cons (hpos : 1 ≤ times) (cur : ℕ) (log : List ℕ) :
    ((cur :: log).take times).sum + (log[times - 1]?).getD 0 = (log.take times).sum + cur := by
  obtain ⟨t, rfl⟩ : ∃ t, times = t + 1 := ⟨times - 1, by omega⟩
  rw [take_succ_cons, sum_cons, Nat.add_sub_cancel, take_add_one, sum_append]
  cases log[t]? with
  | none => simp [Nat.add_comm]
  | some v => simp only [getD_some, toList_some, sum_singleton]; omega

theorem Exact.push (he : Exact size times h log) (hsize : size ≤ 100) (hsum : h.sum + cur < 2 ^ 32)
    (hcount : h.count + 1 < 2 ^ 32) :
    ∃ h', h.push size times cur = some h' ∧ Exact size times h' (cur :: log) := by
  have hpos := he.pos
  have hle := he.le
  have hlt : h.index < times := he.index ▸ Nat.mod_lt _ hpos
  have hindex : wadd 32 h.index 1 = h.index + 1 := wadd_index hlt (by omega)
  have hsucc : (if h.index + 1 = times then 0 else h.index + 1) = (log.length + 1) % times := by
    rw [he.index, succ_mod_eq hpos]
  have hcells : ∀ i v, i < times → (cur :: log)[i]? = some v →
      update h.history h.index cur (((cur :: log).length - (i + 1)) % times) = v := by
    intro i v hi hv
    cases i with
    | zero =>
      rw [length_cons, Nat.add_sub_cancel, ← he.index, update_self]
      exact some.inj hv
    | succ i =>
      rw [getElem?_cons_succ] at hv
      have hlen : i < log.length := (List.getElem?_eq_some_iff.mp hv).1
      rw [length_cons, Nat.add_sub_add_right, update_of_ne, he.cells i v (by omega) hv]
      rw [he.index]
      exact mod_sub_ne (Nat.succ_pos i) hlen hi
  have hnew := sum_take_cons hpos cur log
  rw [← he.sum] at hnew
  rw [History.push, if_neg (by omega)]
  simp only [hindex, wadd_of_lt hsum, wadd_of_lt hcount, hsucc]
  by_cases hfull : times < h.count + 1
  · -- the cell of the oldest of the last samples is used again
    have hlen : times - 1 < log.length := by
      rw [he.count] at hfull
      omega
    have hval : h.history h.index = log[times - 1] := by
      have h := he.cells (times - 1) _ (by omega) (getElem?_eq_getElem hlen)
      rwa [Nat.sub_add_cancel hpos, ← Nat.mod_eq_sub_mod (by omega), ← he.index] at h
    rw [getElem?_eq_getElem hlen, getD_some, ← hval] at hnew
    rw [if_pos hfull, if_neg (by omega)]
    refine ⟨_, rfl, hpos, hle, congrArg (· + 1) he.count, rfl, ?_, hcells⟩
    simp only
    omega
  · have hnone : log[times - 1]? = none := getElem?_eq_none (by rw [he.count] at hfull; omega)
    rw [hnone] at hnew
    rw [if_neg hfull]
    exact ⟨_, rfl, hpos, hle, congrArg (· + 1) he.count, rfl, hnew.symm, hcells⟩

theorem Exact.nil (hpos : 1 ≤ times) (hle : times ≤ size) (hcount : h.count = 0)
    (hindex : h.index = 0) (hsum : h.sum = 0) : Exact size times h [] :=
  ⟨hpos, hle, hcount, by rw [hindex, length_nil, Nat.zero_mod], by simp [hsum],
    fun i v _ hv => by simp at hv⟩

theorem Exact.of_reset (hpos : 1 ≤ times) (hle : times ≤ size) (hr : g.reset size times = some h) :
    Exact size times h [] := by
  rw [History.reset] at hr
  split_ifs at hr
  obtain rfl := some.inj hr
  exact .nil hpos hle rfl rfl rfl

def Moves (size times : ℕ) (next h h' : History) : Prop :=
  h' = h ∨ h' = next ∨ ∃ g : History, g.reset size times = some h'

/-- The samples since the last reset, after a step that may have taken one more or reset. -/
def record (h h' : History) (cur : ℕ) (log : List ℕ) : List ℕ :=
  if h'.count = 0 then [] else if h'.count = h.count then log else cur :: log

theorem Exact.record_nil (he : Exact size times h' []) :
    Exact size times h' (record h h' cur log) := by
  have hzero : h'.count = 0 := he.count
  rw [record, if_pos hzero]
  exact he

theorem Exact.record_same (he : Exact size times h log) :
    Exact size times h (record h h cur log) := by
  rw [record, if_pos rfl]
  split_ifs with hzero
  · have hnil : log = [] := length_eq_zero_iff.mp (he.count.symm.trans hzero)
    exact hnil ▸ he
  · exact he

theorem Exact.record {next : History} (he : Exact size times h log)
    (hnext : Exact size times next (cur :: log)) (hm : Moves size times next h h') :
    Exact size times h' (record h h' cur log) := by
  obtain rfl | rfl | ⟨g, hreset⟩ := hm
  · exact he.record_same
  · have hcount := hnext.count
    rw [length_cons, ← he.count] at hcount
    rw [Hps.record, if_neg (by omega), if_neg (by omega)]
    exact hnext
  · exact (Exact.of_reset he.pos he.le hreset).record_nil

/-! ## The rules for going up and down -/

section Rules

variable {mask : ℕ → Bool} {curLoads limit base : ℕ} {up down : History}

theorem sweep_next {cpus : List ℕ} {w : Sweep} (hoff : ∃ cpu ∈ cpus, w.mask cpu = false) :
    (sweep true (fun _ _ => true) cpus w).num = w.num + 1 := by
  induction cpus with
  | nil => simp at hoff
  | cons cpu cpus ih =>
    rw [sweep]
    by_cases hmask : w.mask cpu = true
    · rw [if_pos hmask]
      apply ih
      obtain ⟨cpu', hmem, hoff'⟩ := hoff
      rcases mem_cons.mp hmem with rfl | hmem
      · rw [hmask] at hoff'
        exact absurd hoff' (by decide)
      · exact ⟨cpu', hmem, hoff'⟩
    · rw [if_neg hmask]
      rfl

theorem algoSmpUp_acts (mask : ℕ → Bool) (limit : ℕ)
    (hpush : c.up.push maxCpuUpTimes c.upTimes curLoads = some up) :
    ∃ o, algoSmpUp n c mask curLoads limit (tally n mask) = some o ∧
      (o.ctxt = c ∨ o.ctxt = { c with up := up }) ∧ (o.acted = false → o.mask = mask) ∧
      (o.acted = true → c.upTimes ≤ up.count ∧
        c.upThreshold * c.upTimes * tally n mask % 2 ^ 32 < up.sum ∧
        tally n o.mask = tally n mask + 1) := by
  rw [algoSmpUp]
  by_cases hfull : n ≤ tally n mask
  · rw [if_pos hfull]
    exact ⟨_, rfl, .inl rfl, fun _ => rfl, fun h => by cases h⟩
  rw [if_neg hfull, hpush, bind_eq_bind, bind_some]
  dsimp only
  split_ifs with h₁ h₂ h₃
  · exact ⟨_, rfl, .inr rfl, fun _ => rfl, fun h => by cases h⟩
  · exact ⟨_, rfl, .inr rfl, fun _ => rfl, fun h => by cases h⟩
  · exact ⟨_, rfl, .inr rfl, fun _ => rfl, fun h => by cases h⟩
  · refine ⟨_, rfl, .inr rfl, (fun h => by cases h), fun _ => ⟨by omega, by omega, ?_⟩⟩
    have hw : SweepOk n true (fun _ _ => true) (upwards n) ⟨mask, 0, tally n mask⟩ _ :=
      sweep_ok (fun cpu h => mem_upwards.mp h) rfl
    refine hw.num_eq.symm.trans (sweep_next ?_)
    by_contra hall
    refine hfull (tally_eq_all fun i hi => ?_).ge
    by_contra hoff
    exact hall ⟨i, mem_upwards.mpr hi, Bool.eq_false_of_not_eq_true hoff⟩

def Carries (sum threshold online : ℕ) : Set ℕ :=
  {k | 1 ≤ k ∧ k ≤ online ∧ threshold * (k - 1) ≤ sum}

theorem quickLanding_isGreatest {sum threshold online : ℕ} (hpos : 1 ≤ online)
    (hwrap : threshold * (online - 1) < 2 ^ 32) :
    IsGreatest (Carries sum threshold online) (quickLanding sum threshold online) := by
  induction online, hpos using Nat.le_induction with
  | base =>
    rw [quickLanding, Nat.mul_zero, Nat.zero_mod, if_neg (Nat.not_lt_zero _)]
    exact ⟨⟨le_rfl, le_rfl, by simp⟩, fun k hk => hk.2.1⟩
  | succ val hval ih =>
    rw [Nat.add_sub_cancel] at hwrap
    rw [quickLanding, Nat.mod_eq_of_lt hwrap]
    split_ifs with hlow
    · have hmono : threshold * (val - 1) ≤ threshold * val := Nat.mul_le_mul_left _ (Nat.sub_le _ _)
      obtain ⟨⟨h₁, h₂, h₃⟩, hub⟩ := ih (by omega)
      refine ⟨⟨h₁, h₂.trans (Nat.le_succ _), h₃⟩, fun k hk => hub ⟨hk.1, ?_, hk.2.2⟩⟩
      refine Nat.le_of_lt_succ (hk.2.1.lt_of_ne ?_)
      rintro rfl
      exact absurd hk.2.2 (Nat.not_le.mpr hlow)
    · refine ⟨⟨Nat.le_add_left _ _, le_rfl, ?_⟩, fun k hk => hk.2.1⟩
      rw [Nat.add_sub_cancel]
      exact Nat.not_lt.mp hlow

theorem base_le_sweep (cpus : List ℕ) {w : Sweep} (hw : base < w.num) :
    base ≤ (sweep false (fun val num => val = 0 ∨ num = base) cpus w).num := by
  induction cpus generalizing w with
  | nil => exact hw.le
  | cons cpu cpus ih =>
    rw [sweep]
    by_cases hmask : w.mask cpu = false
    · rw [if_pos hmask]
      exact ih hw
    · have hnum : (w.change false cpu).num = w.num - 1 := rfl
      rw [if_neg hmask]
      dsimp only
      split_ifs with hstop
      · omega
      · simp only [decide_eq_true_eq, not_or] at hstop
        exact ih (by omega)

theorem one_le_quickLanding {sum threshold online : ℕ} (hpos : 1 ≤ online) :
    1 ≤ quickLanding sum threshold online := by
  induction online, hpos using Nat.le_induction with
  | base => simp [quickLanding]
  | succ val hval ih =>
    rw [quickLanding]
    split_ifs
    · exact ih
    · exact Nat.le_add_left _ _

theorem algoSmpDown_acts {k : ℕ} (mask : ℕ → Bool) (base : ℕ)
    (hpush : c.down.push maxCpuDownTimes c.downTimes curLoads = some down)
    (hk : k = quickLanding down.sum (c.downThreshold * c.downTimes % 2 ^ 32) (tally n mask)) :
    ∃ o, algoSmpDown n c mask curLoads base (tally n mask) = some o ∧
      (o.ctxt = c ∨ o.ctxt = { c with down := down }) ∧
      (o.acted = true → 1 < tally n mask ∧ c.downTimes ≤ down.count ∧ tally n o.mask = max base k) ∧
      (o.acted = false → o.mask = mask ∧
        (1 < tally n mask → c.downTimes ≤ down.count → tally n mask ≤ max base k)) := by
  rw [algoSmpDown]
  by_cases hone : tally n mask ≤ 1
  · rw [if_pos hone]
    exact ⟨_, rfl, .inl rfl, (fun h => by cases h),
      fun _ => ⟨rfl, fun h => absurd hone (Nat.not_le.mpr h)⟩⟩
  have hpos : 1 ≤ k := hk ▸ one_le_quickLanding (by omega)
  rw [if_neg hone, hpush, bind_eq_bind, bind_some]
  dsimp only
  rw [← hk]
  split_ifs with h₁ h₂
  · exact ⟨_, rfl, .inr rfl, (fun h => by cases h),
      fun _ => ⟨rfl, fun _ h => absurd h₁ (Nat.not_lt.mpr h)⟩⟩
  · exact ⟨_, rfl, .inr rfl, (fun h => by cases h), fun _ => ⟨rfl, fun _ _ => by omega⟩⟩
  · refine ⟨_, rfl, .inr rfl, fun _ => ⟨by omega, by omega, ?_⟩, fun h => by cases h⟩
    have hw : SweepOk n false (fun val num => val = 0 ∨ num = base) (downwards n)
        ⟨mask, tally n mask - k, tally n mask⟩ _ :=
      sweep_ok (fun cpu h => (mem_downwards.mp h).2) rfl
    have hlt : base < (⟨mask, tally n mask - k, tally n mask⟩ : Sweep).num := by
      simp only
      omega
    have hbase := base_le_sweep (downwards n) hlt
    generalize sweep false _ (downwards n) _ = w at hw hbase ⊢
    have hkept := hw.down rfl (fun _ => by simp) (by simp only; omega)
    have hnum := hw.num_eq
    simp only at hkept
    dsimp only
    rcases hw.ended with hstop | hall
    · simp only [decide_eq_true_eq] at hstop
      omega
    · have hfew : tally n w.mask ≤ 1 :=
        tally_le_one fun i h₁ h₂ => hall i (mem_downwards.mpr ⟨h₁, h₂⟩)
      omega

end Rules

/-! ## Rounds -/

/-- The rule that `hps_ctxt.action` names. -/
inductive Rule
  | limit
  | base
  | rushBoost
  | up
  | down
  deriving DecidableEq

/-- `hps_ctxt.action` at the end of a round. -/
def action (n : ℕ) (s : State) (loads : ℕ → ℕ) (curTlp : ℕ) : Option (Option Rule) :=
  if s.ctxt.enabled = 0 then some none
  else do
    let limit := s.ctxt.numLimit
    let base := s.ctxt.littleNumBasePerfServ
    let online := tally n s.online
    let o ← algoSmpLimit n s.ctxt s.online limit online
    if o.acted then return some .limit else
    let o ← algoSmpBase n o.ctxt o.mask base limit online
    if o.acted then return some .base else
    let c ← pushTlp o.ctxt curTlp
    let o ← algoSmpRushBoost n c o.mask (curLoads n loads) limit online
    if o.acted then return some .rushBoost else
    let o ← algoSmpUp n o.ctxt o.mask (curLoads n loads) limit online
    if o.acted then return some .up else
    let o ← algoSmpDown n o.ctxt o.mask (curLoads n loads) base online
    if o.acted then return some .down else return none

def Ctxt.withStats (c : Ctxt) (up down tlp : History) (avg count : ℕ) : Ctxt :=
  { c with up := up, down := down, tlp := tlp, tlpAvg := avg, rushCount := count }

def target (n : ℕ) (s : State) (down : History) : ℕ :=
  max s.ctxt.littleNumBasePerfServ
    (quickLanding down.sum (s.ctxt.downThreshold * s.ctxt.downTimes % 2 ^ 32) (tally n s.online))

structure Decided (n : ℕ) (s : State) (up down tlp : History) (r : Option Rule) (s' : State) :
    Prop where
  stats : ∃ up' down' tlp' avg count, s'.ctxt = s.ctxt.withStats up' down' tlp' avg count ∧
    Moves maxCpuUpTimes s.ctxt.upTimes up s.ctxt.up up' ∧
    Moves maxCpuDownTimes s.ctxt.downTimes down s.ctxt.down down' ∧
    Moves maxTlpTimes s.ctxt.tlpTimes tlp s.ctxt.tlp tlp'
  goes_up : r = some .up → s.ctxt.upTimes ≤ up.count ∧
    s.ctxt.upThreshold * s.ctxt.upTimes * tally n s.online % 2 ^ 32 < up.sum ∧
    tally n s'.online = tally n s.online + 1
  goes_down : r = some .down → 1 < tally n s.online ∧ s.ctxt.downTimes ≤ down.count ∧
    tally n s'.online = target n s down
  stays : r = none → s'.online = s.online ∧ (s.ctxt.enabled ≠ 0 → 1 < tally n s.online →
    s.ctxt.downTimes ≤ down.count → tally n s.online ≤ target n s down)

variable {s : State} {up down tlp up' down' tlp' : History} {r : Option Rule} {o : Out}
  {avg count : ℕ}

theorem History.reset_eq_some (h : History) (hpos : 1 ≤ times) (hle : times ≤ size)
    (hsize : size ≤ 100) : ∃ h', h.reset size times = some h' := by
  obtain ⟨h', heq, -⟩ := History.reset_ok (h := h) hpos hle hsize
  exact ⟨h', heq⟩

theorem Ctxt.resetStasNolock_eq (ht : TimesOk c) : ∃ up down tlp,
    c.resetStasNolock = some (c.withStats up down tlp c.tlpAvg 0) ∧
      c.up.reset maxCpuUpTimes c.upTimes = some up ∧
      c.down.reset maxCpuDownTimes c.downTimes = some down ∧
      c.tlp.reset maxTlpTimes c.tlpTimes = some tlp := by
  obtain ⟨⟨hu, hu'⟩, ⟨hd, hd'⟩, hl, hl'⟩ := ht
  obtain ⟨up, hup⟩ := c.up.reset_eq_some hu hu' (by decide)
  obtain ⟨down, hdown⟩ := c.down.reset_eq_some hd hd' (by decide)
  obtain ⟨tlp, htlp⟩ := c.tlp.reset_eq_some hl hl' (by decide)
  refine ⟨up, down, tlp, ?_, hup, hdown, htlp⟩
  rw [Ctxt.resetStasNolock, hup, hdown, htlp]
  rfl

section

variable (hctxt : o.ctxt = s.ctxt.withStats up' down' tlp' avg count) (ht : TimesOk s.ctxt)

include hctxt ht

theorem endWithAction_decided {rule : Rule} (hup : rule = .up → s.ctxt.upTimes ≤ up.count ∧
      s.ctxt.upThreshold * s.ctxt.upTimes * tally n s.online % 2 ^ 32 < up.sum ∧
      tally n o.mask = tally n s.online + 1)
    (hdown : rule = .down → 1 < tally n s.online ∧ s.ctxt.downTimes ≤ down.count ∧
      tally n o.mask = target n s down) :
    ∃ s', endWithAction o = some s' ∧ Decided n s up down tlp (some rule) s' := by
  have ht' : TimesOk o.ctxt := hctxt ▸ ht
  obtain ⟨up₁, down₁, tlp₁, hreset, hup₁, hdown₁, htlp₁⟩ := Ctxt.resetStasNolock_eq ht'
  rw [hctxt] at hreset hup₁ hdown₁ htlp₁
  refine ⟨⟨_, o.mask⟩, by rw [endWithAction, hctxt, hreset]; rfl, ?_, ?_, ?_, fun h => by cases h⟩
  · exact ⟨_, _, _, _, _, rfl, .inr (.inr ⟨_, hup₁⟩), .inr (.inr ⟨_, hdown₁⟩), .inr (.inr ⟨_, htlp₁⟩)⟩
  · exact fun h => hup (some.inj h)
  · exact fun h => hdown (some.inj h)

theorem endWithAction_other {rule : Rule} (hup : rule ≠ .up) (hdown : rule ≠ .down) :
    ∃ s', endWithAction o = some s' ∧ Decided n s up down tlp (some rule) s' :=
  endWithAction_decided hctxt ht (fun h => absurd h hup) fun h => absurd h hdown

end

theorem acts_or_goes_on {x : Option Out} {k : Out → Option State} {k' : Out → Option (Option Rule)}
    {rule : Rule} {Q : Option Rule → State → Prop} (hx : x = some o)
    (hact : o.acted = true → ∃ s', endWithAction o = some s' ∧ Q (some rule) s')
    (hgo : o.acted = false → ∃ r s', k' o = some r ∧ k o = some s' ∧ Q r s') :
    ∃ r s', (x.bind fun o => if o.acted then some (some rule) else k' o) = some r ∧
      (x.bind fun o => if o.acted then endWithAction o else k o) = some s' ∧ Q r s' := by
  rw [hx, bind_some, bind_some]
  cases hacted : o.acted with
  | true =>
    obtain ⟨s', heq, hq⟩ := hact hacted
    exact ⟨_, s', rfl, heq, hq⟩
  | false => exact hgo hacted

theorem hpsAlgoSmp_decides {loads : ℕ → ℕ} {curTlp : ℕ} (hn : n ≤ nrCpus) (hb : BoundsOk n s.ctxt)
    (ht : TimesOk s.ctxt)
    (hup : s.ctxt.up.push maxCpuUpTimes s.ctxt.upTimes (curLoads n loads) = some up)
    (hdown : s.ctxt.down.push maxCpuDownTimes s.ctxt.downTimes (curLoads n loads) = some down)
    (htlp : s.ctxt.tlp.push maxTlpTimes s.ctxt.tlpTimes curTlp = some tlp) :
    ∃ r s', action n s loads curTlp = some r ∧ hpsAlgoSmp n s loads curTlp = some s' ∧
      Decided n s up down tlp r s' := by
  rw [action, hpsAlgoSmp]
  by_cases henabled : s.ctxt.enabled = 0
  · rw [if_pos henabled, if_pos henabled]
    exact ⟨none, s, rfl, rfl, ⟨_, _, _, _, _, rfl, .inl rfl, .inl rfl, .inl rfl⟩,
      (fun h => by cases h), (fun h => by cases h),
      fun _ => ⟨rfl, fun h => absurd henabled h⟩⟩
  rw [if_neg henabled, if_neg henabled]
  obtain ⟨o, heq, hctxt, hsame, hle, -⟩ := algoSmpLimit_ok (n := n) (c := s.ctxt)
    hb.one_le_numLimit
  refine acts_or_goes_on heq ?_ fun hacted => ?_
  · exact fun _ => endWithAction_other (s := s) hctxt ht (by decide) (by decide)
  rw [hsame hacted] at hle
  rw [hctxt, hsame hacted]
  clear heq hctxt hsame hacted o
  obtain ⟨o, heq, hctxt, hsame, -, -⟩ := algoSmpBase_ok (c := s.ctxt) hb.base_le hle
  refine acts_or_goes_on heq ?_ fun hacted => ?_
  · exact fun _ => endWithAction_other (s := s) hctxt ht (by decide) (by decide)
  rw [hctxt, (hsame hacted).1]
  clear heq hctxt hsame hacted o
  obtain ⟨avg, hpush⟩ : ∃ avg, pushTlp s.ctxt curTlp = some { s.ctxt with tlp := tlp, tlpAvg := avg } :=
    ⟨_, by rw [pushTlp, htlp]; rfl⟩
  simp only [hpush, bind_eq_bind, bind_some]
  obtain ⟨⟨_, mask, _⟩, heq, ⟨count, rfl⟩, hsame, -⟩ := algoSmpRushBoost_ok
    (c := { s.ctxt with tlp := tlp, tlpAvg := avg }) hn hle
  refine acts_or_goes_on heq ?_ fun hacted => ?_
  · exact fun _ => endWithAction_other (s := s) rfl ht (by decide) (by decide)
  obtain rfl := hsame hacted
  clear heq hsame hacted
  obtain ⟨o, heq, hctxt, hsame, hacts⟩ := algoSmpUp_acts (n := n)
    (c := { s.ctxt with tlp := tlp, tlpAvg := avg, rushCount := count }) s.online s.ctxt.numLimit hup
  have hstats : ∃ up', o.ctxt = s.ctxt.withStats up' s.ctxt.down tlp avg count ∧
      Moves maxCpuUpTimes s.ctxt.upTimes up s.ctxt.up up' := by
    rcases hctxt with h | h
    · exact ⟨_, h, .inl rfl⟩
    · exact ⟨_, h, .inr (.inl rfl)⟩
  obtain ⟨up', hctxt', hmoves⟩ := hstats
  refine acts_or_goes_on heq ?_ fun hacted => ?_
  · exact fun hacted => endWithAction_decided (s := s) hctxt' ht (fun _ => hacts hacted)
      (fun h => by cases h)
  rw [hctxt', hsame hacted]
  clear heq hsame hacted hctxt hacts hctxt' o
  obtain ⟨o, heq, hctxt, hacts, hstays⟩ := algoSmpDown_acts (n := n)
    (c := s.ctxt.withStats up' s.ctxt.down tlp avg count) s.online s.ctxt.littleNumBasePerfServ hdown
    rfl
  have hstats : ∃ down', o.ctxt = s.ctxt.withStats up' down' tlp avg count ∧
      Moves maxCpuDownTimes s.ctxt.downTimes down s.ctxt.down down' := by
    rcases hctxt with h | h
    · exact ⟨_, h, .inl rfl⟩
    · exact ⟨_, h, .inr (.inl rfl)⟩
  obtain ⟨down', hctxt', hmoves'⟩ := hstats
  refine acts_or_goes_on heq ?_ fun hacted => ?_
  · exact fun hacted => endWithAction_decided (s := s) hctxt' ht (fun h => by cases h)
      fun _ => hacts hacted
  refine ⟨none, _, rfl, rfl, ⟨up', down', tlp, avg, count, hctxt', hmoves, hmoves', .inr (.inl rfl)⟩,
    (fun h => by cases h), (fun h => by cases h), fun _ => ?_⟩
  obtain ⟨hmask, hstay⟩ := hstays hacted
  exact ⟨hmask, fun _ => hstay⟩

/-! ## Runs -/

structure Logged where
  state : State
  up : List ℕ
  down : List ℕ
  tlp : List ℕ

def samples (n : ℕ) : Action → ℕ × ℕ
  | .round loads curTlp => (curLoads n loads, curTlp)
  | _ => (0, 0)

def loggedStep (n : ℕ) (s : Logged) (a : Action) : Option Logged :=
  (step n s.state a).map fun s' =>
    { state := s'
      up := record s.state.ctxt.up s'.ctxt.up (samples n a).1 s.up
      down := record s.state.ctxt.down s'.ctxt.down (samples n a).1 s.down
      tlp := record s.state.ctxt.tlp s'.ctxt.tlp (samples n a).2 s.tlp }

def History.Room (h : History) (cur : ℕ) : Prop := h.sum + cur < 2 ^ 32 ∧ h.count + 1 < 2 ^ 32

instance (h : History) (cur : ℕ) : Decidable (h.Room cur) := inferInstanceAs (Decidable (_ ∧ _))

/-- A length of a history fits its array, and no sum or count wraps around. -/
def averageGuard (n : ℕ) (s : Logged) : Action → Prop
  | .round loads curTlp => s.state.ctxt.up.Room (curLoads n loads) ∧
      s.state.ctxt.down.Room (curLoads n loads) ∧ s.state.ctxt.tlp.Room curTlp
  | a => guard n s.state a

instance (n : ℕ) (s : Logged) : ∀ a, Decidable (averageGuard n s a)
  | .round _ _ => inferInstanceAs (Decidable (_ ∧ _ ∧ _))
  | .set p v => inferInstanceAs (Decidable (guard n s.state (.set p v)))
  | .setBase v => inferInstanceAs (Decidable (guard n s.state (.setBase v)))
  | .setLimit l v => inferInstanceAs (Decidable (guard n s.state (.setLimit l v)))

structure LoggedOk (n : ℕ) (s : Logged) : Prop where
  bounds : BoundsOk n s.state.ctxt
  up : Exact maxCpuUpTimes s.state.ctxt.upTimes s.state.ctxt.up s.up
  down : Exact maxCpuDownTimes s.state.ctxt.downTimes s.state.ctxt.down s.down
  tlp : Exact maxTlpTimes s.state.ctxt.tlpTimes s.state.ctxt.tlp s.tlp

theorem LoggedOk.timesOk {s : Logged} (h : LoggedOk n s) : TimesOk s.state.ctxt :=
  ⟨⟨h.up.pos, h.up.le⟩, ⟨h.down.pos, h.down.le⟩, h.tlp.pos, h.tlp.le⟩

/-- What a round decides, in terms of the samples. -/
structure Averaged (n : ℕ) (s : Logged) (loads : ℕ → ℕ) (r : Option Rule) (s' : State) : Prop where
  up : r = some .up → tally n s'.online = tally n s.state.online + 1 ∧
    (s.state.ctxt.upThreshold * s.state.ctxt.upTimes * tally n s.state.online < 2 ^ 32 →
      s.state.ctxt.upTimes ≤ (curLoads n loads :: s.up).length ∧
      s.state.ctxt.upThreshold * s.state.ctxt.upTimes * tally n s.state.online <
        ((curLoads n loads :: s.up).take s.state.ctxt.upTimes).sum)
  down : r = some .down →
    s.state.ctxt.downThreshold * s.state.ctxt.downTimes * (tally n s.state.online - 1) < 2 ^ 32 →
    s.state.ctxt.downTimes ≤ (curLoads n loads :: s.down).length ∧
    ∃ k, IsGreatest (Carries ((curLoads n loads :: s.down).take s.state.ctxt.downTimes).sum
        (s.state.ctxt.downThreshold * s.state.ctxt.downTimes) (tally n s.state.online)) k ∧
      tally n s'.online = max s.state.ctxt.littleNumBasePerfServ k
  stay : r = none → s'.online = s.state.online ∧ (s.state.ctxt.enabled ≠ 0 →
    1 < tally n s.state.online → s.state.ctxt.downTimes ≤ (curLoads n loads :: s.down).length →
    s.state.ctxt.downThreshold * s.state.ctxt.downTimes * (tally n s.state.online - 1) < 2 ^ 32 →
    ∃ k, IsGreatest (Carries ((curLoads n loads :: s.down).take s.state.ctxt.downTimes).sum
        (s.state.ctxt.downThreshold * s.state.ctxt.downTimes) (tally n s.state.online)) k ∧
      tally n s.state.online ≤ max s.state.ctxt.littleNumBasePerfServ k)

variable {l l' : Logged} {loads : ℕ → ℕ} {curTlp : ℕ}

theorem target_eq (hdown : Exact maxCpuDownTimes s.ctxt.downTimes down log)
    (hone : 1 < tally n s.online)
    (hwrap : s.ctxt.downThreshold * s.ctxt.downTimes * (tally n s.online - 1) < 2 ^ 32) :
    ∃ k, IsGreatest (Carries (log.take s.ctxt.downTimes).sum
        (s.ctxt.downThreshold * s.ctxt.downTimes) (tally n s.online)) k ∧
      target n s down = max s.ctxt.littleNumBasePerfServ k := by
  have hmod : s.ctxt.downThreshold * s.ctxt.downTimes % 2 ^ 32 =
      s.ctxt.downThreshold * s.ctxt.downTimes :=
    Nat.mod_eq_of_lt ((Nat.le_mul_of_pos_right _ (by omega)).trans_lt hwrap)
  refine ⟨_, quickLanding_isGreatest (by omega) hwrap, ?_⟩
  rw [target, hdown.sum, hmod]

theorem Decided.averaged {s' : State} {r : Option Rule}
    (hd : Decided n l.state up down tlp r s')
    (hup : Exact maxCpuUpTimes l.state.ctxt.upTimes up (curLoads n loads :: l.up))
    (hdown : Exact maxCpuDownTimes l.state.ctxt.downTimes down (curLoads n loads :: l.down)) :
    Averaged n l loads r s' := by
  refine ⟨fun hr => ?_, fun hr hwrap => ?_, fun hr => ?_⟩
  · obtain ⟨hcount, hsum, hnum⟩ := hd.goes_up hr
    refine ⟨hnum, fun hwrap => ⟨hup.count ▸ hcount, ?_⟩⟩
    rwa [Nat.mod_eq_of_lt hwrap, hup.sum] at hsum
  · obtain ⟨hone, hcount, hnum⟩ := hd.goes_down hr
    obtain ⟨k, hk, htarget⟩ := target_eq hdown hone hwrap
    exact ⟨hdown.count ▸ hcount, k, hk, hnum.trans htarget⟩
  · obtain ⟨hsame, hstay⟩ := hd.stays hr
    refine ⟨hsame, fun henabled hone hlen hwrap => ?_⟩
    obtain ⟨k, hk, htarget⟩ := target_eq hdown hone hwrap
    exact ⟨k, hk, htarget ▸ hstay henabled hone (hdown.count.symm ▸ hlen)⟩

theorem round_ok (hn : n ≤ nrCpus) (hl : LoggedOk n l) (hg : averageGuard n l (.round loads curTlp)) :
    ∃ r l', action n l.state loads curTlp = some r ∧
      loggedStep n l (.round loads curTlp) = some l' ∧ LoggedOk n l' ∧
      Averaged n l loads r l'.state := by
  obtain ⟨⟨hu, hu'⟩, ⟨hd, hd'⟩, ht, ht'⟩ := hg
  obtain ⟨up, hup, hupExact⟩ := hl.up.push (by decide) hu hu'
  obtain ⟨down, hdown, hdownExact⟩ := hl.down.push (by decide) hd hd'
  obtain ⟨tlp, htlp, htlpExact⟩ := hl.tlp.push (by decide) ht ht'
  obtain ⟨r, ⟨c', mask⟩, hact, hstep, hdec⟩ :=
    hpsAlgoSmp_decides hn hl.bounds hl.timesOk hup hdown htlp
  refine ⟨r, _, hact, by rw [loggedStep, step, hstep]; rfl, ?_, hdec.averaged hupExact hdownExact⟩
  obtain ⟨up', down', tlp', avg, count, rfl, hmu, hmd, hmt⟩ := hdec.stats
  exact ⟨⟨hl.bounds.base_le, hl.bounds.limit_pos⟩, hl.up.record hupExact hmu,
    hl.down.record hdownExact hmd, hl.tlp.record htlpExact hmt⟩

theorem loggedStep_ok {a : Action} (hn : n ≤ nrCpus) (hl : LoggedOk n l)
    (hg : averageGuard n l a) : ∃ l', loggedStep n l a = some l' ∧ LoggedOk n l' := by
  cases a with
  | round loads curTlp =>
    obtain ⟨r, l', -, hstep, hok, -⟩ := round_ok hn hl hg
    exact ⟨l', hstep, hok⟩
  | set p v =>
    have hb := hl.bounds.write v p
    have ht := hl.timesOk.write hg
    rw [loggedStep, step, procWrite]
    by_cases hp : p = .rushBoostEnabled
    · subst hp
      exact ⟨_, rfl, hb, hl.up.record_same, hl.down.record_same, hl.tlp.record_same⟩
    · obtain ⟨up, down, tlp, hreset, hup, hdown, htlp⟩ := Ctxt.resetStasNolock_eq ht
      rw [if_neg hp, hreset]
      refine ⟨_, rfl, ⟨hb.base_le, hb.limit_pos⟩, ?_, ?_, ?_⟩
      · exact (Exact.of_reset ht.1.1 ht.1.2 hup).record_nil
      · exact (Exact.of_reset ht.2.1.1 ht.2.1.2 hdown).record_nil
      · exact (Exact.of_reset ht.2.2.1 ht.2.2.2 htlp).record_nil
  | setBase v =>
    rw [loggedStep, step]
    split_ifs with hv
    · exact ⟨_, rfl, hl.bounds, hl.up.record_same, hl.down.record_same, hl.tlp.record_same⟩
    · exact ⟨_, rfl, hl.bounds.setBase hv, hl.up.record_same, hl.down.record_same,
        hl.tlp.record_same⟩
  | setLimit lim v =>
    rw [loggedStep, step]
    split_ifs with hv
    · exact ⟨_, rfl, hl.bounds, hl.up.record_same, hl.down.record_same, hl.tlp.record_same⟩
    · exact ⟨_, rfl, hl.bounds.setLimit lim hv, hl.up.record_same, hl.down.record_same,
        hl.tlp.record_same⟩

/-- A history counts the samples since the last reset and has the sum of the last of them. -/
def Average (times : ℕ) (h : History) (log : List ℕ) : Prop :=
  h.count = log.length ∧ h.sum = (log.take (min h.count times)).sum

theorem Exact.average (he : Exact size times h log) : Average times h log := by
  refine ⟨he.count, he.sum.trans ?_⟩
  rw [he.count, Nat.min_comm, ← take_take, take_length]

def Logged.init (n : ℕ) (online : ℕ → Bool) : Logged := ⟨⟨.init n, online⟩, [], [], []⟩

theorem Logged.init_ok (hn : 0 < n) (online : ℕ → Bool) : LoggedOk n (.init n online) where
  bounds := ⟨hn, fun _ => hn⟩
  up := .nil (show 1 ≤ 2 by decide) (show 2 ≤ 10 by decide) rfl rfl rfl
  down := .nil (show 1 ≤ 20 by decide) (show 20 ≤ 100 by decide) rfl rfl rfl
  tlp := .nil (show 1 ≤ 1 by decide) (show 1 ≤ 10 by decide) rfl rfl rfl

/-- As long as no sum or count wraps around, a round goes up or down by what the samples say. -/
theorem averages_of_reach {online : ℕ → Bool} (hn : 0 < n) (hle : n ≤ nrCpus)
    (h : Reach (loggedStep n) (averageGuard n) (.init n online) l) :
    Average l.state.ctxt.upTimes l.state.ctxt.up l.up ∧
      Average l.state.ctxt.downTimes l.state.ctxt.down l.down ∧
      Average l.state.ctxt.tlpTimes l.state.ctxt.tlp l.tlp ∧
      ∀ loads curTlp, averageGuard n l (.round loads curTlp) → ∃ r l',
        action n l.state loads curTlp = some r ∧
        loggedStep n l (.round loads curTlp) = some l' ∧ Averaged n l loads r l'.state := by
  have hl : LoggedOk n l := by
    refine h.invariant (P := LoggedOk n) (Logged.init_ok hn online) ?_
    intro l l' a hl hg hstep
    obtain ⟨l₁, heq, hok⟩ := loggedStep_ok hle hl hg
    rw [hstep, some.injEq] at heq
    exact heq ▸ hok
  refine ⟨hl.up.average, hl.down.average, hl.tlp.average, fun loads curTlp hg => ?_⟩
  obtain ⟨r, l', hact, hstep, -, havg⟩ := round_ok hle hl hg
  exact ⟨r, l', hact, hstep, havg⟩

def oneBusy : ℕ → ℕ := fun cpu => if cpu = 0 then 100 else if cpu = 1 then 5 else 0

def quietRun : List Action := replicate 19 (.round oneBusy 0)

theorem averages_of_quietRun : ∃ l,
    runGuarded (loggedStep 4) (averageGuard 4) (.init 4 fun _ => true) quietRun = some l ∧
      l.down = replicate 19 105 ∧ Average 20 l.state.ctxt.down l.down ∧
      ∃ r l', action 4 l.state oneBusy 0 = some r ∧ loggedStep 4 l (.round oneBusy 0) = some l' ∧
        r = some .down ∧ Averaged 4 l oneBusy r l'.state := by
  have hrun : (runGuarded (loggedStep 4) (averageGuard 4) (.init 4 fun _ => true) quietRun).map
      (fun l => (l.down, l.state.ctxt.downTimes, decide (averageGuard 4 l (.round oneBusy 0)),
        action 4 l.state oneBusy 0)) =
      some (replicate 19 105, 20, true, some (some .down)) := by decide +kernel
  obtain ⟨l, hl, hfacts⟩ := map_eq_some_iff.mp hrun
  simp only [Prod.mk.injEq, decide_eq_true_eq] at hfacts
  obtain ⟨hdown, htimes, hg, hact⟩ := hfacts
  obtain ⟨-, havg, -, hround⟩ :=
    averages_of_reach (by decide) (by decide) (.of_runGuarded quietRun .init hl)
  obtain ⟨r, l', hr, hstep, hround'⟩ := hround oneBusy 0 hg
  refine ⟨l, hl, hdown, htimes ▸ havg, r, l', hr, hstep, ?_, hround'⟩
  exact some.inj (hr.symm.trans hact)

theorem down_not_least :
    ∃ l l', runList (loggedStep 4) (.init 4 fun _ => true) quietRun = some l ∧
      loggedStep 4 l (.round oneBusy 0) = some l' ∧
      action 4 l.state oneBusy 0 = some (some .down) ∧
      IsLeast {k | 1 ≤ k ∧ l.state.ctxt.downThreshold * l.state.ctxt.downTimes * (k - 1) ≤
        ((curLoads 4 oneBusy :: l.down).take l.state.ctxt.downTimes).sum} 1 ∧
      max l.state.ctxt.littleNumBasePerfServ 1 = 1 ∧ tally 4 l'.state.online = 2 := by
  have hrun : (runList (loggedStep 4) (.init 4 fun _ => true) quietRun).bind (fun l =>
      (loggedStep 4 l (.round oneBusy 0)).map fun l' => (action 4 l.state oneBusy 0,
        l.state.ctxt.littleNumBasePerfServ, tally 4 l'.state.online)) =
      some (some (some .down), 1, 2) := by decide +kernel
  obtain ⟨l, hl, hl'⟩ := bind_eq_some_iff.mp hrun
  obtain ⟨l', hstep, hfacts⟩ := map_eq_some_iff.mp hl'
  simp only [Prod.mk.injEq] at hfacts
  refine ⟨l, l', hl, hstep, hfacts.1, ⟨⟨le_rfl, by simp⟩, fun k hk => hk.1⟩, ?_, hfacts.2.2⟩
  rw [hfacts.2.1, max_self]

end Cupcake.Hps
