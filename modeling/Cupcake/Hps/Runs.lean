import Cupcake.Hps.Defs
import Mathlib.Algebra.BigOperators.Group.Finset.Piecewise
import Mathlib.Algebra.Order.BigOperators.Group.Finset
import Mathlib.Tactic.Ring

/-! Every round of the strategy keeps within the limits, as long as the rush boost does not
ask for more CPUs than they allow. -/

namespace Cupcake.Hps

open List Option

variable {n size times cur : ℕ} {h h' : History} {c : Ctxt} {s : State}

/-! ## Histories -/

structure Filled (size times filled : ℕ) (h : History) : Prop where
  pos : 1 ≤ times
  le : times ≤ size
  index_lt : h.index < times
  filled_le : filled ≤ times
  start : filled < times → h.index = filled ∧ h.count = filled
  sum_ge : ∑ i ∈ Finset.range filled, h.history i ≤ h.sum

def HistoryOk (size times : ℕ) (h : History) : Prop := ∃ filled, Filled size times filled h

theorem sum_update_range {f : ℕ → ℕ} {k i v : ℕ} (hi : i < k) :
    ∑ j ∈ Finset.range k, Function.update f i v j + f i = ∑ j ∈ Finset.range k, f j + v := by
  have hmem : i ∈ Finset.range k := Finset.mem_range.mpr hi
  rw [Finset.sum_update_of_mem hmem, ← Finset.add_sum_erase _ _ hmem, Finset.sdiff_singleton_eq_erase]
  ring

theorem wadd_index {i : ℕ} (hi : i < times) (ht : times ≤ 2 ^ 31) : wadd 32 i 1 = i + 1 :=
  wadd_of_lt (by omega)

theorem History.push_ok (hok : HistoryOk size times h) (hsize : size ≤ 100)
    (hsum : h.sum + cur < 2 ^ 32) :
    ∃ h', h.push size times cur = some h' ∧ HistoryOk size times h' := by
  obtain ⟨filled, hf⟩ := hok
  have hlt := hf.index_lt
  have hle := hf.le
  have hpos := hf.pos
  have hindex : wadd 32 h.index 1 = h.index + 1 := wadd_index hlt (by omega)
  have hnext : (if h.index + 1 = times then 0 else h.index + 1) < times := by
    split_ifs <;> omega
  rw [History.push, if_neg (by omega)]
  simp only [hindex, wadd_of_lt hsum]
  rcases hf.filled_le.lt_or_eq with hlow | rfl
  · -- the first entries after a reset
    obtain ⟨hidx, hcnt⟩ := hf.start hlow
    have hcount : wadd 32 h.count 1 = filled + 1 := by
      rw [hcnt]
      exact wadd_of_lt (by omega)
    rw [hcount, if_neg (by omega)]
    refine ⟨_, rfl, filled + 1, hpos, hle, hnext, hlow, fun hmore => ⟨?_, rfl⟩, ?_⟩
    · simp only [hidx]
      rw [if_neg (by omega)]
    · simp only [hidx]
      rw [Finset.sum_range_succ, Function.update_self]
      have hsame : ∑ i ∈ Finset.range filled, Function.update h.history filled cur i =
          ∑ i ∈ Finset.range filled, h.history i := by
        apply Finset.sum_congr rfl
        intro i hi
        exact Function.update_of_ne (Finset.mem_range.mp hi).ne _ _
      have := hf.sum_ge
      omega
  · -- one entry is replaced
    have hupd := sum_update_range (f := h.history) (v := cur) hlt
    have hge := hf.sum_ge
    have hval : h.history h.index ≤ ∑ i ∈ Finset.range filled, h.history i :=
      Finset.single_le_sum (fun _ _ => Nat.zero_le _) (Finset.mem_range.mpr hlt)
    by_cases hcount : filled < wadd 32 h.count 1
    · rw [if_pos hcount, if_neg (by omega)]
      refine ⟨_, rfl, filled, hpos, hle, hnext, le_rfl, fun h => absurd h (lt_irrefl _), ?_⟩
      simp only
      omega
    · rw [if_neg hcount]
      refine ⟨_, rfl, filled, hpos, hle, hnext, le_rfl, fun h => absurd h (lt_irrefl _), ?_⟩
      simp only
      omega

theorem History.reset_ok (hpos : 1 ≤ times) (hle : times ≤ size) (hsize : size ≤ 100) :
    ∃ h', h.reset size times = some h' ∧ HistoryOk size times h' := by
  have hsub : wsub 32 times 1 = times - 1 := wsub_of_le hpos (by omega)
  rw [History.reset, hsub, if_neg (by omega)]
  exact ⟨_, rfl, 0, hpos, hle, hpos, Nat.zero_le _, fun _ => ⟨rfl, rfl⟩, by simp⟩

/-! ## Sweeps over CPUs -/

theorem Sweep.num_change {on : Bool} {cpu : ℕ} {w : Sweep} (hcpu : cpu < n)
    (hmask : w.mask cpu ≠ on) (hnum : w.num = tally n w.mask) :
    (w.change on cpu).num = tally n (w.change on cpu).mask ∧ (on = false → 0 < w.num) := by
  cases on with
  | true =>
    have hoff : w.mask cpu = false := Bool.eq_false_of_not_eq_true hmask
    refine ⟨?_, nofun⟩
    simp [Sweep.change, hnum, tally_raise hcpu hoff]
  | false =>
    have hon : w.mask cpu = true := Bool.eq_true_of_not_eq_false hmask
    have hlow := tally_lower hcpu hon
    refine ⟨?_, fun _ => by omega⟩
    simp only [Sweep.change, hnum]
    exact (Nat.eq_sub_of_add_eq hlow).symm

structure SweepOk (n : ℕ) (on : Bool) (stop : ℕ → ℕ → Bool) (cpus : List ℕ) (w w' : Sweep) :
    Prop where
  num_eq : w'.num = tally n w'.mask
  mask_eq : ∀ cpu, w'.mask cpu = w.mask cpu ∨ w'.mask cpu = on ∧ cpu ∈ cpus
  ended : stop w'.val w'.num = true ∨ ∀ cpu ∈ cpus, w'.mask cpu = on
  val_le : w'.val ≤ w.val
  up : on = true → (∀ num, stop 0 num = true) → 0 < w.val → w'.num + w'.val = w.num + w.val
  down : on = false → (∀ num, stop 0 num = true) → 0 < w.val → w'.num + w.val = w.num + w'.val

theorem sweep_ok {on : Bool} {stop : ℕ → ℕ → Bool} {cpus : List ℕ} {w : Sweep}
    (hcpus : ∀ cpu ∈ cpus, cpu < n) (hnum : w.num = tally n w.mask) :
    SweepOk n on stop cpus w (sweep on stop cpus w) := by
  induction cpus generalizing w with
  | nil =>
    exact ⟨hnum, fun _ => .inl rfl, .inr nofun, le_rfl, fun _ _ _ => rfl, fun _ _ _ => rfl⟩
  | cons cpu cpus ih =>
    have hn : cpu < n := hcpus cpu (mem_cons_self ..)
    have hrest (c : ℕ) (hc : c ∈ cpus) : c < n := hcpus c (mem_cons_of_mem _ hc)
    rw [sweep]
    by_cases hmask : w.mask cpu = on
    · rw [if_pos hmask]
      have hr := ih hrest hnum
      refine ⟨hr.num_eq, fun c => ?_, ?_, hr.val_le, hr.up, hr.down⟩
      · exact (hr.mask_eq c).imp_right fun h => ⟨h.1, mem_cons_of_mem _ h.2⟩
      · refine hr.ended.imp_right fun hall c hc => ?_
        rcases mem_cons.mp hc with rfl | hc
        · rcases hr.mask_eq c with h | h
          · exact h.trans hmask
          · exact h.1
        · exact hall c hc
    · rw [if_neg hmask]
      obtain ⟨hnum', hpos⟩ := Sweep.num_change hn hmask hnum
      have hval : (w.change on cpu).val = w.val - 1 := rfl
      have hchange (c : ℕ) : (w.change on cpu).mask c = w.mask c ∨
          (w.change on cpu).mask c = on ∧ c ∈ cpu :: cpus := by
        rcases eq_or_ne c cpu with rfl | hne
        · exact .inr ⟨Function.update_self .., mem_cons_self ..⟩
        · exact .inl (Function.update_of_ne hne ..)
      have hup : on = true → (w.change on cpu).num = w.num + 1 := by
        rintro rfl
        rfl
      have hdown : on = false → (w.change on cpu).num = w.num - 1 := by
        rintro rfl
        rfl
      simp only
      by_cases hstop : stop (w.change on cpu).val (w.change on cpu).num = true
      · rw [if_pos hstop]
        refine ⟨hnum', hchange, .inl hstop, by omega, fun h _ _ => ?_, fun h _ _ => ?_⟩
        · have := hup h
          omega
        · have := hdown h
          have := hpos h
          omega
      · rw [if_neg hstop]
        have hr := ih hrest hnum'
        have hmore (hzero : ∀ num, stop 0 num = true) : 0 < (w.change on cpu).val := by
          rcases Nat.eq_zero_or_pos (w.change on cpu).val with h | h
          · rw [h] at hstop
            exact absurd (hzero _) hstop
          · exact h
        have hle := hr.val_le
        refine ⟨hr.num_eq, fun c => ?_, ?_, by omega, fun h hz hw => ?_, fun h hz hw => ?_⟩
        · rcases hr.mask_eq c with hsame | ⟨hon, hmem⟩
          · rw [hsame]
            exact hchange c
          · exact .inr ⟨hon, mem_cons_of_mem _ hmem⟩
        · refine hr.ended.imp_right fun hall c hc => ?_
          rcases mem_cons.mp hc with rfl | hc
          · rcases hr.mask_eq c with h | h
            · rw [h]
              exact Function.update_self ..
            · exact h.1
          · exact hall c hc
        · have := hr.up h hz (hmore hz)
          have := hup h
          omega
        · have := hr.down h hz (hmore hz)
          have := hdown h
          have := hpos h
          omega

theorem sweep_once {cpus : List ℕ} {w : Sweep} :
    (sweep true (fun _ _ => true) cpus w).num ≤ w.num + 1 := by
  induction cpus with
  | nil => exact Nat.le_succ _
  | cons cpu cpus ih =>
    rw [sweep]
    by_cases hmask : w.mask cpu = true
    · rw [if_pos hmask]
      exact ih
    · rw [if_neg hmask]
      exact le_rfl

theorem mem_upwards {cpu : ℕ} : cpu ∈ upwards n ↔ cpu < n := mem_range

theorem mem_downwards {cpu : ℕ} : cpu ∈ downwards n ↔ 1 ≤ cpu ∧ cpu < n := by
  simp only [downwards, mem_reverse, mem_range'_1]
  omega

theorem tally_eq_all {f : ℕ → Bool} (h : ∀ i < n, f i = true) : tally n f = n := by
  rw [tally, Finset.filter_true_of_mem, Finset.card_range]
  intro i hi
  exact h i (Finset.mem_range.mp hi)

theorem tally_le {f : ℕ → Bool} : tally n f ≤ n := by
  calc tally n f ≤ (Finset.range n).card := Finset.card_filter_le _ _
    _ = n := Finset.card_range n

theorem tally_le_one {f : ℕ → Bool} (h : ∀ i, 1 ≤ i → i < n → f i = false) : tally n f ≤ 1 := by
  rw [tally, Finset.card_le_one]
  intro i hi j hj
  simp only [Finset.mem_filter, Finset.mem_range] at hi hj
  have hi0 : i = 0 := by
    by_contra hne
    simp [h i (by omega) hi.1] at hi
  have hj0 : j = 0 := by
    by_contra hne
    simp [h j (by omega) hj.1] at hj
  rw [hi0, hj0]

/-! ## The sub-algorithms -/

section SubAlgorithms

variable {mask : ℕ → Bool} {curLoads curTlp base limit : ℕ}

theorem algoSmpLimit_ok (hlimit : 1 ≤ limit) :
    ∃ o, algoSmpLimit n c mask limit (tally n mask) = some o ∧ o.ctxt = c ∧
      (o.acted = false → o.mask = mask) ∧ tally n o.mask ≤ limit ∧ o.mask 0 = mask 0 := by
  rw [algoSmpLimit]
  by_cases hle : tally n mask ≤ limit
  · rw [if_pos hle]
    exact ⟨_, rfl, rfl, fun _ => rfl, hle, rfl⟩
  · rw [if_neg hle]
    have hw : SweepOk n false (fun val _ => val = 0) (downwards n)
        ⟨mask, tally n mask - limit, tally n mask⟩ _ :=
      sweep_ok (fun cpu h => (mem_downwards.mp h).2) rfl
    generalize hs : sweep false _ (downwards n) _ = w at hw ⊢
    have hsum := hw.down rfl (fun _ => by simp) (by simp only; omega)
    have hval : w.val = 0 := by
      rcases hw.ended with h | h
      · simpa using h
      · have hone : tally n w.mask ≤ 1 :=
          tally_le_one fun i h₁ h₂ => h i (mem_downwards.mpr ⟨h₁, h₂⟩)
        have := hw.num_eq
        simp only at hsum
        omega
    have hnum := hw.num_eq
    simp only at hsum
    rw [if_neg (by omega)]
    refine ⟨_, rfl, rfl, nofun, by simp only; omega, ?_⟩
    rcases hw.mask_eq 0 with h | ⟨-, h⟩
    · exact h
    · exact absurd (mem_downwards.mp h).1 (by decide)

theorem first_of_upwards {stop : ℕ → ℕ → Bool} {w w' : Sweep}
    (h : SweepOk n true stop (upwards n) w w') (hfirst : w.mask 0 = true) : w'.mask 0 = true := by
  rcases h.mask_eq 0 with hsame | ⟨hon, -⟩
  · rw [hsame, hfirst]
  · exact hon

theorem algoSmpBase_ok (hbase : base ≤ n) (hle : tally n mask ≤ limit) :
    ∃ o, algoSmpBase n c mask base limit (tally n mask) = some o ∧ o.ctxt = c ∧
      (o.acted = false → o.mask = mask ∧ (base ≤ tally n mask ∨ limit ≤ tally n mask)) ∧
      tally n o.mask ≤ limit ∧ (mask 0 = true → o.mask 0 = true) := by
  rw [algoSmpBase, if_neg (by omega)]
  by_cases hno : base ≤ tally n mask ∨ limit ≤ tally n mask
  · rw [if_pos hno]
    exact ⟨_, rfl, rfl, fun _ => ⟨rfl, hno⟩, hle, id⟩
  · rw [if_neg hno]
    have hw : SweepOk n true (fun val num => val = 0 ∨ num = limit) (upwards n)
        ⟨mask, min base limit - tally n mask, tally n mask⟩ _ :=
      sweep_ok (fun cpu h => mem_upwards.mp h) rfl
    generalize hs : sweep true _ (upwards n) _ = w at hw ⊢
    have hsum := hw.up rfl (fun _ => by simp) (by simp only; omega)
    have hnum := hw.num_eq
    simp only at hsum
    have hval : w.val = 0 := by
      rcases hw.ended with h | h
      · have : w.val = 0 ∨ w.num = limit := by simpa using h
        omega
      · have hall : tally n w.mask = n := tally_eq_all fun i hi => h i (mem_upwards.mpr hi)
        omega
    rw [if_neg (by omega)]
    exact ⟨_, rfl, rfl, nofun, by simp only; omega, first_of_upwards hw⟩

theorem lt_rushTarget {online avg : ℕ} (h : online * 100 < avg) : online < rushTarget avg := by
  rw [rushTarget]
  split_ifs <;> omega

def RushFits (n : ℕ) (c : Ctxt) (curLoads limit online : ℕ) : Prop :=
  online < limit → rushes c curLoads online → min (rushTarget c.tlpAvg) n ≤ limit

instance (c : Ctxt) (curLoads limit online : ℕ) : Decidable (RushFits n c curLoads limit online) :=
  inferInstanceAs (Decidable (_ → _ → _))

theorem algoSmpRushBoost_ok (hn : n ≤ nrCpus) (hle : tally n mask ≤ limit) :
    ∃ o, algoSmpRushBoost n c mask curLoads limit (tally n mask) = some o ∧
      (∃ count, o.ctxt = { c with rushCount := count }) ∧
      (o.acted = false → o.mask = mask) ∧
      (RushFits n c curLoads limit (tally n mask) → tally n o.mask ≤ limit) ∧
      (mask 0 = true → o.mask 0 = true) := by
  have hall : tally n mask ≤ n := tally_le
  rw [algoSmpRushBoost]
  by_cases hon : c.rushBoostEnabled = 0
  · rw [if_pos hon]
    exact ⟨_, rfl, ⟨c.rushCount, rfl⟩, fun _ => rfl, fun _ => hle, id⟩
  rw [if_neg hon]
  by_cases hr : rushes c curLoads (tally n mask)
  · have hwrap : tally n mask * 100 % 2 ^ 32 = tally n mask * 100 := by
      rw [nrCpus] at hn
      exact Nat.mod_eq_of_lt (by omega)
    have htarget : tally n mask < rushTarget c.tlpAvg := lt_rushTarget (hwrap ▸ hr.2.2)
    have hsub : wsub 32 (min (rushTarget c.tlpAvg) n) (tally n mask) =
        min (rushTarget c.tlpAvg) n - tally n mask := by
      rw [nrCpus] at hn
      exact wsub_of_le (by omega) (by omega)
    simp only [hsub]
    rw [if_neg (not_not.mpr hr), if_neg (not_not.mpr htarget)]
    by_cases hno : min (rushTarget c.tlpAvg) n - tally n mask = 0 ∨ limit ≤ tally n mask
    · rw [if_pos hno]
      exact ⟨_, rfl, ⟨_, rfl⟩, fun _ => rfl, fun _ => hle, id⟩
    · rw [if_neg hno]
      have hw : SweepOk n true (fun val _ => val = 0) (upwards n)
          ⟨mask, min (rushTarget c.tlpAvg) n - tally n mask, tally n mask⟩ _ :=
        sweep_ok (fun cpu h => mem_upwards.mp h) rfl
      have hsum := hw.up rfl (fun _ => by simp) (by simp only; omega)
      have hnum := hw.num_eq
      simp only at hsum
      refine ⟨_, rfl, ⟨_, rfl⟩, nofun, fun hfits => ?_, first_of_upwards hw⟩
      have hlow := hfits (by omega) hr
      simp only
      omega
  · simp only
    rw [if_pos hr]
    exact ⟨_, rfl, ⟨_, rfl⟩, fun _ => rfl, fun _ => hle, id⟩

theorem algoSmpUp_ok (hup : HistoryOk maxCpuUpTimes c.upTimes c.up)
    (hsum : c.up.sum + curLoads < 2 ^ 32) (hle : tally n mask ≤ limit) :
    ∃ o, algoSmpUp n c mask curLoads limit (tally n mask) = some o ∧
      (∃ up, o.ctxt = { c with up := up } ∧ HistoryOk maxCpuUpTimes c.upTimes up) ∧
      (o.acted = false → o.mask = mask) ∧ tally n o.mask ≤ limit ∧
      (mask 0 = true → o.mask 0 = true) := by
  rw [algoSmpUp]
  by_cases hfull : n ≤ tally n mask
  · rw [if_pos hfull]
    exact ⟨_, rfl, ⟨c.up, rfl, hup⟩, fun _ => rfl, hle, id⟩
  rw [if_neg hfull]
  obtain ⟨up, hpush, hok⟩ := History.push_ok hup (by decide) hsum
  rw [hpush, bind_eq_bind, bind_some]
  dsimp only
  split_ifs with h₁ h₂ h₃
  · exact ⟨_, rfl, ⟨up, rfl, hok⟩, fun _ => rfl, hle, id⟩
  · exact ⟨_, rfl, ⟨up, rfl, hok⟩, fun _ => rfl, hle, id⟩
  · exact ⟨_, rfl, ⟨up, rfl, hok⟩, fun _ => rfl, hle, id⟩
  · have hw : SweepOk n true (fun _ _ => true) (upwards n) ⟨mask, 0, tally n mask⟩ _ :=
      sweep_ok (fun cpu h => mem_upwards.mp h) rfl
    have hone : (sweep true (fun _ _ => true) (upwards n) ⟨mask, 0, tally n mask⟩).num ≤
        tally n mask + 1 := sweep_once
    refine ⟨_, rfl, ⟨up, rfl, hok⟩, nofun, ?_, first_of_upwards hw⟩
    have := hw.num_eq
    simp only
    omega

theorem algoSmpDown_ok (base : ℕ) (hdown : HistoryOk maxCpuDownTimes c.downTimes c.down)
    (hsum : c.down.sum + curLoads < 2 ^ 32) (hle : tally n mask ≤ limit) :
    ∃ o, algoSmpDown n c mask curLoads base (tally n mask) = some o ∧
      (∃ down, o.ctxt = { c with down := down } ∧ HistoryOk maxCpuDownTimes c.downTimes down) ∧
      tally n o.mask ≤ limit ∧ o.mask 0 = mask 0 := by
  rw [algoSmpDown]
  by_cases hone : tally n mask ≤ 1
  · rw [if_pos hone]
    exact ⟨_, rfl, ⟨c.down, rfl, hdown⟩, hle, rfl⟩
  rw [if_neg hone]
  obtain ⟨down, hpush, hok⟩ := History.push_ok hdown (by decide) hsum
  rw [hpush, bind_eq_bind, bind_some]
  dsimp only
  split_ifs with h₁ h₂
  · exact ⟨_, rfl, ⟨down, rfl, hok⟩, hle, rfl⟩
  · exact ⟨_, rfl, ⟨down, rfl, hok⟩, hle, rfl⟩
  · generalize hv : tally n mask - quickLanding _ _ _ = val at h₂ ⊢
    have hw : SweepOk n false (fun val num => val = 0 ∨ num = base) (downwards n)
        ⟨mask, val, tally n mask⟩ _ := sweep_ok (fun cpu h => (mem_downwards.mp h).2) rfl
    have hkept := hw.down rfl (fun _ => by simp) (by simp only; omega)
    have hval := hw.val_le
    have hnum := hw.num_eq
    simp only at hkept hval
    refine ⟨_, rfl, ⟨down, rfl, hok⟩, by simp only; omega, ?_⟩
    rcases hw.mask_eq 0 with h | ⟨-, h⟩
    · exact h
    · exact absurd (mem_downwards.mp h).1 (by decide)

theorem pushTlp_ok (htlp : HistoryOk maxTlpTimes c.tlpTimes c.tlp)
    (hsum : c.tlp.sum + curTlp < 2 ^ 32) :
    ∃ tlp avg, pushTlp c curTlp = some { c with tlp := tlp, tlpAvg := avg } ∧
      HistoryOk maxTlpTimes c.tlpTimes tlp := by
  obtain ⟨tlp, hpush, hok⟩ := History.push_ok htlp (by decide) hsum
  exact ⟨tlp, _, by rw [pushTlp, hpush]; rfl, hok⟩

end SubAlgorithms

/-! ## Rounds -/

structure BoundsOk (n : ℕ) (c : Ctxt) : Prop where
  base_le : c.littleNumBasePerfServ ≤ n
  limit_pos : ∀ l, 1 ≤ c.littleNumLimit l

structure CtxtOk (n : ℕ) (c : Ctxt) : Prop where
  bounds : BoundsOk n c
  up : HistoryOk maxCpuUpTimes c.upTimes c.up
  down : HistoryOk maxCpuDownTimes c.downTimes c.down
  tlp : HistoryOk maxTlpTimes c.tlpTimes c.tlp

def TimesOk (c : Ctxt) : Prop :=
  (1 ≤ c.upTimes ∧ c.upTimes ≤ maxCpuUpTimes) ∧ (1 ≤ c.downTimes ∧ c.downTimes ≤ maxCpuDownTimes) ∧
    1 ≤ c.tlpTimes ∧ c.tlpTimes ≤ maxTlpTimes

theorem HistoryOk.times_le (h : HistoryOk size times h') : 1 ≤ times ∧ times ≤ size := by
  obtain ⟨_, hf⟩ := h
  exact ⟨hf.pos, hf.le⟩

theorem CtxtOk.timesOk (h : CtxtOk n c) : TimesOk c := ⟨h.up.times_le, h.down.times_le, h.tlp.times_le⟩

theorem Ctxt.resetStasNolock_ok (hb : BoundsOk n c) (ht : TimesOk c) :
    ∃ c', c.resetStasNolock = some c' ∧ CtxtOk n c' ∧ c'.numLimit = c.numLimit := by
  obtain ⟨⟨hup, hup'⟩, ⟨hdown, hdown'⟩, htlp, htlp'⟩ := ht
  obtain ⟨up, hu, huok⟩ := History.reset_ok (h := c.up) hup hup' (by decide)
  obtain ⟨down, hd, hdok⟩ := History.reset_ok (h := c.down) hdown hdown' (by decide)
  obtain ⟨tlp, ht, htok⟩ := History.reset_ok (h := c.tlp) htlp htlp' (by decide)
  refine ⟨{ c with up := up, down := down, rushCount := 0, tlp := tlp }, ?_,
    ⟨⟨hb.base_le, hb.limit_pos⟩, huok, hdok, htok⟩, rfl⟩
  rw [Ctxt.resetStasNolock, hu, hd, ht]
  rfl

structure RoundOk (n : ℕ) (s s' : State) : Prop where
  ctxt : CtxtOk n s'.ctxt
  num_le : tally n s'.online ≤ s'.ctxt.numLimit
  first : s.online 0 = true → s'.online 0 = true

theorem endWithAction_ok {o : Out} (hc : CtxtOk n o.ctxt) (hnum : tally n o.mask ≤ o.ctxt.numLimit)
    (hfirst : s.online 0 = true → o.mask 0 = true) :
    ∃ s', endWithAction o = some s' ∧ RoundOk n s s' := by
  obtain ⟨c', hreset, hok, hlimit⟩ := Ctxt.resetStasNolock_ok hc.bounds hc.timesOk
  refine ⟨⟨c', o.mask⟩, by rw [endWithAction, hreset]; rfl, hok, ?_, hfirst⟩
  rw [hlimit]
  exact hnum

theorem BoundsOk.one_le_numLimit (h : BoundsOk n c) : 1 ≤ c.numLimit :=
  le_min (le_min (h.limit_pos _) (h.limit_pos _)) (le_min (h.limit_pos _) (h.limit_pos _))

/-- The loads of a round, added up as the code does. -/
def curLoads (n : ℕ) (loads : ℕ → ℕ) : ℕ := (∑ cpu ∈ Finset.range n, loads cpu) % 2 ^ 32

/-- What a round needs: the strategy is enabled, no sum of samples wraps around and the rush
boost asks for no more CPUs than allowed. -/
def RoundFits (n : ℕ) (s : State) (loads : ℕ → ℕ) (curTlp : ℕ) : Prop :=
  s.ctxt.enabled ≠ 0 ∧
  s.ctxt.up.sum + curLoads n loads < 2 ^ 32 ∧
  s.ctxt.down.sum + curLoads n loads < 2 ^ 32 ∧
  s.ctxt.tlp.sum + curTlp < 2 ^ 32 ∧
  (s.ctxt.littleNumBasePerfServ ≤ tally n s.online → ∀ c ∈ pushTlp s.ctxt curTlp,
    RushFits n c (curLoads n loads) s.ctxt.numLimit (tally n s.online))

instance (loads : ℕ → ℕ) (curTlp : ℕ) : Decidable (RoundFits n s loads curTlp) :=
  inferInstanceAs (Decidable (_ ∧ _ ∧ _ ∧ _ ∧ _))

theorem act_or_go_on {x : Option Out} {k : Out → Option State} {o : Out} (hx : x = some o)
    (hc : CtxtOk n o.ctxt) (hnum : tally n o.mask ≤ o.ctxt.numLimit)
    (hfirst : s.online 0 = true → o.mask 0 = true)
    (hk : o.acted = false → ∃ s', k o = some s' ∧ RoundOk n s s') :
    ∃ s', (x.bind fun o => if o.acted then endWithAction o else k o) = some s' ∧ RoundOk n s s' := by
  rw [hx, bind_some]
  cases hacted : o.acted with
  | true => exact endWithAction_ok hc hnum hfirst
  | false => exact hk hacted

theorem hpsAlgoSmp_ok {loads : ℕ → ℕ} {curTlp : ℕ} (hn : n ≤ nrCpus) (hc : CtxtOk n s.ctxt)
    (hfits : RoundFits n s loads curTlp) :
    ∃ s', hpsAlgoSmp n s loads curTlp = some s' ∧ RoundOk n s s' := by
  obtain ⟨henabled, hup, hdown, htlp, hrush⟩ := hfits
  rw [hpsAlgoSmp, if_neg henabled]
  obtain ⟨o, heq, hctxt, hsame, hle, hfirst⟩ := algoSmpLimit_ok (n := n) (c := s.ctxt)
    hc.bounds.one_le_numLimit
  refine act_or_go_on heq (hctxt ▸ hc) (hctxt ▸ hle) (fun h => hfirst.trans h) fun hacted => ?_
  rw [hsame hacted] at hle
  rw [hctxt, hsame hacted]
  clear heq hctxt hsame hfirst hacted o
  obtain ⟨o, heq, hctxt, hsame, hle', hfirst⟩ := algoSmpBase_ok (c := s.ctxt) hc.bounds.base_le hle
  refine act_or_go_on heq (hctxt ▸ hc) (hctxt ▸ hle') hfirst fun hacted => ?_
  obtain ⟨hmask, hbase⟩ := hsame hacted
  rw [hctxt, hmask]
  clear heq hctxt hsame hfirst hacted hmask hle' o
  obtain ⟨tlp, avg, hpush, htlpOk⟩ := pushTlp_ok hc.tlp htlp
  change ∃ s', Option.bind _ _ = _ ∧ _
  have hfits : RushFits n { s.ctxt with tlp := tlp, tlpAvg := avg } (curLoads n loads)
      s.ctxt.numLimit (tally n s.online) := by
    rcases hbase with hbase | hlimit
    · exact hrush hbase _ hpush
    · exact fun hlt => absurd hlimit (by omega)
  rw [hpush, Option.bind_some]
  obtain ⟨⟨_, mask, _⟩, heq, ⟨count, rfl⟩, hsame, hle', hfirst⟩ := algoSmpRushBoost_ok hn hle
  refine act_or_go_on heq ⟨⟨hc.bounds.base_le, hc.bounds.limit_pos⟩, hc.up, hc.down, htlpOk⟩
    (hle' hfits) hfirst fun hacted => ?_
  obtain rfl := hsame hacted
  clear heq hsame hfirst hacted hle'
  obtain ⟨⟨_, mask, _⟩, heq, ⟨up, rfl, hupOk⟩, hsame, hle', hfirst⟩ := algoSmpUp_ok
    (c := { s.ctxt with tlp := tlp, tlpAvg := avg, rushCount := count }) hc.up hup hle
  refine act_or_go_on heq ⟨⟨hc.bounds.base_le, hc.bounds.limit_pos⟩, hupOk, hc.down, htlpOk⟩ hle'
    hfirst fun hacted => ?_
  obtain rfl := hsame hacted
  clear heq hsame hfirst hacted hle'
  obtain ⟨⟨_, mask, _⟩, heq, ⟨down, rfl, hdownOk⟩, hle', hfirst⟩ := algoSmpDown_ok
    (c := { s.ctxt with tlp := tlp, tlpAvg := avg, rushCount := count, up := up })
    s.ctxt.littleNumBasePerfServ hc.down hdown hle
  have hok : CtxtOk n
      { s.ctxt with tlp := tlp, tlpAvg := avg, rushCount := count, up := up, down := down } :=
    ⟨⟨hc.bounds.base_le, hc.bounds.limit_pos⟩, hupOk, hdownOk, htlpOk⟩
  exact act_or_go_on heq hok hle' (fun h => hfirst.trans h) fun _ =>
    ⟨_, rfl, hok, hle', fun h => hfirst.trans h⟩

/-! ## Runs -/

/-- A length of a history fits its array, and a round has what it needs. -/
def guard (n : ℕ) (s : State) : Action → Prop
  | .set .upTimes v => 1 ≤ v ∧ v ≤ maxCpuUpTimes
  | .set .downTimes v => 1 ≤ v ∧ v ≤ maxCpuDownTimes
  | .set .tlpTimes v => 1 ≤ v ∧ v ≤ maxTlpTimes
  | .set _ _ => True
  | .setBase _ => True
  | .setLimit _ _ => True
  | .round loads curTlp => RoundFits n s loads curTlp

instance (n : ℕ) (s : State) : ∀ a : Action, Decidable (guard n s a)
  | .set .upTimes v => inferInstanceAs (Decidable (1 ≤ v ∧ v ≤ maxCpuUpTimes))
  | .set .downTimes v => inferInstanceAs (Decidable (1 ≤ v ∧ v ≤ maxCpuDownTimes))
  | .set .tlpTimes v => inferInstanceAs (Decidable (1 ≤ v ∧ v ≤ maxTlpTimes))
  | .set .enabled _ | .set .upThreshold _ | .set .downThreshold _ | .set .rushBoostEnabled _
  | .set .rushBoostThreshold _ | .set .rushBoostTimes _ => instDecidableTrue
  | .setBase _ => instDecidableTrue
  | .setLimit _ _ => instDecidableTrue
  | .round loads curTlp => inferInstanceAs (Decidable (RoundFits n s loads curTlp))

theorem BoundsOk.write (hb : BoundsOk n c) (v : ℕ) (p : Param) : BoundsOk n (c.write v p) := by
  cases p <;> exact ⟨hb.base_le, hb.limit_pos⟩

theorem BoundsOk.setBase {v : ℕ} (hb : BoundsOk n c) (hv : ¬ (n < v ∨ v < 1)) :
    BoundsOk n { c with littleNumBasePerfServ := v } :=
  ⟨Nat.not_lt.mp (not_or.mp hv).1, hb.limit_pos⟩

theorem BoundsOk.setLimit {v : ℕ} (hb : BoundsOk n c) (l : Limit) (hv : ¬ (n < v ∨ v < 1)) :
    BoundsOk n { c with littleNumLimit := Function.update c.littleNumLimit l v } := by
  refine ⟨hb.base_le, fun l' => ?_⟩
  rcases eq_or_ne l' l with rfl | hne
  · simp only [Function.update_self]
    exact Nat.not_lt.mp (not_or.mp hv).2
  · simp only [Function.update_of_ne hne]
    exact hb.limit_pos l'

theorem TimesOk.write {p : Param} {v : ℕ} (ht : TimesOk s.ctxt) (hg : guard n s (.set p v)) :
    TimesOk (s.ctxt.write v p) := by
  cases p with
  | upTimes => exact ⟨hg, ht.2⟩
  | downTimes => exact ⟨ht.1, hg, ht.2.2⟩
  | tlpTimes => exact ⟨ht.1, ht.2.1, hg⟩
  | _ => exact ht

theorem procWrite_ok {p : Param} {v : ℕ} (hc : CtxtOk n s.ctxt) (hg : guard n s (.set p v)) :
    ∃ c, procWrite s.ctxt p v = some c ∧ CtxtOk n c := by
  rw [procWrite]
  by_cases hp : p = .rushBoostEnabled
  · subst hp
    exact ⟨_, rfl, hc.bounds.write v _, hc.up, hc.down, hc.tlp⟩
  · obtain ⟨c, heq, hok, -⟩ := Ctxt.resetStasNolock_ok (hc.bounds.write v p) (hc.timesOk.write hg)
    rw [if_neg hp]
    exact ⟨c, heq, hok⟩

theorem step_ok {a : Action} (hn : n ≤ nrCpus) (hc : CtxtOk n s.ctxt) (hg : guard n s a) :
    ∃ s', step n s a = some s' ∧ CtxtOk n s'.ctxt ∧ (s.online 0 = true → s'.online 0 = true) ∧
      ∀ loads curTlp, a = .round loads curTlp → tally n s'.online ≤ s'.ctxt.numLimit := by
  cases a with
  | set p v =>
    obtain ⟨c, heq, hok⟩ := procWrite_ok hc hg
    refine ⟨{ s with ctxt := c }, ?_, hok, id, nofun⟩
    rw [step, heq]
    rfl
  | setBase v =>
    rw [step]
    by_cases hv : n < v ∨ v < 1
    · rw [if_pos hv]
      exact ⟨s, rfl, hc, id, nofun⟩
    · rw [if_neg hv]
      exact ⟨_, rfl, ⟨hc.bounds.setBase hv, hc.up, hc.down, hc.tlp⟩, id, nofun⟩
  | setLimit l v =>
    rw [step]
    by_cases hv : n < v ∨ v < 1
    · rw [if_pos hv]
      exact ⟨s, rfl, hc, id, nofun⟩
    · rw [if_neg hv]
      exact ⟨_, rfl, ⟨hc.bounds.setLimit l hv, hc.up, hc.down, hc.tlp⟩, id, nofun⟩
  | round loads curTlp =>
    obtain ⟨s', heq, hok⟩ := hpsAlgoSmp_ok hn hc hg
    exact ⟨s', heq, hok.ctxt, hok.first, fun _ _ _ => hok.num_le⟩

theorem History.zero_ok (hpos : 1 ≤ times) (hle : times ≤ size) : HistoryOk size times .zero :=
  ⟨0, hpos, hle, hpos, Nat.zero_le _, fun _ => ⟨rfl, rfl⟩, le_rfl⟩

theorem Ctxt.init_ok (hn : 0 < n) : CtxtOk n (.init n) where
  bounds := ⟨hn, fun _ => hn⟩
  up := History.zero_ok (show 1 ≤ 2 by decide) (show 2 ≤ 10 by decide)
  down := History.zero_ok (show 1 ≤ 20 by decide) (show 20 ≤ 100 by decide)
  tlp := History.zero_ok (show 1 ≤ 1 by decide) (show 1 ≤ 10 by decide)

/-- In every run nothing warns, CPU 0 stays up and every round ends within the limits, as long
as the steps meet the guard. -/
theorem hotplug_of_reach {online : ℕ → Bool} (hn : 0 < n) (hle : n ≤ nrCpus)
    (h : Reach (step n) (guard n) ⟨.init n, online⟩ s) {a : Action} (ha : guard n s a) :
    ∃ s', step n s a = some s' ∧
      (∀ loads curTlp, a = .round loads curTlp → tally n s'.online ≤ s'.ctxt.numLimit) ∧
      (s.online 0 = true → s'.online 0 = true) := by
  have hinv : CtxtOk n s.ctxt := by
    refine h.invariant (P := fun s => CtxtOk n s.ctxt) (Ctxt.init_ok hn) ?_
    intro s s' a hc hg hstep
    obtain ⟨t, heq, hok, -⟩ := step_ok hle hc hg
    rw [hstep, some.injEq] at heq
    exact heq ▸ hok
  obtain ⟨s', heq, -, hfirst, hround⟩ := step_ok hle hinv ha
  exact ⟨s', heq, hround, hfirst⟩

def fourCpus : State := ⟨.init 4, fun cpu => cpu = 0⟩

def rushRun : List Action := [.setLimit .thermal 3, .set .upTimes 3, .round (fun _ => 50) 250]

theorem hotplug_of_rushRun : ∃ s, runGuarded (step 4) (guard 4) fourCpus rushRun = some s ∧
    tally 4 s.online = 3 ∧ s.ctxt.numLimit = 3 ∧
    ∃ s', step 4 s (.round (fun _ => 100) 400) = some s' ∧
      (∀ loads curTlp, Action.round (fun _ => 100) 400 = .round loads curTlp →
        tally 4 s'.online ≤ s'.ctxt.numLimit) ∧ (s.online 0 = true → s'.online 0 = true) := by
  have hrun : (runGuarded (step 4) (guard 4) fourCpus rushRun).map (fun s =>
      (tally 4 s.online, s.ctxt.numLimit, decide (guard 4 s (.round (fun _ => 100) 400)))) =
      some (3, 3, true) := by decide +kernel
  obtain ⟨s, hs, hfacts⟩ := map_eq_some_iff.mp hrun
  simp only [Prod.mk.injEq, decide_eq_true_eq] at hfacts
  exact ⟨s, hs, hfacts.1, hfacts.2.1,
    hotplug_of_reach (by decide) (by decide) (.of_runGuarded rushRun .init hs) hfacts.2.2⟩

theorem rushBoost_exceeds_limit :
    ((step 4 fourCpus (.setLimit .thermal 2)).bind fun s =>
      (step 4 s (.round (fun _ => 100) 400)).map fun s' =>
        (tally 4 s'.online, s'.ctxt.numLimit)) = some (4, 2) := by
  decide +kernel

end Cupcake.Hps
