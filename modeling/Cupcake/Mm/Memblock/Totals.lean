import Cupcake.Mm.Memblock.Find
import Cupcake.Mm.Memblock.Runs

/-! `memblock_enforce_memory_limit` and `memblock_trim_memory`, and what becomes of `total_size` in
runs with them. -/

namespace Cupcake.Mm.Memblock

open Segment List

/-! ## The code -/

variable (nodeMap : Bool)

/-- `max_addr` of `memblock_enforce_memory_limit`. -/
def limitAddr : ℕ → List Region → ℕ
  | _, [] => ullongMax
  | limit, r :: rs => if limit ≤ r.size then wadd 64 r.base limit else limitAddr (limit - r.size) rs

def memblockEnforceMemoryLimit (limit : ℕ) (st : State) : Except Fault State :=
  if limit = 0 then .ok st
  else do
    let maxAddr := limitAddr limit st.memory.regions
    let (st, _) ← memblockRemoveRange nodeMap (doubling nodeMap) .memory maxAddr ullongMax st
    let (st, _) ← memblockRemoveRange nodeMap (doubling nodeMap) .reserved maxAddr ullongMax st
    return st

def whole (align : ℕ) (r : Region) : Bool :=
  roundUp r.base align = r.base ∧ roundDown (rend r) align = rend r

/-- The loop of `memblock_trim_memory` at index `i`. -/
def trimLoop (align : ℕ) : ℕ → ℕ → RegionType → RegionType
  | 0, _, t => t
  | fuel + 1, i, t =>
    match t.regions[i]? with
    | none => t
    | some r =>
      let start := roundUp r.base align
      let stop := roundDown (rend r) align
      if whole align r then trimLoop align fuel (i + 1) t
      else if start < stop then
        trimLoop align fuel (i + 1)
          { t with regions := t.regions.set i ⟨start, stop - start, r.attr⟩ }
      else
        -- `r--`: the next region is at the same index now
        trimLoop align fuel i (memblockRemoveRegion nodeMap t i)

def memblockTrimMemory (align : ℕ) (t : RegionType) : RegionType :=
  trimLoop nodeMap (wsub 64 align 1 + 1) (t.regions.length + 2) 0 t

def memblockPhysMemSize (st : State) : ℕ := st.memory.totalSize

inductive Change
  | call (c : Call)
  | enforceMemoryLimit (limit : Fin (2 ^ 64)) (answers : List ℕ)
  | trimMemory (align : Fin (2 ^ 64))

def change (st : State) : Change → Except Fault State
  | .call c => (call nodeMap st c).map Prod.fst
  | .enforceMemoryLimit limit answers =>
    memblockEnforceMemoryLimit nodeMap limit { st with answers := answers }
  | .trimMemory align => .ok { st with memory := memblockTrimMemory nodeMap align st.memory }

/-! ## Safe changes -/

/-- Besides safe calls: a limit that cuts off the memory of neither array, with room for the cut,
and an alignment for which no region is cut in part. -/
def SafeChange (st : State) : Change → Prop
  | .call c => Safe nodeMap st c
  | .enforceMemoryLimit limit _ => limit.val ≠ 0 →
    st.memory.regions.length + 2 ≤ st.memory.max ∧
    avoids nodeMap (limitAddr limit st.memory.regions) ullongMax st.reserved ∧
    avoids nodeMap (limitAddr limit st.memory.regions) ullongMax st.memory
  | .trimMemory align => ∀ r ∈ st.memory.regions, whole (wsub 64 align 1 + 1) r ∨
      ¬ roundUp r.base (wsub 64 align 1 + 1) < roundDown (rend r) (wsub 64 align 1 + 1)

instance (st : State) (c : Change) : Decidable (SafeChange nodeMap st c) := by
  unfold SafeChange
  split <;> infer_instance

variable {nodeMap} {w : Which} {st : State} {base size : ℕ}

/-! ## Removing ranges -/

theorem limitAddr_ne_zero {limit : ℕ} {rs : List Region} (h : limit ≠ 0)
    (hrs : ∀ r ∈ rs, r.base + r.size ≤ ullongMax) : limitAddr limit rs ≠ 0 := by
  induction rs generalizing limit with
  | nil => exact (by decide : ullongMax ≠ 0)
  | cons r rs ih =>
    rw [limitAddr]
    split_ifs with hle
    · have hr := hrs r mem_cons_self
      have hmax : ullongMax = 2 ^ 64 - 1 := rfl
      rw [wadd_of_lt (by omega)]
      omega
    · exact ih (by omega) fun s hs => hrs s (mem_cons_of_mem _ hs)

theorem RegionsOk.bounded {rs : List Region} (h : RegionsOk rs) {r : Region} (hr : r ∈ rs) :
    r.base + r.size ≤ ullongMax := by
  rcases h with ⟨attr, rfl⟩ | ht
  · rw [mem_singleton.mp hr]
    exact Nat.zero_le _
  · exact (ht.wf.good r hr).2

theorem Inv.enforce {maxAddr : ℕ} (hI : Inv nodeMap st) (hbal : st.Balanced) (hne : maxAddr ≠ 0)
    (hroom : st.memory.regions.length + 2 ≤ st.memory.max)
    (hres : avoids nodeMap maxAddr ullongMax st.reserved = true)
    (hmem : avoids nodeMap maxAddr ullongMax st.memory = true) :
    ∃ st₁ st₂ ret, memblockRemoveRange nodeMap (doubling nodeMap) .memory maxAddr ullongMax st =
        .ok (st₁, 0) ∧
      memblockRemoveRange nodeMap (doubling nodeMap) .reserved maxAddr ullongMax st₁ =
        .ok (st₂, ret) ∧ Inv nodeMap st₂ ∧ st₂.Balanced := by
  obtain ⟨rs, sum, b, heq, hsum, hrem⟩ := memblockRemoveRange_room (w := .memory) nodeMap
    (doubling nodeMap) maxAddr ullongMax (hI.regions .memory) hroom
  have hI₁ : Inv nodeMap
      (st.set .memory { st.memory with regions := rs, totalSize := sum, warned := b }) :=
    hI.set hrem.ok (hrem.length_le.trans (Nat.le_of_succ_le hroom)) (by simp)
  obtain ⟨st₂, ret, heq₂, hI₂, -, hbal₂⟩ :=
    memblockRemoveRange_spec hI₁ (guarded_reserved hne hres) fun _ v x h₁ h₂ => by
      cases v with
      | memory => exact fun hx => not_inArray_of_avoids hmem h₁ h₂ hx
      | reserved => exact fun hx => not_inArray_of_avoids hres h₁ h₂ hx
  exact ⟨_, st₂, ret, heq, heq₂, hI₂, hbal₂ (hbal.set hsum)⟩

/-! ## Trimming -/

theorem whole_dummy {align : ℕ} (h : align ≤ 2 ^ 64) (attr : Attr) :
    whole align ⟨0, 0, attr⟩ = true := by
  have hmask : wsub 64 0 1 ||| (align - 1) = 2 ^ 64 - 1 := by
    have hones : wsub 64 0 1 = 2 ^ 64 - 1 := rfl
    have hor : (align - 1) ||| (2 ^ 64 - 1) = _ := or_low_mask
    rw [Nat.div_eq_of_lt (by omega), Nat.zero_mul, Nat.zero_add] at hor
    rw [hones, Nat.or_comm, hor]
  have hup : roundUp 0 align = 0 := by
    rw [roundUp, hmask]
    rfl
  have hend : rend ⟨0, 0, attr⟩ = 0 := rfl
  rw [whole, hup, hend, roundDown, Nat.zero_and]
  rfl

theorem trimLoop_eq {align fuel : ℕ} (ha : align ≤ 2 ^ 64) (pre post : List Region) (t : RegionType)
    (ht : t.regions = pre ++ post) (hne : t.regions ≠ []) (hpre : ∀ r ∈ pre, whole align r)
    (hpost : ∀ r ∈ post, whole align r ∨ ¬ roundUp r.base align < roundDown (rend r) align)
    (hfuel : post.length + 2 ≤ fuel) (hbal : t.Balanced) (hlt : total t.regions < 2 ^ 64) :
    ∃ sum, trimLoop nodeMap align fuel pre.length t =
      { t with regions := orDummy nodeMap (pre ++ post.filter (whole align)), totalSize := sum } ∧
      sum = total (pre ++ post.filter (whole align)) := by
  induction post generalizing pre t fuel with
  | nil =>
    obtain ⟨fuel, rfl⟩ : ∃ n, fuel = n + 1 := ⟨fuel - 1, by omega⟩
    rw [append_nil] at ht
    refine ⟨t.totalSize, ?_, ?_⟩
    · rw [trimLoop, ht, getElem?_eq_none le_rfl]
      simp only [filter_nil, append_nil]
      rw [orDummy, if_neg (ht ▸ hne), ← ht]
    · rw [hbal.1, ht]
      simp
  | cons r post ih =>
    obtain ⟨fuel, rfl⟩ : ∃ n, fuel = n + 1 := ⟨fuel - 1, by omega⟩
    have hget : t.regions[pre.length]? = some r := by
      rw [ht, getElem?_append_right le_rfl, Nat.sub_self]
      rfl
    rw [length_cons] at hfuel
    rw [trimLoop, hget]
    simp only
    by_cases hr : whole align r = true
    · obtain ⟨sum, heq, hsum⟩ := ih (pre ++ [r]) t (by rw [ht]; simp) hne
        (fun s hs => by
          rcases mem_append.mp hs with hs | hs
          · exact hpre s hs
          · rwa [mem_singleton.mp hs])
        (fun s hs => hpost s (mem_cons_of_mem _ hs)) (Nat.le_of_succ_le_succ hfuel) hbal hlt
      rw [append_assoc, singleton_append] at heq hsum
      rw [length_append, length_singleton] at heq
      rw [if_pos hr, filter_cons_of_pos hr, heq]
      exact ⟨sum, rfl, hsum⟩
    · have hcut := (hpost r mem_cons_self).resolve_left hr
      obtain ⟨hbal', hlt'⟩ := removeRegion_balanced nodeMap hbal hlt pre.length
      have hwarned : (memblockRemoveRegion nodeMap t pre.length).warned = t.warned :=
        hbal'.2.trans hbal.2.symm
      have herase : t.regions.eraseIdx pre.length = pre ++ post := by
        rw [ht, eraseIdx_append_of_length_le le_rfl, Nat.sub_self, eraseIdx_cons_zero]
      have hregions : (memblockRemoveRegion nodeMap t pre.length).regions =
          orDummy nodeMap (pre ++ post) := by
        rw [← herase]
        rfl
      rw [if_neg hr, if_neg hcut, filter_cons_of_neg hr]
      by_cases hnil : pre ++ post = []
      · -- the last region is gone, and the loop goes over the dummy entry
        obtain ⟨rfl, rfl⟩ := append_eq_nil_iff.mp hnil
        obtain ⟨fuel, rfl⟩ : ∃ n, fuel = n + 2 :=
          ⟨fuel - 2, by simp only [length_nil] at hfuel; omega⟩
        have hdummy : (memblockRemoveRegion nodeMap t 0).regions =
            [⟨0, 0, ⟨regionNode nodeMap maxNumnodes, 0⟩⟩] := hregions
        refine ⟨(memblockRemoveRegion nodeMap t 0).totalSize, ?_, ?_⟩
        · rw [length_nil, trimLoop, hdummy, getElem?_cons_zero]
          simp only
          rw [if_pos (whole_dummy ha _), trimLoop, hdummy]
          show memblockRemoveRegion nodeMap t 0 = _
          rw [filter_nil, append_nil, orDummy, if_pos rfl, ← hdummy, ← hwarned]
          rfl
        · exact hbal'.1.trans (by rw [hregions]; rfl)
      · rw [orDummy, if_neg hnil] at hregions
        obtain ⟨sum, heq, hsum⟩ := ih pre (memblockRemoveRegion nodeMap t pre.length) hregions
          (hregions ▸ hnil) hpre (fun s hs => hpost s (mem_cons_of_mem _ hs))
          (Nat.le_of_succ_le_succ hfuel) hbal' hlt'
        rw [heq, hwarned]
        exact ⟨sum, rfl, hsum⟩

theorem RegionsOk.filter {rs : List Region} {keep : Region → Bool} (h : RegionsOk rs)
    (hkeep : ∀ attr, keep ⟨0, 0, attr⟩ = true) : RegionsOk (orDummy nodeMap (rs.filter keep)) := by
  unfold orDummy
  split_ifs with hnil
  · exact .inl ⟨_, rfl⟩
  · rcases h with ⟨attr, rfl⟩ | ht
    · exact .inl ⟨attr, filter_cons_of_pos (hkeep attr)⟩
    · exact .inr ⟨hnil, ht.wf.sublist filter_sublist, ht.apart.sublist filter_sublist⟩

theorem length_orDummy (rs : List Region) : (orDummy nodeMap rs).length ≤ max rs.length 1 := by
  unfold orDummy
  split_ifs
  · exact le_max_right ..
  · exact le_max_left ..

theorem Inv.trim (hI : Inv nodeMap st) (hbal : st.Balanced) {align : Fin (2 ^ 64)}
    (hsafe : SafeChange nodeMap st (.trimMemory align)) :
    ∃ st', change nodeMap st (.trimMemory align) = .ok st' ∧ Inv nodeMap st' ∧ st'.Balanced := by
  have hok := hI.regions .memory
  have hroom : st.memory.regions.length ≤ st.memory.max := hI.room .memory
  have hlarge : 128 ≤ st.memory.max := hI.large .memory
  have ha : wsub 64 align.val 1 + 1 ≤ 2 ^ 64 := Nat.mod_lt _ (Nat.two_pow_pos 64)
  have hne : st.memory.regions ≠ [] := by
    rcases hok with hd | ht
    · exact hd.ne_nil
    · exact ht.ne
  obtain ⟨sum, heq, hsum⟩ := trimLoop_eq ha [] st.memory.regions st.memory rfl hne
    (by simp) hsafe le_rfl (hbal .memory) hok.total_lt
  have htrim : memblockTrimMemory nodeMap align.val st.memory = _ := heq
  refine ⟨_, rfl, ?_, ?_⟩
  · rw [htrim]
    refine hI.set (w := .memory) (hok.filter fun attr => whole_dummy ha attr) ?_ (by simp)
    have hlen := length_filter_le (whole (wsub 64 align.val 1 + 1)) st.memory.regions
    exact (length_orDummy _).trans (max_le (hlen.trans hroom) (by simp only [State.get]; omega))
  · rw [htrim]
    exact hbal.set (w := .memory) fun h => ⟨by rw [hsum, total_orDummy], h.2⟩

/-! ## Runs -/

theorem Inv.change (hI : Inv nodeMap st) (hbal : st.Balanced) {c : Change}
    (hc : SafeChange nodeMap st c) :
    ∃ st', Memblock.change nodeMap st c = .ok st' ∧ Inv nodeMap st' ∧ st'.Balanced := by
  cases c with
  | call c =>
    obtain ⟨st', ret, heq, hI', -, hbal'⟩ := hI.call hc
    refine ⟨st', ?_, hI', hbal' (hbal.congr rfl rfl)⟩
    rw [Memblock.change, heq]
    rfl
  | enforceMemoryLimit limit answers =>
    have hI₁ : Inv nodeMap { st with answers := answers } := hI.congr rfl rfl
    have hbal₁ : State.Balanced { st with answers := answers } := hbal.congr rfl rfl
    by_cases h0 : limit.val = 0
    · exact ⟨_, if_pos h0, hI₁, hbal₁⟩
    · obtain ⟨hroom, hres, hmem⟩ := hc h0
      have hne : limitAddr limit.val st.memory.regions ≠ 0 :=
        limitAddr_ne_zero h0 fun r hr => (hI.regions .memory).bounded hr
      obtain ⟨st₁, st₂, ret, heq₁, heq₂, hI₂, hbal₂⟩ := hI₁.enforce hbal₁ hne hroom hres hmem
      refine ⟨st₂, ?_, hI₂, hbal₂⟩
      rw [Memblock.change, memblockEnforceMemoryLimit, if_neg h0]
      simp only [heq₁, ok_bind, heq₂]
      rfl
  | trimMemory align => exact hI.trim hbal hc

def changeStep (nodeMap : Bool) (st : State) (c : Change) : Option State :=
  (Memblock.change nodeMap st c).toOption

/-- In a run of safe changes `total_size` is right in every state, and no `WARN_ON` of
`memblock_remove_region` has fired, whether the call, a doubling or a trim removed the region. -/
theorem balanced_of_reach (nodeMap : Bool) (st : State)
    (h : Reach (changeStep nodeMap) (SafeChange nodeMap) init st) :
    (∀ w, (st.get w).totalSize = total (st.get w).regions ∧ (st.get w).warned = false) ∧
    memblockPhysMemSize st = total st.memory.regions ∧
    ∀ c, SafeChange nodeMap st c →
      ∃ st', change nodeMap st c = .ok st' ∧ ∀ w, (st'.get w).warned = false := by
  obtain ⟨hI, hbal⟩ : Inv nodeMap st ∧ st.Balanced := by
    have hinit : init.Balanced := fun w => by cases w <;> exact ⟨rfl, rfl⟩
    refine h.invariant (P := fun st => Inv nodeMap st ∧ st.Balanced) ⟨inv_init, hinit⟩
      fun s s' c hs hc hstep => ?_
    obtain ⟨st', heq, hI', hbal'⟩ := hs.1.change hs.2 hc
    rw [changeStep, heq] at hstep
    exact Option.some.inj hstep ▸ ⟨hI', hbal'⟩
  refine ⟨hbal, (hbal .memory).1, fun c hc => ?_⟩
  obtain ⟨st', heq, -, hbal'⟩ := hI.change hbal hc
  exact ⟨st', heq, fun w => (hbal' w).2⟩

def trimmed : List Change :=
  [.call ⟨.add (word (2 ^ 30)) (word (2 ^ 20)) 0 0, []⟩,
    .call ⟨.add (word (2 ^ 30 + 2 ^ 20)) (word 1) 1 0, []⟩, .trimMemory (word 4096),
    .enforceMemoryLimit (word (2 ^ 19)) []]

theorem balanced_trimmed :
    ∃ st, runGuarded (changeStep true) (SafeChange true) init trimmed = some st ∧
      st.memory.regions.map Segment.size = [2 ^ 19] ∧ memblockPhysMemSize st = 2 ^ 19 ∧
      st.memory.warned = false := by
  have hrun : ((runGuarded (changeStep true) (SafeChange true) init trimmed).map fun st =>
      st.memory.regions.map Segment.size) = some [2 ^ 19] := by
    decide +kernel
  obtain ⟨st, hst, hregions⟩ := Option.map_eq_some_iff.mp hrun
  obtain ⟨hbal, hphys, -⟩ := balanced_of_reach true st (.of_runGuarded trimmed .init hst)
  refine ⟨st, hst, hregions, ?_, (hbal .memory).2⟩
  rw [hphys, total, hregions]
  rfl

def cutRegion : List Change :=
  [.call ⟨.add (word 4096) (word 6144) 0 0, []⟩, .trimMemory (word 4096)]

theorem trim_unbalanced :
    (runList (changeStep false) init cutRegion).map (fun st =>
      (st.memory.regions.map Segment.size, memblockPhysMemSize st)) = some ([4096], 6144) ∧
    (runList (changeStep false) init
      (cutRegion ++ [.call ⟨.remove (word 4096) (word 4096), []⟩])).map (·.memory.warned) =
        some true := by
  decide +kernel

end Cupcake.Mm.Memblock
