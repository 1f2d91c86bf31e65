import Cupcake.Lib.Except
import Cupcake.Mm.Memblock.Defs

/-! The loops over one region array compute the operations on segment lists: adding fills
gaps, merging joins neighbours, isolating cuts at both ends of the range. -/

namespace Cupcake.Mm.Memblock

open Segment

variable {max base stop cnt fuel i : ℕ} {attr : Attr} {r : Region} {rs : List Region}

theorem rend_eq (h : r.base + r.size ≤ ullongMax) : rend r = r.base + r.size :=
  wadd_of_lt (lt_of_le_of_lt h (by decide))

theorem memblockInsertRegion_eq (h : cnt < max) (size : ℕ) :
    memblockInsertRegion max cnt base size attr rs = .ok (⟨base, size, attr⟩ :: rs) :=
  if_neg (not_le.mpr h)

/-! ## Adding -/

theorem addPass_count (hw : Wf ullongMax rs) :
    addPass max false attr stop base cnt rs = .ok (rs, gaps stop base rs) := by
  induction rs generalizing base with
  | nil =>
    simp only [addPass, addRest, gaps, Bool.false_eq_true, if_false]
    split_ifs <;> rfl
  | cons r rs ih =>
    rw [wf_cons] at hw
    simp only [addPass, addRest, gaps, rend_eq hw.1.2, ih hw.2.2, ok_bind, pure_eq_ok,
      Bool.false_eq_true, if_false, ge_iff_le, gt_iff_lt]
    split_ifs <;> rfl

theorem addPass_insert (hw : Wf ullongMax rs) (h : cnt + gaps stop base rs ≤ max) :
    addPass max true attr stop base cnt rs = .ok (fill attr stop base rs, gaps stop base rs) := by
  induction rs generalizing base cnt with
  | nil =>
    rw [gaps] at h
    rw [addPass, addRest, gaps, fill]
    by_cases hb : base < stop
    · rw [if_pos hb] at h
      rw [if_pos hb, if_pos hb, if_pos hb, if_pos rfl, memblockInsertRegion_eq (by omega)]
      rfl
    · rw [if_neg hb, if_neg hb, if_neg hb]
  | cons r rs ih =>
    rw [wf_cons] at hw
    rw [gaps] at h
    rw [addPass, gaps, fill, rend_eq hw.1.2]
    by_cases h₁ : stop ≤ r.base
    · rw [if_pos h₁] at h
      rw [if_pos h₁, if_pos h₁, if_pos h₁, addRest]
      by_cases hb : base < stop
      · rw [if_pos hb] at h
        rw [if_pos hb, if_pos hb, if_pos hb, if_pos rfl, memblockInsertRegion_eq (by omega)]
        rfl
      · rw [if_neg hb, if_neg hb, if_neg hb]
    · rw [if_neg h₁] at h
      rw [if_neg h₁, if_neg h₁, if_neg h₁]
      by_cases h₂ : r.base + r.size ≤ base
      · rw [if_pos h₂] at h
        rw [if_pos h₂, if_pos h₂, if_pos h₂, ih hw.2.2 h]
        rfl
      · rw [if_neg h₂] at h
        rw [if_neg h₂, if_neg h₂, if_neg h₂]
        by_cases h₃ : base < r.base
        · rw [if_pos h₃] at h
          rw [if_pos h₃, if_pos h₃, if_pos h₃, if_pos rfl, memblockInsertRegion_eq (by omega),
            ok_bind, ih hw.2.2 (by omega)]
          rfl
        · rw [if_neg h₃] at h
          rw [if_neg h₃, if_neg h₃, if_neg h₃, ih hw.2.2 h]
          rfl

theorem mergeFrom_eq (hw : Wf ullongMax (r :: rs)) : mergeFrom r rs = .ok (merge r rs) := by
  induction rs generalizing r with
  | nil => rfl
  | cons next rs ih =>
    have hw' := wf_cons.mp hw
    have hnext := hw'.2.1 next (by simp)
    have hle := (wf_cons.mp hw'.2.2).1.2
    rw [mergeFrom, merge, rend_eq hw'.1.2]
    by_cases h : r.base + r.size = next.base ∧ r.attr = next.attr
    · rw [if_neg (by rw [h.1, h.2]; simp), if_pos h,
        wadd_of_lt (lt_of_le_of_lt (b := ullongMax) (by omega) (by decide))]
      exact ih (wf_join hw h.1)
    · rw [if_pos ?_, if_neg (not_lt.mpr hnext), if_neg h, ih hw'.2.2]
      · rfl
      · by_contra hc
        push Not at hc
        refine h ⟨hc.1, ?_⟩
        cases hr : r.attr
        cases hn : next.attr
        rw [hr, hn] at hc
        simp_all

/-! ## Isolating -/

theorem isolateLoop_of_le (hb : ∀ r ∈ rs, stop ≤ r.base) (se : ℕ × ℕ) (hf : 0 < fuel) :
    isolateLoop max base stop fuel i cnt se rs = .ok (rs, se) := by
  obtain ⟨fuel, rfl⟩ := Nat.exists_eq_add_of_lt hf
  cases rs with
  | nil => rw [isolateLoop]
  | cons r rs =>
    rw [Nat.zero_add, isolateLoop, if_pos (hb r (by simp))]

/-- `start_rgn` and `end_rgn` after `low` more regions below the range and `mid` inside. -/
def recorded (i : ℕ) (se : ℕ × ℕ) (low mid : ℕ) : ℕ × ℕ :=
  if mid = 0 then se else (if se.2 = 0 then i + low else se.1, i + low + mid)

theorem recorded_record (i : ℕ) (se : ℕ × ℕ) (mid : ℕ) :
    recorded (i + 1) (if se.2 = 0 then i else se.1, i + 1) 0 mid = recorded i se 0 (mid + 1) := by
  unfold recorded
  split_ifs <;> first | omega | simp_all <;> omega

theorem isolateLoop_from (hw : Wf ullongMax rs) (hb : base < stop) (h : ∀ r ∈ rs, base ≤ r.base)
    (se : ℕ × ℕ) (hf : 2 * rs.length < fuel)
    (hroom : cnt + ((below stop rs).length + (above stop rs).length) ≤ max + rs.length) :
    isolateLoop max base stop fuel i cnt se rs =
      .ok (below stop rs ++ above stop rs, recorded i se 0 (below stop rs).length) := by
  induction rs generalizing fuel i cnt se with
  | nil => exact isolateLoop_of_le (by simp) se (by omega)
  | cons r rs ih =>
    have hw' := wf_cons.mp hw
    obtain ⟨hr, hlt, hrs⟩ := hw'
    have hbase := h r (by simp)
    by_cases h₁ : stop ≤ r.base
    · have hall : ∀ s ∈ r :: rs, stop ≤ s.base := by
        intro s hs
        rcases List.mem_cons.mp hs with rfl | hs
        · exact h₁
        · have := hlt s hs
          omega
      rw [below_of_le hall, above_of_le hw hall]
      exact isolateLoop_of_le hall se (by omega)
    · obtain ⟨fuel, rfl⟩ : ∃ n, fuel = n + 1 := ⟨fuel - 1, by omega⟩
      simp only [List.length_cons] at hf
      rw [isolateLoop, if_neg h₁, rend_eq hr.2, if_neg (by omega), if_neg (by omega)]
      by_cases h₂ : stop < r.base + r.size
      · -- the lower half is recorded, and the loop stops at the upper half
        have hall : ∀ s ∈ rs, stop ≤ s.base := fun s hs => by have := hlt s hs; omega
        obtain ⟨fuel, rfl⟩ : ∃ n, fuel = n + 1 := ⟨fuel - 1, by omega⟩
        rw [below_cons_of_lt (by omega), below_of_le hall, above_cons_of_lt h₂,
          above_of_le hrs hall] at hroom ⊢
        simp only [List.length_cons, List.length_nil] at hroom
        rw [if_pos h₂, memblockInsertRegion_eq (by omega), ok_bind, isolateLoop, if_neg h₁,
          rend_eq (by show r.base + (stop - r.base) ≤ _; omega)]
        simp only
        rw [if_neg (by omega), if_neg (by omega), if_neg (by omega), isolateLoop_of_le ?_ _ (by omega)]
        · simp only [ok_bind, pure_eq_ok, List.cons_append, List.nil_append, List.length_singleton,
            recorded, one_ne_zero, if_false, Nat.add_zero, Except.ok.injEq, Prod.mk.injEq,
            List.cons.injEq, Segment.mk.injEq, and_true, true_and]
          omega
        · intro s hs
          rcases List.mem_cons.mp hs with rfl | hs
          · exact le_rfl
          · exact hall s hs
      · rw [below_cons_of_le (by omega) hr.1, above_cons_of_le (by omega)] at hroom ⊢
        simp only [List.length_cons] at hroom
        rw [if_neg h₂, ih hrs (fun s hs => h s (by simp [hs])) _ (by omega) (by omega), ok_bind,
          recorded_record]
        rfl

theorem isolateLoop_eq (hw : Wf ullongMax rs) (hb : base < stop) (hf : 3 * rs.length < fuel)
    (hroom : cnt + 2 ≤ max) :
    isolateLoop max base stop fuel i cnt (0, 0) rs =
      .ok (below base rs ++ (inside base stop rs ++ above stop rs),
        recorded i (0, 0) (below base rs).length (inside base stop rs).length) := by
  induction rs generalizing fuel i with
  | nil => exact isolateLoop_of_le (by simp) _ (by omega)
  | cons r rs ih =>
    have hw' := wf_cons.mp hw
    obtain ⟨hr, hlt, hrs⟩ := hw'
    obtain ⟨fuel, rfl⟩ : ∃ n, fuel = n + 1 := ⟨fuel - 1, by omega⟩
    simp only [List.length_cons] at hf
    by_cases h₁ : base ≤ r.base
    · have hall : ∀ s ∈ r :: rs, base ≤ s.base := by
        intro s hs
        rcases List.mem_cons.mp hs with rfl | hs
        · exact h₁
        · have := hlt s hs
          omega
      have hcut := length_cut hw (le_refl stop)
      rw [below_of_le hall, inside_of_le hw hall]
      refine isolateLoop_from hw hb hall _ ?_ (by omega)
      simp only [List.length_cons]
      omega
    · rw [isolateLoop, if_neg (by omega), rend_eq hr.2]
      by_cases h₂ : r.base + r.size ≤ base
      · rw [if_pos h₂, ih hrs (by omega), ok_bind, below_cons_of_le h₂ hr.1,
          inside_cons_of_le h₂ hb.le hr.1, above_cons_of_le (by omega)]
        simp only [pure_eq_ok, List.cons_append, recorded, List.length_cons, if_true,
          Except.ok.injEq, Prod.mk.injEq, true_and]
        split_ifs
        · rfl
        · simp only [Prod.mk.injEq]
          omega
      · -- the upper half is the first region of the range
        have hall : ∀ s ∈ rs, base ≤ s.base := fun s hs => by have := hlt s hs; omega
        have h₂ := not_le.mp h₂
        have h₁ := not_le.mp h₁
        have hwtop := wf_across hw h₁ h₂
        have hcut := length_cut hwtop (le_refl stop)
        rw [if_neg (not_le.mpr h₂), if_pos h₁, memblockInsertRegion_eq (by omega), ok_bind,
          isolateLoop_from hwtop hb (fun s hs => ?_) _ ?_ (by omega), ok_bind,
          inside_across hw h₁ h₂ hb, above_across h₁ h₂ hb, below_across hw h₁ h₂]
        · simp only [pure_eq_ok, recorded, List.length_singleton, if_true, Nat.add_zero]
        · simp only [List.length_cons]
          omega
        · rcases List.mem_cons.mp hs with rfl | hs
          · exact le_rfl
          · exact hall s hs

/-! ## Removing -/

theorem eraseIdx_append {α : Type} (pre mid post : List α) (m : α) :
    (pre ++ (mid ++ [m] ++ post)).eraseIdx (pre.length + mid.length) = pre ++ (mid ++ post) := by
  rw [List.append_assoc mid, ← List.append_assoc pre, ← List.length_append,
    List.eraseIdx_append_of_length_le le_rfl, Nat.sub_self, List.singleton_append,
    List.eraseIdx_cons_zero, List.append_assoc]

def orDummy (nodeMap : Bool) (rs : List Region) : List Region :=
  if rs = [] then [⟨0, 0, ⟨regionNode nodeMap maxNumnodes, 0⟩⟩] else rs

theorem foldl_removeRegion (nodeMap : Bool) (pre mid post : List Region) (t : RegionType)
    (ht : t.regions = pre ++ (mid ++ post)) (h : mid ≠ []) :
    ∃ sum b, (List.range' pre.length mid.length).reverse.foldl (memblockRemoveRegion nodeMap) t =
      { t with regions := orDummy nodeMap (pre ++ post), totalSize := sum, warned := b } := by
  induction mid using List.reverseRecOn generalizing t with
  | nil => exact absurd rfl h
  | append_singleton mid m ih =>
    rw [List.length_append, List.length_singleton, List.range'_concat, List.reverse_append,
      List.reverse_singleton, List.singleton_append, List.foldl_cons, one_mul]
    have hrm : ∃ sum b, memblockRemoveRegion nodeMap t (pre.length + mid.length) =
        { t with
          regions := orDummy nodeMap (pre ++ (mid ++ post)), totalSize := sum, warned := b } :=
      ⟨_, _, by rw [memblockRemoveRegion, ht, eraseIdx_append]; rfl⟩
    obtain ⟨sum, b, hrm⟩ := hrm
    rw [hrm]
    by_cases hm : mid = []
    · subst hm
      exact ⟨sum, b, rfl⟩
    · exact ih { t with
        regions := orDummy nodeMap (pre ++ (mid ++ post)), totalSize := sum, warned := b }
        (if_neg (by simp [hm])) hm

/-! ## Totals -/

def RegionType.Balanced (t : RegionType) : Prop :=
  t.totalSize = total t.regions ∧ t.warned = false

theorem total_orDummy (nodeMap : Bool) (rs : List Region) :
    total (orDummy nodeMap rs) = total rs := by
  unfold orDummy
  split_ifs with h
  · rw [h]
    rfl
  · rfl

theorem removeRegion_balanced (nodeMap : Bool) {t : RegionType} (h : t.Balanced)
    (hlt : total t.regions < 2 ^ 64) (i : ℕ) :
    (memblockRemoveRegion nodeMap t i).Balanced ∧
      total (memblockRemoveRegion nodeMap t i).regions < 2 ^ 64 := by
  have herase := total_eraseIdx t.regions i
  have hsum : wsub 64 t.totalSize ((t.regions.map Segment.size).getD i 0) =
      total (t.regions.eraseIdx i) := by
    rw [h.1, wsub_of_le (by omega) hlt]
    omega
  have hregions : total (memblockRemoveRegion nodeMap t i).regions =
      total (t.regions.eraseIdx i) := total_orDummy nodeMap _
  refine ⟨⟨hsum.trans hregions.symm, ?_⟩, by omega⟩
  rw [memblockRemoveRegion]
  simp only [hsum, h.2, Bool.false_or, decide_eq_false_iff_not, not_and, not_not]
  exact fun hnil => by rw [hnil]; rfl

theorem foldl_balanced (nodeMap : Bool) {t : RegionType} (h : t.Balanced)
    (hlt : total t.regions < 2 ^ 64) (is : List ℕ) :
    (is.foldl (memblockRemoveRegion nodeMap) t).Balanced := by
  induction is generalizing t with
  | nil => exact h
  | cons i is ih =>
    obtain ⟨hbal, hlt'⟩ := removeRegion_balanced nodeMap h hlt i
    exact ih hbal hlt'

/-! ## Flagging -/

theorem mapIdx_mid {α : Type} (g : α → α) (pre mid post : List α) :
    (pre ++ (mid ++ post)).mapIdx (fun i r =>
      if pre.length ≤ i ∧ i < pre.length + mid.length then g r else r) =
      pre ++ (mid.map g ++ post) := by
  refine List.ext_getElem (by simp) fun i h₁ h₂ => ?_
  rw [List.getElem_mapIdx]
  simp only [List.getElem_append, List.length_map, List.getElem_map]
  split_ifs <;> first | rfl | omega

end Cupcake.Mm.Memblock
