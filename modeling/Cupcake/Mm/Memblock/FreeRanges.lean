import Cupcake.Mm.Memblock.Cursor

/-! The two iterations give the free parts of the wanted regions, unless two regions of the other
array touch inside of a wanted one. -/

namespace Cupcake.Mm.Memblock

open List Segment

variable {q : Query} {a b : List Region} {m : Region} {j : ℕ}

def Covered (b : List Region) (x : ℕ) : Prop := ∃ r ∈ b, r.base ≤ x ∧ x < r.base + r.size

def FreeBetween (b : List Region) (s t : ℕ) : Prop := ∀ x, s ≤ x → x < t → ¬ Covered b x

structure Free (m : Region) (b : List Region) (o : MemRange) : Prop where
  nid : o.nid = m.attr.nid
  lt : o.start < o.stop
  base_le : m.base ≤ o.start
  le_end : o.stop ≤ m.base + m.size
  free : FreeBetween b o.start o.stop
  maximal : ∀ s t, m.base ≤ s → s ≤ o.start → o.stop ≤ t → t ≤ m.base + m.size →
    FreeBetween b s t → s = o.start ∧ t = o.stop

/-- The free ranges of the wanted regions, in increasing order. -/
structure FreeRanges (q : Query) (a b : List Region) (L : List MemRange) : Prop where
  mem : ∀ o, o ∈ L ↔ ∃ m ∈ a, skips q m = false ∧ Free m b o
  sorted : L.Pairwise fun o o' => o.stop ≤ o'.start

/-- No two regions of `b` touch inside of a wanted region. -/
def NoTouch (q : Query) (a b : List Region) : Prop :=
  ∀ m ∈ a, skips q m = false → ∀ r ∈ b, ∀ r' ∈ b, r.base + r.size = r'.base →
    ¬ (m.base < r'.base ∧ r'.base < m.base + m.size)

/-- A well-formed array that the cursors can index. -/
structure ArrayOk (rs : List Region) : Prop where
  ok : RegionsOk rs
  short : rs.length < 2 ^ 31

theorem RegionsOk.base_lt_rend (h : RegionsOk a) (hm : m ∈ a) (hpos : 0 < rend m) :
    m.base < rend m := by
  rw [h.ordered.rend_eq hm] at hpos ⊢
  obtain ⟨attr, rfl⟩ | h := h
  · obtain rfl := mem_singleton.mp hm
    exact hpos
  · exact Nat.lt_add_of_pos_right (h.wf.good m hm).1

theorem RegionsOk.size_pos (h : RegionsOk b) (hm : m ∈ b) (hpos : 0 < m.base + m.size) :
    0 < m.size := by
  have := h.base_lt_rend hm (by rwa [h.ordered.rend_eq hm])
  rw [h.ordered.rend_eq hm] at this
  omega

namespace Ordered

variable (h : Ordered b)

include h

theorem freeBetween_area (hj : j ≤ b.length) : FreeBetween b (rStart b j) (rEnd b j) := by
  rintro x hs ht ⟨r, hr, hbase, hend⟩
  obtain ⟨k, hk, rfl⟩ := getElem_of_mem hr
  have hr' : b[k]? = some b[k] := getElem?_eq_getElem hk
  obtain hkj | hjk := lt_or_ge k j
  · -- the region ends before the area
    have := h.rStart_mono hkj hj
    rw [h.rStart_succ hr'] at this
    omega
  · have := h.rEnd_mono hjk hk.le
    rw [rEnd_of_getElem? hr'] at this
    omega

theorem exists_area {x : ℕ} (hx : ¬ Covered b x) (hmax : x < ullongMax) :
    ∃ j ≤ b.length, rStart b j ≤ x ∧ x < rEnd b j := by
  -- the last area that starts by `x`
  obtain ⟨j, hj, hstart, hlast⟩ : ∃ j ≤ b.length, rStart b j ≤ x ∧
      ∀ k, j < k → k ≤ b.length → x < rStart b k := by
    refine ⟨Nat.findGreatest (fun j => rStart b j ≤ x) b.length, Nat.findGreatest_le _,
      Nat.findGreatest_spec (P := fun j => rStart b j ≤ x) (Nat.zero_le _) (Nat.zero_le _), ?_⟩
    intro k hk hkl
    exact not_le.mp (Nat.findGreatest_is_greatest (P := fun j => rStart b j ≤ x) hk hkl)
  refine ⟨j, hj, hstart, ?_⟩
  cases hr : b[j]? with
  | none =>
    rw [rEnd, hr]
    exact hmax
  | some r =>
    by_contra hle
    have hlt := hlast (j + 1) (Nat.lt_succ_self j) (List.getElem?_eq_some_iff.mp hr).1
    rw [h.rStart_succ hr] at hlt
    rw [rEnd_of_getElem? hr] at hle
    exact hx ⟨r, mem_of_getElem? hr, not_lt.mp hle, hlt⟩

end Ordered

theorem mem_ahead {o : MemRange} : o ∈ ahead q a b 0 0 ↔
    ∃ m ∈ a, skips q m = false ∧ ∃ j ≤ b.length, meet m (rStart b j, rEnd b j) = some o := by
  simp only [ahead, mem_pairs, drop_zero, mem_filter, Bool.not_eq_true', areas,
    mem_map, mem_range, Nat.lt_succ_iff]
  constructor
  · rintro ⟨m, ⟨hm, hs⟩, g, ⟨j, hj, rfl⟩, ho⟩
    exact ⟨m, hm, hs, j, hj, ho⟩
  · rintro ⟨m, hm, hs, j, hj, ho⟩
    exact ⟨m, ⟨hm, hs⟩, _, ⟨j, hj, rfl⟩, ho⟩

theorem meet_eq_some' {g : ℕ × ℕ} {o : MemRange} : meet m g = some o ↔
    (g.1 < rend m ∧ m.base < g.2) ∧ ⟨max m.base g.1, min (rend m) g.2, m.attr.nid⟩ = o := by
  unfold meet
  split_ifs with h
  · simp [h]
  · simp [h]

theorem meet_eq_some {o : MemRange} : meet m (rStart b j, rEnd b j) = some o ↔
    rStart b j < rend m ∧ m.base < rEnd b j ∧ rangeIn b m j = o := by
  rw [meet_eq_some', and_assoc]
  rfl

theorem free_rangeIn (ha : RegionsOk a) (hb : RegionsOk b) (hm : m ∈ a) (hj : j ≤ b.length)
    (h : rStart b j < rend m) (h' : m.base < rEnd b j) (hlt : rStart b j < rEnd b j) :
    Free m b (rangeIn b m j) := by
  have hmlt := ha.base_lt_rend hm (Nat.zero_lt_of_lt h)
  have hrend := ha.ordered.rend_eq hm
  refine ⟨rfl, max_lt (lt_min hmlt h') (lt_min h hlt), le_max_left .., ?_, ?_, ?_⟩
  · exact hrend ▸ min_le_left ..
  · intro x hs ht
    exact hb.ordered.freeBetween_area hj x ((le_max_right ..).trans hs)
      (ht.trans_le (min_le_right ..))
  · intro s t hs hs' ht' ht hfree
    simp only [rangeIn] at hs' ht' ⊢
    rw [← hrend] at ht
    constructor
    · -- else the byte below the area, of region `j - 1`, is free
      by_contra hne
      have hlow : m.base < rStart b j ∧ s < rStart b j := by omega
      cases j with
      | zero => exact absurd hlow.1 (Nat.not_lt_zero _)
      | succ j =>
        have hr : b[j]? = some b[j] := getElem?_eq_getElem hj
        rw [hb.ordered.rStart_succ hr] at hlow h hlt hs'
        have hpos := hb.size_pos (mem_of_getElem? hr) (by omega)
        exact hfree (b[j].base + b[j].size - 1) (by omega) (by omega)
          ⟨b[j], mem_of_getElem? hr, by omega, by omega⟩
    · -- else the first byte above the area, of region `j`, is free
      by_contra hne
      have hhigh : rEnd b j < rend m ∧ rEnd b j < t := by omega
      have hjlt : j < b.length := by
        apply lt_of_le_of_ne hj
        rintro rfl
        have := ha.ordered.top m hm
        rw [rEnd_length, hrend] at hhigh
        omega
      have hr : b[j]? = some b[j] := getElem?_eq_getElem hjlt
      rw [rEnd_of_getElem? hr] at hhigh hlt ht' h'
      have hpos := hb.size_pos (mem_of_getElem? hr) (by omega)
      exact hfree b[j].base (by omega) (by omega) ⟨b[j], mem_of_getElem? hr, le_rfl, by omega⟩

theorem RegionsOk.le_rEnd (hb : RegionsOk b) (hj : j ≤ b.length) {s t : ℕ} (hs : s < rEnd b j)
    (hfree : FreeBetween b s t) (ht : t ≤ ullongMax) : t ≤ rEnd b j := by
  by_contra hgt
  have hjlt : j < b.length := by
    apply lt_of_le_of_ne hj
    rintro rfl
    rw [rEnd_length] at hgt
    omega
  have hr : b[j]? = some b[j] := getElem?_eq_getElem hjlt
  rw [rEnd_of_getElem? hr] at hs hgt
  have hpos := hb.size_pos (mem_of_getElem? hr) (by omega)
  exact hfree b[j].base hs.le (by omega) ⟨b[j], mem_of_getElem? hr, le_rfl, by omega⟩

theorem Free.exists_area (ha : RegionsOk a) (hb : RegionsOk b) (hm : m ∈ a) {o : MemRange}
    (h : Free m b o) :
    ∃ j ≤ b.length, rStart b j < rend m ∧ m.base < rEnd b j ∧ rangeIn b m j = o := by
  have hrend := ha.ordered.rend_eq hm
  have htop := ha.ordered.top m hm
  have hlt := h.lt
  have hle := h.le_end
  have hbase := h.base_le
  obtain ⟨j, hj, hs, ht⟩ := hb.ordered.exists_area (h.free o.start le_rfl hlt) (by omega)
  have hstop := hb.le_rEnd hj ht h.free (by omega)
  obtain ⟨hstart, hend⟩ := h.maximal (max m.base (rStart b j)) (min (rend m) (rEnd b j))
    (le_max_left ..) (max_le hbase hs) (le_min (hrend ▸ hle) hstop) (hrend ▸ min_le_left ..)
    fun x hs' ht' => hb.ordered.freeBetween_area hj x ((le_max_right ..).trans hs')
      (ht'.trans_le (min_le_right ..))
  refine ⟨j, hj, by omega, by omega, ?_⟩
  unfold rangeIn
  rw [hstart, hend, ← h.nid]

theorem NoTouch.rStart_lt_rEnd (h : NoTouch q a b) (ha : RegionsOk a) (hb : RegionsOk b)
    (hm : m ∈ a) (hs : skips q m = false) (hj : j ≤ b.length) (hstart : rStart b j < rend m)
    (hend : m.base < rEnd b j) : rStart b j < rEnd b j := by
  apply lt_of_le_of_ne (hb.ordered.rStart_le_rEnd hj)
  intro heq
  have hrend := ha.ordered.rend_eq hm
  have htop := ha.ordered.top m hm
  cases j with
  | zero => exact absurd (heq ▸ hend) (Nat.not_lt_zero _)
  | succ j =>
    have hr : b[j]? = some b[j] := getElem?_eq_getElem hj
    cases hr' : b[j + 1]? with
    | none =>
      rw [rEnd, hr'] at heq
      simp only [Option.map_none, Option.getD_none] at heq
      omega
    | some r' =>
      rw [rEnd_of_getElem? hr'] at heq hend
      rw [heq] at hstart
      rw [hb.ordered.rStart_succ hr] at heq
      exact h m hm hs _ (mem_of_getElem? hr) r' (mem_of_getElem? hr') heq
        ⟨hend, hrend ▸ hstart⟩

theorem ahead_sorted (ha : Ordered a) (hb : Ordered b) :
    (ahead q a b 0 0).Pairwise fun o o' => o.stop ≤ o'.start := by
  have hrows : ((a.drop 0).filter fun m => !skips q m).Pairwise fun m m' => rend m ≤ m'.base := by
    apply List.Pairwise.filter
    apply ha.sorted.imp_of_mem
    intro m m' hm _ hbefore
    rw [ha.rend_eq hm]
    exact hbefore
  apply pairwise_pairs hrows hb.areas_sorted
  · intro m g g' o o' hg ho ho'
    obtain ⟨-, rfl⟩ := meet_eq_some'.mp ho
    obtain ⟨-, rfl⟩ := meet_eq_some'.mp ho'
    exact (min_le_right ..).trans (hg.trans (le_max_right ..))
  · intro m m' g g' o o' hm ho ho'
    obtain ⟨-, rfl⟩ := meet_eq_some'.mp ho
    obtain ⟨-, rfl⟩ := meet_eq_some'.mp ho'
    exact (min_le_left ..).trans (hm.trans (le_max_left ..))

theorem NoTouch.freeRanges (h : NoTouch q a b) (ha : RegionsOk a) (hb : RegionsOk b) :
    FreeRanges q a b (ahead q a b 0 0) := by
  refine ⟨fun o => ?_, ahead_sorted ha.ordered hb.ordered⟩
  rw [mem_ahead]
  refine exists_congr fun m => and_congr_right fun hm => and_congr_right fun hs => ?_
  constructor
  · rintro ⟨j, hj, ho⟩
    obtain ⟨hstart, hend, rfl⟩ := meet_eq_some.mp ho
    exact free_rangeIn ha hb hm hj hstart hend
      (h.rStart_lt_rEnd ha hb hm hs hj hstart hend)
  · intro hfree
    obtain ⟨j, hj, hrange⟩ := hfree.exists_area ha hb hm
    exact ⟨j, hj, meet_eq_some.mpr hrange⟩

theorem exists_empty_area (hb : RegionsOk b) {r r' : Region} (hr : r ∈ b) (hr' : r' ∈ b)
    (htouch : r.base + r.size = r'.base) (hpos : 0 < r'.base) :
    ∃ j ≤ b.length, rStart b j = r'.base ∧ rEnd b j = r'.base := by
  obtain ⟨k, hk, rfl⟩ := getElem_of_mem hr
  obtain ⟨j, hj, rfl⟩ := getElem_of_mem hr'
  have hk' : b[k]? = some b[k] := getElem?_eq_getElem hk
  have hj' : b[j]? = some b[j] := getElem?_eq_getElem hj
  have hsize := hb.size_pos hr (by omega)
  have hsize' := hb.size_pos hr' (by omega)
  have hkj : k < j := by
    by_contra hle
    obtain rfl | hlt := (not_lt.mp hle).eq_or_lt
    · omega
    · have := hb.ordered.before hj' hk' hlt
      omega
  have hend := rEnd_of_getElem? hj'
  refine ⟨j, hj.le, le_antisymm ?_ ?_, hend⟩
  · exact hend ▸ hb.ordered.rStart_le_rEnd hj.le
  · have := hb.ordered.rStart_mono (Nat.succ_le_of_lt hkj) hj.le
    rwa [hb.ordered.rStart_succ hk', htouch] at this

theorem exists_empty_of_touch (ha : RegionsOk a) (hb : RegionsOk b) (h : ¬ NoTouch q a b) :
    ∃ o ∈ ahead q a b 0 0, o.stop ≤ o.start := by
  simp only [NoTouch, not_forall, not_not] at h
  obtain ⟨m, hm, hs, r, hr, r', hr', htouch, hlow, hhigh⟩ := h
  obtain ⟨j, hj, hstart, hend⟩ := exists_empty_area hb hr hr' htouch (by omega)
  rw [← ha.ordered.rend_eq hm] at hhigh
  refine ⟨rangeIn b m j, mem_ahead.mpr ⟨m, hm, hs, j, hj, meet_eq_some.mpr ⟨?_, ?_, rfl⟩⟩, ?_⟩
  · rwa [hstart]
  · rwa [hend]
  · exact (min_le_right ..).trans (hend.le.trans (hstart.ge.trans (le_max_right ..)))

/-- Both iterations end, and when they give the free ranges in either order. -/
theorem forEach_freeRanges_iff (q : Query) (ha : ArrayOk a) (hb : ArrayOk b) :
    (∃ L, FreeRanges q a b L ∧ (∃ n, forEachMemRange q a b n = some L) ∧
      ∃ n, forEachMemRangeRev q a b n = some L.reverse) ↔ NoTouch q a b := by
  have hfor := forEachMemRange_eq q ha.ok.ordered hb.ok.ordered ha.short hb.short
  have hrev := forEachMemRangeRev_eq q ha.ok.ordered hb.ok.ordered ha.short hb.short
  constructor
  · rintro ⟨L, hL, ⟨n, hn⟩, -⟩
    obtain rfl := forEach_unique hn hfor
    by_contra htouch
    obtain ⟨o, ho, hempty⟩ := exists_empty_of_touch ha.ok hb.ok htouch
    obtain ⟨m, -, -, hfree⟩ := (hL.mem o).mp ho
    exact absurd hfree.lt (not_lt.mpr hempty)
  · intro h
    exact ⟨_, h.freeRanges ha.ok hb.ok, ⟨_, hfor⟩, _, hrev⟩

def anyRegion : Query := ⟨numaNoNode, 0, false⟩

theorem forEach_freeRanges_between : ∃ L, FreeRanges anyRegion [⟨0x1000, 0x4000, ⟨0, 0⟩⟩]
      [⟨0x2000, 0x1000, ⟨0, 0⟩⟩] L ∧
    (∃ n, forEachMemRange anyRegion [⟨0x1000, 0x4000, ⟨0, 0⟩⟩] [⟨0x2000, 0x1000, ⟨0, 0⟩⟩] n = some L) ∧
    ∃ n, forEachMemRangeRev anyRegion [⟨0x1000, 0x4000, ⟨0, 0⟩⟩] [⟨0x2000, 0x1000, ⟨0, 0⟩⟩] n =
      some L.reverse := by
  apply (forEach_freeRanges_iff anyRegion ⟨.inr (tidy_singleton (by decide) (by decide)), by decide⟩
    ⟨.inr (tidy_singleton (by decide) (by decide)), by decide⟩).mpr
  intro m _ _ r hr r' hr' htouch
  obtain rfl := mem_singleton.mp hr
  obtain rfl := mem_singleton.mp hr'
  exact absurd htouch (by decide)

def twoNodes : List Region := [⟨0x2000, 0x1000, ⟨0, 0⟩⟩, ⟨0x3000, 0x1000, ⟨1, 0⟩⟩]

theorem twoNodes_ok : ArrayOk twoNodes := by
  refine ⟨.inr ⟨by decide, ?_, ?_⟩, by decide⟩
  · exact wf_cons.mpr ⟨⟨by decide, by decide⟩, by decide,
      wf_cons.mpr ⟨⟨by decide, by decide⟩, by simp, wf_nil⟩⟩
  · exact pairwise_pair.mpr ⟨by decide, by decide⟩

theorem twoNodes_gives_empty :
    ArrayOk [⟨0x1000, 0x4000, ⟨0, 0⟩⟩] ∧ ArrayOk twoNodes ∧
    forEachMemRange anyRegion [⟨0x1000, 0x4000, ⟨0, 0⟩⟩] twoNodes 4 =
      some [⟨0x1000, 0x2000, 0⟩, ⟨0x3000, 0x3000, 0⟩, ⟨0x4000, 0x5000, 0⟩] ∧
    ¬ ∃ L, FreeRanges anyRegion [⟨0x1000, 0x4000, ⟨0, 0⟩⟩] twoNodes L ∧
      ∃ n, forEachMemRange anyRegion [⟨0x1000, 0x4000, ⟨0, 0⟩⟩] twoNodes n = some L := by
  have hrun : forEachMemRange anyRegion [⟨0x1000, 0x4000, ⟨0, 0⟩⟩] twoNodes 4 =
      some [⟨0x1000, 0x2000, 0⟩, ⟨0x3000, 0x3000, 0⟩, ⟨0x4000, 0x5000, 0⟩] := by
    decide +kernel
  refine ⟨⟨.inr (tidy_singleton (by decide) (by decide)), by decide⟩, twoNodes_ok, hrun, ?_⟩
  rintro ⟨L, hL, n, hn⟩
  obtain rfl := forEach_unique hn hrun
  obtain ⟨m, -, -, hfree⟩ := (hL.mem ⟨0x3000, 0x3000, 0⟩).mp (by simp)
  exact absurd hfree.lt (lt_irrefl _)

end Cupcake.Mm.Memblock
