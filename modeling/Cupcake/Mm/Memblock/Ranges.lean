import Cupcake.Mm.Memblock.Arrays

/-! What adding, removing and flagging a range do to an array that has room, as a map
from addresses to attributes. -/

namespace Cupcake.Mm.Memblock

open Segment

variable {nodeMap : Bool} {base size nid flags flag : ℕ} {w : Which} {st : State}
  {rs : List Region} {set : Bool}

namespace State

@[simp] theorem get_set_self (st : State) (w : Which) (t : RegionType) :
    (st.set w t).get w = t := by
  cases w <;> rfl

@[simp] theorem set_get (st : State) (w : Which) : st.set w (st.get w) = st := by cases w <;> rfl

@[simp] theorem set_set (st : State) (w : Which) (t u : RegionType) :
    (st.set w t).set w u = st.set w u := by
  cases w <;> rfl

end State

def IsDummy (rs : List Region) : Prop := ∃ attr, rs = [⟨0, 0, attr⟩]

structure Tidy (rs : List Region) : Prop where
  ne : rs ≠ []
  wf : Wf ullongMax rs
  apart : rs.Pairwise Apart

def RegionsOk (rs : List Region) : Prop := IsDummy rs ∨ Tidy rs

def rangeEnd (base size : ℕ) : ℕ := base + capSize base size

theorem rangeEnd_le (hb : base ≤ ullongMax) : rangeEnd base size ≤ ullongMax := by
  unfold rangeEnd capSize
  omega

theorem IsDummy.lookup (h : IsDummy rs) (x : ℕ) : lookup rs x = none := by
  obtain ⟨attr, rfl⟩ := h
  exact lookup_eq_none fun r hr => by
    obtain rfl := List.mem_singleton.mp hr
    simp

theorem IsDummy.length (h : IsDummy rs) : rs.length = 1 := by
  obtain ⟨attr, rfl⟩ := h
  rfl

theorem Tidy.not_dummy (h : Tidy rs) : ¬ IsDummy rs := by
  rintro ⟨attr, rfl⟩
  exact absurd (h.wf.good _ (List.mem_singleton_self _)).1 (by simp)

theorem Tidy.exists_lookup (h : Tidy rs) : ∃ x, Segment.lookup rs x ≠ none := by
  cases rs with
  | nil => exact absurd rfl h.ne
  | cons r rs =>
    have := (wf_cons.mp h.wf).1.1
    exact ⟨r.base, by rw [lookup_cons_of_mem ⟨le_rfl, by omega⟩]; simp⟩

theorem RegionsOk.tidy (h : RegionsOk rs) (hd : ¬ IsDummy rs) : Tidy rs := h.resolve_left hd

theorem Tidy.head_size (h : Tidy rs) : (rs.map Segment.size).headD 0 ≠ 0 := by
  cases rs with
  | nil => exact absurd rfl h.ne
  | cons r rs => exact (wf_cons.mp h.wf).1.1.ne'

theorem IsDummy.head_size (h : IsDummy rs) : (rs.map Segment.size).headD 0 = 0 := by
  obtain ⟨attr, rfl⟩ := h
  rfl

theorem IsDummy.ne_nil (h : IsDummy rs) : rs ≠ [] := by
  obtain ⟨attr, rfl⟩ := h
  simp

theorem tidy_singleton {attr : Attr} (h : 0 < size) (ht : base + size ≤ ullongMax) :
    Tidy [⟨base, size, attr⟩] :=
  ⟨by simp, wf_cons.mpr ⟨⟨h, ht⟩, by simp, wf_nil⟩, List.pairwise_singleton ..⟩

theorem memblockMergeRegions_eq (hw : Wf ullongMax rs) (hne : rs ≠ []) :
    ∃ rs', memblockMergeRegions rs = .ok rs' ∧ Tidy rs' ∧ rs'.length ≤ rs.length ∧
      total rs' = total rs ∧ ∀ x, lookup rs' x = lookup rs x := by
  cases rs with
  | nil => exact absurd rfl hne
  | cons r rs =>
    exact ⟨_, mergeFrom_eq hw, ⟨merge_ne_nil r rs, (wf_merge hw).1, (wf_merge hw).2⟩,
      length_merge_le r rs, total_merge r rs, lookup_merge hw⟩

theorem RegionsOk.merge (h : RegionsOk rs) :
    ∃ rs', memblockMergeRegions rs = .ok rs' ∧ RegionsOk rs' ∧ rs'.length ≤ rs.length ∧
      total rs' = total rs ∧ ∀ x, Segment.lookup rs' x = Segment.lookup rs x := by
  rcases h with ⟨attr, rfl⟩ | ht
  · exact ⟨_, rfl, .inl ⟨attr, rfl⟩, le_rfl, rfl, fun _ => rfl⟩
  · obtain ⟨rs', heq, htidy, hlen, hsum, hlook⟩ := memblockMergeRegions_eq ht.wf ht.ne
    exact ⟨rs', heq, .inr htidy, hlen, hsum, hlook⟩

theorem Tidy.total_lt (h : Tidy rs) : total rs < 2 ^ 64 := by
  have hle := h.wf.total_le (fun r _ => Nat.zero_le r.base) (Nat.zero_le ullongMax)
  rw [Nat.zero_add] at hle
  exact hle.trans_lt (by decide)

theorem RegionsOk.total_lt (h : RegionsOk rs) : total rs < 2 ^ 64 := by
  rcases h with ⟨attr, rfl⟩ | ht
  · exact Nat.two_pow_pos 64
  · exact ht.total_lt

/-! ## Adding -/

theorem insert_spec (hb : base ≤ ullongMax) (attr : Attr) {max : ℕ}
    (ht : Tidy rs) (hroom : rs.length + gaps (rangeEnd base size) base rs ≤ max) :
    ∃ rs₁ rs', addPass max true attr (rangeEnd base size) base rs.length rs =
        .ok (rs₁, gaps (rangeEnd base size) base rs) ∧
      memblockMergeRegions rs₁ = .ok rs' ∧ Tidy rs' ∧
      rs'.length ≤ rs.length + gaps (rangeEnd base size) base rs ∧
      total rs ≤ total rs₁ ∧ total rs' = total rs₁ ∧
      ∀ x, lookup rs' x = if base ≤ x ∧ x < rangeEnd base size then (lookup rs x).or (some attr)
        else lookup rs x := by
  have hle : base ≤ rangeEnd base size := Nat.le_add_right ..
  have hfw : Wf ullongMax (fill attr (rangeEnd base size) base rs) :=
    ht.wf.fill hle (rangeEnd_le hb)
  have hlen := length_fill attr (rangeEnd base size) base rs
  obtain ⟨rs', hmerge, htidy, hlen', hsum, hlook⟩ := memblockMergeRegions_eq hfw fun hnil => by
    rw [hnil, List.length_nil] at hlen
    exact ht.ne (List.length_eq_zero_iff.mp (by omega))
  exact ⟨_, rs', addPass_insert ht.wf hroom, hmerge, htidy, hlen ▸ hlen', total_le_fill .., hsum,
    fun x => (hlook x).trans (lookup_fill ht.wf hle x)⟩

structure Added (attr : Attr) (base size : ℕ) (rs rs' : List Region) : Prop where
  ok : RegionsOk rs'
  lookup : ∀ x, lookup rs' x =
    if base ≤ x ∧ x < rangeEnd base size then (lookup rs x).or (some attr) else lookup rs x

theorem Added.refl (h : RegionsOk rs) (attr : Attr) (hs : capSize base size = 0) :
    Added attr base size rs rs :=
  ⟨h, fun x => by rw [if_neg (by unfold rangeEnd; omega)]⟩

theorem Added.dummy (h : IsDummy rs) (attr : Attr) (hs : capSize base size ≠ 0)
    (hb : base ≤ ullongMax) : Added attr base size rs [⟨base, capSize base size, attr⟩] := by
  refine ⟨.inr (tidy_singleton (Nat.pos_of_ne_zero hs) (rangeEnd_le hb)), fun x => ?_⟩
  rw [h.lookup]
  rfl

theorem memblockAddRange_grow (double : Doubling) (hs : capSize base size ≠ 0)
    (ht : Tidy (st.get w).regions) :
    memblockAddRange nodeMap double w base size nid flags st =
      (do
        let (st, ok) ← growLoop double w (gaps (rangeEnd base size) base (st.get w).regions) base
          (capSize base size) 64 st
        if ok then
          let t := st.get w
          let (rs, _) ← addPass t.max true ⟨regionNode nodeMap nid, flags⟩ (rangeEnd base size) base
            t.regions.length t.regions
          let added := (rs.map Segment.size).sum - (t.regions.map Segment.size).sum
          let rs ← memblockMergeRegions rs
          return (st.set w { t with regions := rs, totalSize := wadd 64 t.totalSize added }, 0)
        else return (st, -12)) := by
  rw [memblockAddRange]
  simp only
  rw [if_neg hs, if_neg ht.head_size, addPass_count ht.wf, ok_bind]
  rfl

theorem growLoop_of_le {double : Doubling} {need s z fuel : ℕ}
    (h : (st.get w).regions.length + need ≤ (st.get w).max) :
    growLoop double w need s z fuel st = .ok (st, true) := by
  cases fuel <;> rw [growLoop, if_neg (not_lt.mpr h)]

theorem memblockAddRange_of_grow {double : Doubling} {st' : State} (nodeMap : Bool) (nid flags : ℕ)
    (hs : capSize base size ≠ 0)
    (hb : base ≤ ullongMax) (ht : Tidy (st.get w).regions)
    (hg : growLoop double w (gaps (rangeEnd base size) base (st.get w).regions) base
      (capSize base size) 64 st = .ok (st', true))
    (ht' : Tidy (st'.get w).regions)
    (hroom : (st'.get w).regions.length + gaps (rangeEnd base size) base (st'.get w).regions ≤
      (st'.get w).max) :
    ∃ rs sum, memblockAddRange nodeMap double w base size nid flags st =
        .ok (st'.set w { st'.get w with regions := rs, totalSize := sum }, 0) ∧
      ((st'.get w).Balanced → sum = total rs) ∧ rs.length ≤ (st'.get w).regions.length +
        gaps (rangeEnd base size) base (st'.get w).regions ∧
      Tidy rs ∧ Added ⟨regionNode nodeMap nid, flags⟩ base size (st'.get w).regions rs := by
  obtain ⟨rs₁, rs, hpass, hmerge, htidy, hlen, hle, hsum, hlook⟩ :=
    insert_spec hb ⟨regionNode nodeMap nid, flags⟩ ht' hroom
  refine ⟨rs, wadd 64 (st'.get w).totalSize (total rs₁ - total (st'.get w).regions), ?_,
    fun hbal => ?_, hlen, htidy, .inr htidy, hlook⟩
  · rw [memblockAddRange_grow double hs ht, hg, ok_bind]
    simp only [if_true, hpass, ok_bind, hmerge]
    rfl
  · have hlt := htidy.total_lt
    rw [hbal.1, wadd_of_lt (by omega), hsum]
    omega

theorem memblockAddRange_zero (double : Doubling) (hs : capSize base size = 0) :
    memblockAddRange nodeMap double w base size nid flags st = .ok (st, 0) := by
  rw [memblockAddRange]
  simp only
  rw [if_pos hs]

theorem memblockAddRange_room (nodeMap : Bool) (double : Doubling) (size nid flags : ℕ)
    (hb : base ≤ ullongMax)
    (h : RegionsOk (st.get w).regions)
    (hroom : capSize base size ≠ 0 → Tidy (st.get w).regions →
      (st.get w).regions.length + gaps (rangeEnd base size) base (st.get w).regions ≤
        (st.get w).max) :
    ∃ rs sum, memblockAddRange nodeMap double w base size nid flags st =
        .ok (st.set w { st.get w with regions := rs, totalSize := sum }, 0) ∧
      ((st.get w).Balanced → sum = total rs) ∧ rs.length ≤ (st.get w).regions.length +
        gaps (rangeEnd base size) base (st.get w).regions ∧
      Added ⟨regionNode nodeMap nid, flags⟩ base size (st.get w).regions rs := by
  by_cases hs : capSize base size = 0
  · refine ⟨(st.get w).regions, (st.get w).totalSize, ?_, And.left, Nat.le_add_right ..,
      .refl h _ hs⟩
    rw [memblockAddRange_zero double hs, State.set_get]
  · rcases h with hd | ht
    · refine ⟨_, capSize base size, ?_, fun _ => rfl, ?_, .dummy hd _ hs hb⟩
      · rw [memblockAddRange]
        simp only
        rw [if_neg hs, if_pos hd.head_size]
        obtain ⟨attr, hd⟩ := hd
        rw [hd]
        rfl
      · rw [hd.length]
        simp
    · obtain ⟨rs, sum, heq, hsum, hlen, -, hadd⟩ :=
        memblockAddRange_of_grow nodeMap nid flags hs hb ht (growLoop_of_le (hroom hs ht)) ht
          (hroom hs ht)
      exact ⟨rs, sum, heq, hsum, hlen, hadd⟩

/-! ## Isolating -/

/-- An array cut at both ends of a range: the parts below, inside and above, and what is
recorded of the part inside. -/
structure Isolated (base size : ℕ) (rs pre mid post : List Region) (se : ℕ × ℕ) : Prop where
  ne : pre ++ (mid ++ post) ≠ []
  recorded : se = recorded 0 (0, 0) pre.length mid.length
  cases : (IsDummy rs ∧ pre = rs ∧ mid = [] ∧ post = []) ∨ (Tidy rs ∧ pre = below base rs ∧
    mid = inside base (rangeEnd base size) rs ∧ post = above (rangeEnd base size) rs)

theorem Isolated.total_eq {pre mid post : List Region} {se : ℕ × ℕ}
    (h : Isolated base size rs pre mid post se) : total (pre ++ (mid ++ post)) = total rs := by
  rcases h.cases with ⟨-, rfl, rfl, rfl⟩ | ⟨-, rfl, rfl, rfl⟩
  · simp
  · rw [total_append, total_append]
    exact total_cut (Nat.le_add_right ..) rs

theorem isolate_spec {max : ℕ} (hs : capSize base size ≠ 0) (h : RegionsOk rs)
    (hroom : rs.length + 2 ≤ max) :
    ∃ pre mid post se, isolateLoop max base (rangeEnd base size) (3 * rs.length + 1) 0 rs.length
        (0, 0) rs = .ok (pre ++ (mid ++ post), se) ∧ Isolated base size rs pre mid post se := by
  have hlt : base < rangeEnd base size := Nat.lt_add_of_pos_right (Nat.pos_of_ne_zero hs)
  rcases h with hd | ht
  · refine ⟨rs, [], [], (0, 0), ?_, by simpa using hd.ne_nil, rfl, .inl ⟨hd, rfl, rfl, rfl⟩⟩
    obtain ⟨attr, rfl⟩ := hd
    have hrend : rend ⟨0, 0, attr⟩ ≤ base := Nat.zero_le _
    rw [List.length_singleton, isolateLoop, if_neg (by simp; omega), if_pos hrend]
    rfl
  · refine ⟨_, _, _, _, isolateLoop_eq ht.wf hlt (Nat.lt_succ_self _) hroom, fun hnil => ?_, rfl,
      .inr ⟨ht, rfl, rfl, rfl⟩⟩
    -- cutting does not lose the first region
    cases rs with
    | nil => exact ht.ne rfl
    | cons r rs =>
      have hr := (wf_cons.mp ht.wf).1.1
      have := lookup_cut hlt.le (r :: rs) r.base
      rw [hnil, lookup_cons_of_mem ⟨le_rfl, by omega⟩] at this
      cases this

theorem memblockIsolateRange_of_grow {double : Doubling} {st' : State}
    (hs : capSize base size ≠ 0)
    (hg : growLoop double w 2 base (capSize base size) 64 st = .ok (st', true))
    (h : RegionsOk (st'.get w).regions) (hroom : (st'.get w).regions.length + 2 ≤ (st'.get w).max) :
    ∃ pre mid post se, memblockIsolateRange double w base size st =
        .ok (st'.set w { st'.get w with regions := pre ++ (mid ++ post) }, some se) ∧
      Isolated base size (st'.get w).regions pre mid post se := by
  obtain ⟨pre, mid, post, se, heq, hiso⟩ := isolate_spec hs h hroom
  refine ⟨pre, mid, post, se, ?_, hiso⟩
  rw [memblockIsolateRange]
  simp only
  rw [if_neg hs, hg, ok_bind]
  simp only [if_true]
  rw [show base + capSize base size = rangeEnd base size from rfl, heq]
  rfl

/-! ## Removing -/

structure Removed (base size : ℕ) (rs rs' : List Region) : Prop where
  ok : RegionsOk rs'
  lookup : ∀ x, lookup rs' x = if base ≤ x ∧ x < rangeEnd base size then none else lookup rs x
  length_le : rs'.length ≤ rs.length + 1
  /-- removing a range that has one attribute leaves a region -/
  tidy : ∀ v, Tidy rs → 2 ≤ rs.length →
    (∀ x, base ≤ x → x < rangeEnd base size → Segment.lookup rs x = some v) → Tidy rs'

theorem Removed.refl (h : RegionsOk rs) (hs : capSize base size = 0) : Removed base size rs rs :=
  ⟨h, fun x => by rw [if_neg (by unfold rangeEnd; omega)], Nat.le_succ _,
    fun _ ht _ _ => ht⟩

theorem Isolated.foldl {pre mid post : List Region} {se : ℕ × ℕ}
    (h : Isolated base size rs pre mid post se) (nodeMap : Bool) (t : RegionType)
    (ht : t.regions = pre ++ (mid ++ post)) :
    ∃ sum b, (List.range' se.1 (se.2 - se.1)).reverse.foldl (memblockRemoveRegion nodeMap) t =
      { t with regions := orDummy nodeMap (pre ++ post), totalSize := sum, warned := b } := by
  rw [h.recorded]
  by_cases hm : mid = []
  · subst hm
    refine ⟨t.totalSize, t.warned, ?_⟩
    rw [orDummy, if_neg (by simpa using h.ne)]
    rw [List.nil_append] at ht
    simp [Memblock.recorded, ← ht]
  · obtain ⟨sum, b, heq⟩ := foldl_removeRegion nodeMap pre mid post t ht hm
    refine ⟨sum, b, ?_⟩
    rw [← heq, Memblock.recorded, if_neg (by simpa using hm)]
    simp

theorem orDummy_removed {pre mid post : List Region} {se : ℕ × ℕ} (nodeMap : Bool)
    (hs : capSize base size ≠ 0) (h : Isolated base size rs pre mid post se) :
    Removed base size rs (orDummy nodeMap (pre ++ post)) := by
  have hlt : base < rangeEnd base size := Nat.lt_add_of_pos_right (Nat.pos_of_ne_zero hs)
  rcases h.cases with ⟨hd, rfl, rfl, rfl⟩ | ⟨ht, rfl, rfl, rfl⟩
  · rw [List.append_nil, orDummy, if_neg hd.ne_nil]
    exact ⟨.inl hd, fun x => by rw [hd.lookup, ite_self], Nat.le_succ _,
      fun _ ht _ _ => absurd hd ht.not_dummy⟩
  · have hcut := length_cut ht.wf hlt.le
    have hlook := lookup_outside hlt.le rs
    have hnot : ∀ v, 2 ≤ rs.length →
        (∀ x, base ≤ x → x < rangeEnd base size → Segment.lookup rs x = some v) →
        below base rs ++ above (rangeEnd base size) rs ≠ [] := by
      intro v h2 hv hnil
      obtain ⟨r, hr, h₁, h₂⟩ := exists_covering ht.wf ht.apart hlt hv
      have := length_le_cut ht.wf hr h₁ h₂
      rw [← List.length_append, hnil, List.length_nil] at this
      omega
    have htidy : below base rs ++ above (rangeEnd base size) rs ≠ [] →
        Tidy (below base rs ++ above (rangeEnd base size) rs) := fun hne =>
      ⟨hne, ht.wf.outside hlt.le, outside_apart ht.apart hlt⟩
    unfold orDummy
    split_ifs with hnil
    · have hdummy : IsDummy [⟨0, 0, ⟨regionNode nodeMap maxNumnodes, 0⟩⟩] := ⟨_, rfl⟩
      refine ⟨.inl hdummy, fun x => ?_, by simp, fun v _ h2 hv => absurd hnil (hnot v h2 hv)⟩
      rw [hdummy.lookup, ← hlook x, hnil, lookup_nil]
    · exact ⟨.inr (htidy hnil), hlook, by rw [List.length_append]; exact hcut,
        fun _ _ _ _ => htidy hnil⟩

theorem memblockRemoveRange_of_grow {double : Doubling} {st' : State} (nodeMap : Bool)
    (hs : capSize base size ≠ 0)
    (hg : growLoop double w 2 base (capSize base size) 64 st = .ok (st', true))
    (h : RegionsOk (st'.get w).regions) (hroom : (st'.get w).regions.length + 2 ≤ (st'.get w).max) :
    ∃ rs sum b, memblockRemoveRange nodeMap double w base size st =
        .ok (st'.set w { st'.get w with regions := rs, totalSize := sum, warned := b }, 0) ∧
      ((st'.get w).Balanced → sum = total rs ∧ b = false) ∧
      Removed base size (st'.get w).regions rs := by
  obtain ⟨pre, mid, post, se, heq, hiso⟩ := memblockIsolateRange_of_grow hs hg h hroom
  obtain ⟨sum, b, hfold⟩ :=
    hiso.foldl nodeMap { st'.get w with regions := pre ++ (mid ++ post) } rfl
  refine ⟨_, sum, b, ?_, fun hb => ?_, orDummy_removed nodeMap hs hiso⟩
  · rw [memblockRemoveRange, heq, ok_bind]
    simp only [State.get_set_self, State.set_set, hfold]
    rfl
  · have htotal := hiso.total_eq
    have hbal := foldl_balanced nodeMap (t := { st'.get w with regions := pre ++ (mid ++ post) })
      ⟨hb.1.trans htotal.symm, hb.2⟩ (htotal.trans_lt h.total_lt)
      (List.range' se.1 (se.2 - se.1)).reverse
    rwa [hfold] at hbal

theorem memblockRemoveRange_zero (double : Doubling) (hs : capSize base size = 0) :
    memblockRemoveRange nodeMap double w base size st = .ok (st, 0) := by
  rw [memblockRemoveRange, memblockIsolateRange]
  simp only
  rw [if_pos hs, ok_bind]
  show Except.ok (st.set w (st.get w), 0) = _
  rw [State.set_get]

theorem memblockRemoveRange_room (nodeMap : Bool) (double : Doubling) (base size : ℕ)
    (h : RegionsOk (st.get w).regions)
    (hroom : (st.get w).regions.length + 2 ≤ (st.get w).max) :
    ∃ rs sum b, memblockRemoveRange nodeMap double w base size st =
        .ok (st.set w { st.get w with regions := rs, totalSize := sum, warned := b }, 0) ∧
      ((st.get w).Balanced → sum = total rs ∧ b = false) ∧
      Removed base size (st.get w).regions rs := by
  by_cases hs : capSize base size = 0
  · refine ⟨(st.get w).regions, (st.get w).totalSize, (st.get w).warned, ?_, id, .refl h hs⟩
    rw [memblockRemoveRange_zero double hs, State.set_get]
  · exact memblockRemoveRange_of_grow nodeMap hs (growLoop_of_le hroom) h hroom

/-! ## Flagging -/

structure Flagged (set : Bool) (flag base size : ℕ) (rs rs' : List Region) : Prop where
  ok : RegionsOk rs'
  length_le : rs'.length ≤ rs.length + 2
  lookup : ∀ x, lookup rs' x = if base ≤ x ∧ x < rangeEnd base size then
    (lookup rs x).map (setclr set flag) else lookup rs x

theorem Isolated.flagged {pre mid post : List Region} {se : ℕ × ℕ} (set : Bool) (flag : ℕ)
    (hs : capSize base size ≠ 0) (h : Isolated base size rs pre mid post se) :
    ∃ rs', memblockMergeRegions ((pre ++ (mid ++ post)).mapIdx fun i r =>
        if se.1 ≤ i ∧ i < se.2 then { r with attr := setclr set flag r.attr } else r) = .ok rs' ∧
      total rs' = total rs ∧ Flagged set flag base size rs rs' := by
  have hlt : base < rangeEnd base size := Nat.lt_add_of_pos_right (Nat.pos_of_ne_zero hs)
  have hmap : (pre ++ (mid ++ post)).mapIdx (fun i r =>
      if se.1 ≤ i ∧ i < se.2 then { r with attr := setclr set flag r.attr } else r) =
      pre ++ (mapAttr (setclr set flag) mid ++ post) := by
    rw [h.recorded, Memblock.recorded]
    by_cases hm : mid = []
    · subst hm
      refine List.ext_getElem (by simp [mapAttr]) fun i h₁ h₂ => ?_
      simp [mapAttr]
    · rw [if_neg (by simpa using hm), mapAttr, ← mapIdx_mid]
      simp
  rw [hmap]
  rcases h.cases with ⟨hd, rfl, rfl, rfl⟩ | ⟨ht, rfl, rfl, rfl⟩
  · obtain ⟨attr, rfl⟩ := hd
    have hd : IsDummy [⟨0, 0, attr⟩] := ⟨attr, rfl⟩
    exact ⟨_, rfl, rfl, .inl hd, Nat.le_add_right .., fun x => by rw [hd.lookup]; simp⟩
  · have hw : Wf ullongMax (below base rs ++
        (mapAttr (setclr set flag) (inside base (rangeEnd base size) rs) ++
          above (rangeEnd base size) rs)) :=
      (ht.wf.cut hlt.le).congr (by simp [mapAttr, Function.comp_def])
    obtain ⟨rs', hmerge, htidy, hlen, hsum, hlook⟩ :=
      memblockMergeRegions_eq hw (by simpa [mapAttr] using h.ne)
    refine ⟨rs', hmerge, ?_, .inr htidy, ?_, fun x => ?_⟩
    · simpa using hsum.trans (by simpa using h.total_eq)
    · have h₁ := length_cut ht.wf (le_refl (rangeEnd base size))
      have h₂ := length_cut (ht.wf.below (rangeEnd base size)) (le_refl base)
      rw [below_below hlt.le] at h₂
      simp only [List.length_append, mapAttr, List.length_map, inside] at hlen
      omega
    · rw [hlook, lookup_append, lookup_append, lookup_mapAttr, lookup_below, lookup_inside,
        lookup_above]
      split_ifs <;> first | omega | simp

end Cupcake.Mm.Memblock
