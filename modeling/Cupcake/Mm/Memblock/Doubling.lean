import Cupcake.Mm.Memblock.Ranges

/-! `memblock_double_array` moves an array to memory that nothing else uses. -/

namespace Cupcake.Mm.Memblock

open Segment Option

variable {nodeMap : Bool} {w : Which} {st st' st'' : State} {t : RegionType} {x : ℕ}
  {rs : List Region}

def arrayAttr (nodeMap : Bool) : Attr := ⟨regionNode nodeMap maxNumnodes, 0⟩

def InArray (nodeMap : Bool) (t : RegionType) (x : ℕ) : Prop :=
  ∃ a n, t.area nodeMap = some (a, n) ∧ a ≤ x ∧ x < a + n

/-- What every call keeps: besides the shape of the arrays, their own memory is reserved
and not shared. -/
structure Inv (nodeMap : Bool) (st : State) : Prop where
  regions : ∀ w, RegionsOk (st.get w).regions
  room : ∀ w, (st.get w).regions.length ≤ (st.get w).max
  large : ∀ w, initMemblockRegions ≤ (st.get w).max
  live : ∀ w x, InArray nodeMap (st.get w) x →
    lookup st.reserved.regions x = some (arrayAttr nodeMap)
  disjoint : ∀ x, InArray nodeMap st.memory x → ¬ InArray nodeMap st.reserved x
  bounded : ∀ w a n, (st.get w).area nodeMap = some (a, n) → a + n ≤ ullongMax

/-! ## The search -/

structure FreeArea (rs : List Region) (a n : ℕ) : Prop where
  free : ∀ x, a ≤ x → x < a + n → lookup rs x = none
  bounded : a + n ≤ ullongMax

theorem freeArea_spec {start stop a n : ℕ} (h : freeArea st start stop n a = true)
    (hm : RegionsOk st.memory.regions) :
    FreeArea st.reserved.regions a n ∧ pageSize ≤ a ∧ start ≤ a ∧ a + n ≤ stop := by
  simp only [freeArea, decide_eq_true_eq] at h
  obtain ⟨-, h₁, h₂, h₃, ⟨r, hr, hra, hrn⟩, h₄⟩ := h
  refine ⟨⟨fun x hx hx' => lookup_eq_none fun r hr => ?_, hrn.trans ?_⟩, h₁, h₂, h₃⟩
  · have := h₄ r hr
    omega
  · rcases hm with ⟨attr, hd⟩ | ht
    · rw [hd, List.mem_singleton] at hr
      subst hr
      exact Nat.zero_le _
    · exact (ht.wf.good r hr).2

theorem memblockFindInRange_spec (hm : RegionsOk st.memory.regions) (start stop n : ℕ) :
    ∃ a l, memblockFindInRange st start stop n = (a, { st with answers := l }) ∧
      (a ≠ 0 → FreeArea st.reserved.regions a n ∧ pageSize ≤ a ∧ start ≤ a ∧
        a + n ≤ if stop = 0 then st.currentLimit else stop) := by
  rw [memblockFindInRange]
  simp only [nextAnswer]
  split_ifs with h₁ h₂ h₂
  · exact ⟨_, _, rfl, fun _ => freeArea_spec h₂ hm⟩
  · exact ⟨_, _, rfl, fun h => absurd rfl h⟩
  · exact ⟨_, _, rfl, fun _ => freeArea_spec h₂ hm⟩
  · exact ⟨_, _, rfl, fun h => absurd rfl h⟩

theorem findArray_spec (hm : RegionsOk st.memory.regions) (w : Which) (s z n : ℕ) :
    ∃ a l, findArray w s z n st = (a, { st with answers := l }) ∧
      (a ≠ 0 → st.slab = false → FreeArea st.reserved.regions a n ∧
        (w = .reserved → s ≠ 0 → s + z ≤ a ∨ a + n ≤ s)) := by
  rw [findArray]
  by_cases hslab : st.slab = true
  · rw [if_pos hslab]
    exact ⟨_, _, rfl, fun _ h => by simp [hslab] at h⟩
  · rw [if_neg hslab]
    cases w with
    | memory =>
      obtain ⟨a, l, heq, ha⟩ := memblockFindInRange_spec hm (0 + 0) st.currentLimit n
      refine ⟨a, l, ?_, fun h _ => ⟨(ha h).1, fun hw => by cases hw⟩⟩
      simp only [reduceCtorEq, if_false, heq]
      simp
    | reserved =>
      obtain ⟨a, l, heq, ha⟩ := memblockFindInRange_spec hm (s + z) st.currentLimit n
      simp only [if_true, heq]
      by_cases h : a = 0 ∧ z ≠ 0
      · rw [if_pos h]
        have hm' : RegionsOk ({ st with answers := l } : State).memory.regions := hm
        obtain ⟨b, l', heq', hb⟩ := memblockFindInRange_spec hm' 0 (min s st.currentLimit) n
        refine ⟨b, l', heq', fun h _ => ⟨(hb h).1, fun _ hs => .inr ?_⟩⟩
        have h₁ := (hb h).2.2.2
        have h₂ := (hb h).2.1
        unfold pageSize at h₂
        split_ifs at h₁ with h₃
        · have : b + n ≤ st.currentLimit := h₁
          omega
        · omega
      · rw [if_neg h]
        exact ⟨a, l, rfl, fun h _ => ⟨(ha h).1, fun _ _ => .inl (ha h).2.2.1⟩⟩

/-! ## Freeing the old array and reserving the new one -/

theorem inArray_block {a : ℕ} (hp : t.place = .block a) :
    InArray nodeMap t x ↔ a ≤ x ∧ x < a + allocSize nodeMap t.max := by
  simp only [InArray, RegionType.area, hp]
  constructor
  · rintro ⟨b, n, h, hx⟩
    obtain ⟨rfl, rfl⟩ := Prod.mk.inj (some.inj h)
    exact hx
  · exact fun h => ⟨a, _, rfl, h⟩

theorem not_inArray (hp : ∀ a, t.place ≠ .block a) : ¬ InArray nodeMap t x := by
  rintro ⟨a, n, h, -⟩
  unfold RegionType.area at h
  split at h
  · exact hp _ ‹_›
  · cases h

theorem freeOldArray_spec (double : Doubling) (h : RegionsOk st.reserved.regions)
    (hroom : st.reserved.regions.length + 2 ≤ st.reserved.max)
    (hb : ∀ a n, t.area nodeMap = some (a, n) → a + n ≤ ullongMax)
    (hv : ∀ x, InArray nodeMap t x → lookup st.reserved.regions x = some (arrayAttr nodeMap)) :
    ∃ rs sum b, freeOldArray nodeMap double t st =
        .ok { st with reserved := { st.reserved with
          regions := rs, totalSize := sum, warned := b } } ∧
      (st.reserved.Balanced → sum = total rs ∧ b = false) ∧ RegionsOk rs ∧
      rs.length ≤ st.reserved.regions.length + 1 ∧
      (Tidy st.reserved.regions → 2 ≤ st.reserved.regions.length → Tidy rs) ∧
      (∀ x, InArray nodeMap t x → lookup rs x = none) ∧
      ∀ x, ¬ InArray nodeMap t x → lookup rs x = lookup st.reserved.regions x := by
  by_cases hp : ∃ a, t.place = .block a
  · obtain ⟨a, hp⟩ := hp
    have hcap : capSize a (allocSize nodeMap t.max) = allocSize nodeMap t.max := by
      have := hb a _ (by rw [RegionType.area, hp])
      unfold capSize
      omega
    have hend : rangeEnd a (allocSize nodeMap t.max) = a + allocSize nodeMap t.max := by
      rw [rangeEnd, hcap]
    obtain ⟨rs, sum, b, heq, hsum, hrem⟩ := memblockRemoveRange_room (w := .reserved) nodeMap
      double a (allocSize nodeMap t.max) h hroom
    refine ⟨rs, sum, b, ?_, hsum, hrem.ok, hrem.length_le, fun ht h2 => ?_, fun x hx => ?_,
      fun x hx => ?_⟩
    · rw [freeOldArray, hp]
      simp only [heq, ok_bind]
      rfl
    · refine hrem.tidy (arrayAttr nodeMap) ht h2 fun x hx hx' => ?_
      rw [hend] at hx'
      exact hv x ((inArray_block hp).mpr ⟨hx, hx'⟩)
    · rw [hrem.lookup, hend, if_pos ((inArray_block hp).mp hx)]
    · rw [hrem.lookup, hend, if_neg (mt (inArray_block hp).mpr hx)]
      rfl
  · have hp : ∀ a, t.place ≠ .block a := fun a ha => hp ⟨a, ha⟩
    refine ⟨st.reserved.regions, st.reserved.totalSize, st.reserved.warned, ?_, id, h,
      Nat.le_succ _, fun ht _ => ht, fun x hx => absurd hx (not_inArray hp), fun _ _ => rfl⟩
    rw [freeOldArray]
    split
    · exact absurd ‹_› (hp _)
    · rfl

theorem RegionsOk.gaps_le_one {base stop : ℕ} (h : RegionsOk rs) (hb : base ≤ stop)
    (hx : ∀ x, base ≤ x → x < stop → lookup rs x = none) : gaps stop base rs ≤ 1 := by
  rcases h with ⟨attr, rfl⟩ | ht
  · simp only [gaps]
    split_ifs <;> omega
  · rcases hb.eq_or_lt with rfl | hb
    · rw [gaps_eq_card ht.wf le_rfl, card_starts_of_all fun x _ _ => by omega]
      exact Nat.zero_le _
    · exact (gaps_of_none ht.wf hb hx).le

theorem reserveNewArray_spec {addr : ℕ} (double : Doubling) (h : RegionsOk st.reserved.regions)
    (hroom : st.reserved.regions.length + 1 ≤ st.reserved.max)
    (hp : t.place = if st.slab then .slab else .block addr)
    (hfree : st.slab = false → FreeArea st.reserved.regions addr (allocSize nodeMap t.max)) :
    ∃ rs sum, reserveNewArray nodeMap double addr (allocSize nodeMap t.max) st =
        .ok { st with reserved := { st.reserved with regions := rs, totalSize := sum } } ∧
      (st.reserved.Balanced → sum = total rs) ∧ RegionsOk rs ∧
      rs.length ≤ st.reserved.regions.length + 1 ∧ (Tidy st.reserved.regions → Tidy rs) ∧
      (∀ x, InArray nodeMap t x → lookup rs x = some (arrayAttr nodeMap)) ∧
      ∀ x, ¬ InArray nodeMap t x → lookup rs x = lookup st.reserved.regions x := by
  rw [reserveNewArray]
  by_cases hs : st.slab = true
  · rw [if_pos hs] at hp ⊢
    exact ⟨_, _, rfl, And.left, h, Nat.le_succ _, id,
      fun x hx => absurd hx (not_inArray (by rw [hp]; simp)), fun _ _ => rfl⟩
  · rw [if_neg hs] at hp ⊢
    have hfree := hfree (by simpa using hs)
    have hcap : capSize addr (allocSize nodeMap t.max) = allocSize nodeMap t.max := by
      have := hfree.bounded
      unfold capSize
      omega
    have hend : rangeEnd addr (allocSize nodeMap t.max) = addr + allocSize nodeMap t.max := by
      rw [rangeEnd, hcap]
    have hgap := h.gaps_le_one (Nat.le_add_right _ _) (hend ▸ hfree.free)
    have hroom' : (st.get .reserved).regions.length +
        gaps (rangeEnd addr (allocSize nodeMap t.max)) addr (st.get .reserved).regions ≤
          (st.get .reserved).max :=
      (Nat.add_le_add_left hgap _).trans hroom
    obtain ⟨rs, sum, heq, hsum, hlen, hadd⟩ := memblockAddRange_room (w := .reserved) nodeMap double
      (allocSize nodeMap t.max) maxNumnodes 0 ((Nat.le_add_right _ _).trans hfree.bounded) h
      fun _ _ => hroom'
    refine ⟨rs, sum, ?_, hsum, hadd.ok, hlen.trans (Nat.add_le_add_left hgap _), fun ht => ?_,
      fun x hx => ?_, fun x hx => ?_⟩
    · rw [heq]
      rfl
    · obtain ⟨x, hx⟩ := ht.exists_lookup
      refine hadd.ok.tidy fun hd => hx ?_
      have := hadd.lookup x
      rw [hd.lookup] at this
      split_ifs at this
      · exact (or_eq_none_iff.mp this.symm).1
      · exact this.symm
    · have hx := (inArray_block hp).mp hx
      have hnone : lookup (st.get .reserved).regions x = none := hfree.free x hx.1 hx.2
      rw [hadd.lookup, hend, if_pos hx, hnone]
      rfl
    · rw [hadd.lookup, hend, if_neg (mt (inArray_block hp).mpr hx)]
      rfl

/-! ## Moving an array -/

def State.Balanced (st : State) : Prop := ∀ w, (st.get w).Balanced

theorem State.get_congr (hm : st'.memory = st.memory) (hr : st'.reserved = st.reserved)
    (w : Which) : st'.get w = st.get w := by
  cases w
  · exact hm
  · exact hr

theorem State.Balanced.congr (h : st.Balanced) (hm : st'.memory = st.memory)
    (hr : st'.reserved = st.reserved) : st'.Balanced := fun w => State.get_congr hm hr w ▸ h w

theorem Inv.congr (hI : Inv nodeMap st) (hm : st'.memory = st.memory)
    (hr : st'.reserved = st.reserved) : Inv nodeMap st' := by
  have hget := State.get_congr hm hr
  refine ⟨fun w => hget w ▸ hI.regions w, fun w => hget w ▸ hI.room w, fun w => hget w ▸ hI.large w,
    fun w x h => hr ▸ hI.live w x (hget w ▸ h), ?_, fun w a n h => hI.bounded w a n (hget w ▸ h)⟩
  rw [hm, hr]
  exact hI.disjoint

structure Moved (nodeMap : Bool) (w : Which) (st st' : State) : Prop where
  memory : st'.memory.regions = st.memory.regions
  mono : (st.get w).max ≤ (st'.get w).max
  same : (st'.get w).max = (st.get w).max → st'.memory = st.memory ∧ st'.reserved = st.reserved
  other : ∀ v, v ≠ w → (st'.get v).max = (st.get v).max ∧ (st'.get v).place = (st.get v).place
  fresh : ∀ x, InArray nodeMap (st'.get w) x → ¬ InArray nodeMap (st.get w) x →
    lookup st.reserved.regions x = none
  freed : ∀ x, InArray nodeMap (st.get w) x → ¬ InArray nodeMap (st'.get w) x →
    lookup st'.reserved.regions x = none
  kept : ∀ x, ¬ InArray nodeMap (st.get w) x → ¬ InArray nodeMap (st'.get w) x →
    lookup st'.reserved.regions x = lookup st.reserved.regions x

theorem Moved.of_eq (hm : st'.memory = st.memory) (hr : st'.reserved = st.reserved) :
    Moved nodeMap w st st' := by
  have hget := State.get_congr hm hr
  refine ⟨by rw [hm], (hget w ▸ le_rfl), fun _ => ⟨hm, hr⟩, fun v _ => by simp [hget v],
    fun x h h' => absurd (hget w ▸ h) h', fun x h h' => absurd ((hget w).symm ▸ h) h',
    fun x _ _ => by rw [hr]⟩

theorem Moved.trans (h : Moved nodeMap w st st') (h' : Moved nodeMap w st' st'') :
    Moved nodeMap w st st'' where
  memory := h'.memory.trans h.memory
  mono := h.mono.trans h'.mono
  same he := by
    have h₁ := h.mono
    have h₂ := h'.mono
    have h₃ := h.same (by omega)
    have h₄ := h'.same (by omega)
    exact ⟨h₄.1.trans h₃.1, h₄.2.trans h₃.2⟩
  other v hv := ⟨(h'.other v hv).1.trans (h.other v hv).1, (h'.other v hv).2.trans (h.other v hv).2⟩
  fresh x hx hx' := by
    by_cases hm : InArray nodeMap (st'.get w) x
    · exact h.fresh x hm hx'
    · exact (h.kept x hx' hm).symm.trans (h'.fresh x hx hm)
  freed x hx hx' := by
    by_cases hm : InArray nodeMap (st'.get w) x
    · exact h'.freed x hm hx'
    · exact (h'.kept x hm hx').trans (h.freed x hx hm)
  kept x hx hx' := by
    by_cases hm : InArray nodeMap (st'.get w) x
    · exact (h'.freed x hm hx').trans (h.fresh x hm hx).symm
    · exact (h'.kept x hm hx').trans (h.kept x hx hm)

/-- What one call of `memblock_double_array` leaves when it succeeds. -/
structure Doubled (nodeMap : Bool) (w : Which) (s z : ℕ) (st st' : State) : Prop where
  inv : Inv nodeMap st'
  moved : Moved nodeMap w st st'
  max : (st'.get w).max = 2 * (st.get w).max
  length : st'.reserved.regions.length ≤ st.reserved.regions.length + 2
  tidy : Tidy st.reserved.regions → 2 ≤ st.reserved.regions.length → Tidy st'.reserved.regions
  avoids : w = .reserved → s ≠ 0 → ∀ x, s ≤ x → x < s + z → ¬ InArray nodeMap st'.reserved x

/-- Why a doubling fails: the arrays may not be resized yet, or the search finds no memory for an
array of twice the size. -/
def NoMemory (nodeMap : Bool) (w : Which) (s z : ℕ) (st : State) : Prop :=
  st.canResize = false ∨
    (findArray w s z (allocSize nodeMap (2 * (st.get w).max)) st).1 = 0

def RoomToMove (w : Which) (st : State) : Prop :=
  w = .memory → st.reserved.regions.length + 2 ≤ st.reserved.max

theorem not_clobbered (hI : Inv nodeMap st) {a n : ℕ} (h : FreeArea st.reserved.regions a n) :
    ([st.memory, st.reserved].any fun u =>
      (u.area nodeMap).any fun (b, m) => overlaps a n b m) = false := by
  have key : ∀ w, ((st.get w).area nodeMap).any (fun (b, m) => overlaps a n b m) = false := by
    intro w
    cases harea : (st.get w).area nodeMap with
    | none => rfl
    | some bm =>
      obtain ⟨b, m⟩ := bm
      simp only [any_some, overlaps, decide_eq_false_iff_not]
      intro ho
      have hin : InArray nodeMap (st.get w) (max a b) := ⟨b, m, harea, by omega, by omega⟩
      have hlive := hI.live w _ hin
      rw [h.free _ (by omega) (by omega)] at hlive
      cases hlive
  simpa using ⟨key .memory, key .reserved⟩

theorem inArray_congr {u : RegionType} (hm : u.max = t.max) (hp : u.place = t.place) :
    InArray nodeMap u x ↔ InArray nodeMap t x := by
  simp only [InArray, RegionType.area, hm, hp]

theorem Doubled.of_lookup {s z : ℕ} (hI : Inv nodeMap st)
    (hmem : st'.memory.regions = st.memory.regions) (hmax : (st'.get w).max = 2 * (st.get w).max)
    (hother : ∀ v, v ≠ w → (st'.get v).max = (st.get v).max ∧ (st'.get v).place = (st.get v).place)
    (hok : RegionsOk st'.reserved.regions)
    (hlen : st'.reserved.regions.length ≤ st.reserved.regions.length + 2)
    (hroom : st'.reserved.regions.length ≤ st'.reserved.max)
    (htidy : Tidy st.reserved.regions → 2 ≤ st.reserved.regions.length → Tidy st'.reserved.regions)
    (hnew : ∀ x, InArray nodeMap (st'.get w) x → lookup st.reserved.regions x = none ∧
      lookup st'.reserved.regions x = some (arrayAttr nodeMap))
    (hold : ∀ x, InArray nodeMap (st.get w) x → ¬ InArray nodeMap (st'.get w) x →
      lookup st'.reserved.regions x = none)
    (hkept : ∀ x, ¬ InArray nodeMap (st.get w) x → ¬ InArray nodeMap (st'.get w) x →
      lookup st'.reserved.regions x = lookup st.reserved.regions x)
    (hbounded : ∀ a n, (st'.get w).area nodeMap = some (a, n) → a + n ≤ ullongMax)
    (havoid : w = .reserved → s ≠ 0 → ∀ x, s ≤ x → x < s + z → ¬ InArray nodeMap st'.reserved x) :
    Doubled nodeMap w s z st st' := by
  have hge : ∀ v, (st.get v).max ≤ (st'.get v).max := fun v => by
    by_cases hv : v = w
    · subst hv
      omega
    · exact (hother v hv).1.ge
  have hpos : 0 < (st.get w).max := lt_of_lt_of_le (by decide) (hI.large w)
  have hin : ∀ v, v ≠ w → ∀ x, InArray nodeMap (st'.get v) x → InArray nodeMap (st.get v) x :=
    fun v hv x => (inArray_congr (hother v hv).1 (hother v hv).2).mp
  -- the memory of the other array is neither the old nor the new memory of this one
  have hapart : ∀ v, v ≠ w → ∀ x, InArray nodeMap (st'.get v) x → ¬ InArray nodeMap (st'.get w) x :=
    fun v hv x hx hx' => by
      have := hI.live v x (hin v hv x hx)
      rw [(hnew x hx').1] at this
      cases this
  have hdisj : ∀ v, v ≠ w → ∀ x, InArray nodeMap (st'.get v) x → ¬ InArray nodeMap (st.get w) x :=
    fun v hv x hx hx' => by
      have hx := hin v hv x hx
      cases v <;> cases w
      · exact hv rfl
      · exact hI.disjoint x hx hx'
      · exact hI.disjoint x hx' hx
      · exact hv rfl
  refine ⟨⟨fun v => ?_, fun v => ?_, fun v => (hI.large v).trans (hge v), fun v x hx => ?_,
    fun x hm hr => ?_, fun v a n hv => ?_⟩, ⟨hmem, hge w, fun h => by omega, hother,
      fun x h _ => (hnew x h).1, hold, hkept⟩, hmax, hlen, htidy, havoid⟩
  · cases v
    · exact hmem ▸ hI.regions .memory
    · exact hok
  · cases v
    · exact hmem ▸ (hI.room .memory).trans (hge .memory)
    · exact hroom
  · by_cases hv : v = w
    · subst hv
      exact (hnew x hx).2
    · rw [hkept x (hdisj v hv x hx) (hapart v hv x hx)]
      exact hI.live v x (hin v hv x hx)
  · cases w
    · exact hapart .reserved (by simp) x hr hm
    · exact hapart .memory (by simp) x hm hr
  · by_cases hvw : v = w
    · subst hvw
      exact hbounded a n hv
    · refine hI.bounded v a n ?_
      rw [← hv]
      simp only [RegionType.area, (hother v hvw).1, (hother v hvw).2]

theorem area_of_place {a b n : ℕ} (hp : t.place = if st.slab then .slab else .block a)
    (h : t.area nodeMap = some (b, n)) :
    st.slab = false ∧ b = a ∧ n = allocSize nodeMap t.max := by
  rw [RegionType.area, hp] at h
  cases hs : st.slab with
  | false =>
    rw [hs] at h
    exact ⟨rfl, (Prod.mk.inj (some.inj h)).1.symm, (Prod.mk.inj (some.inj h)).2.symm⟩
  | true =>
    rw [hs] at h
    cases h

/-- The state in which the array of `w` has its new place and size. -/
def State.placed (st : State) (w : Which) (a : ℕ) (answers : List ℕ) : State :=
  ({ st with answers := answers } : State).set w { st.get w with
    max := 2 * (st.get w).max, place := if st.slab then .slab else .block a }

theorem move_spec {a s z : ℕ} {l : List ℕ} (hI : Inv nodeMap st) (hroom : RoomToMove w st)
    (double : Doubling) (ha : st.slab = false →
      FreeArea st.reserved.regions a (allocSize nodeMap (2 * (st.get w).max)) ∧
      (w = .reserved → s ≠ 0 → s + z ≤ a ∨ a + allocSize nodeMap (2 * (st.get w).max) ≤ s)) :
    ∃ st', (freeOldArray nodeMap double (st.get w) (st.placed w a l) >>=
        reserveNewArray nodeMap double a (allocSize nodeMap (2 * (st.get w).max))) = .ok st' ∧
      Doubled nodeMap w s z st st' ∧ (st.Balanced → st'.Balanced) := by
  let st₂ := st.placed w a l
  let t' := st₂.get w
  have hmax : t'.max = 2 * (st.get w).max := by cases w <;> rfl
  have hr₂ : st₂.reserved.regions = st.reserved.regions := by cases w <;> rfl
  have hs₂ : st₂.slab = st.slab := by cases w <;> rfl
  have hroom₂ : st₂.reserved.regions.length + 2 ≤ st₂.reserved.max := by
    cases w with
    | memory => exact hroom rfl
    | reserved =>
      have h₁ : 128 ≤ st.reserved.max := hI.large .reserved
      have h₂ : st.reserved.regions.length ≤ st.reserved.max := hI.room .reserved
      show st.reserved.regions.length + 2 ≤ 2 * st.reserved.max
      omega
  have hok₂ : RegionsOk st₂.reserved.regions := hr₂ ▸ hI.regions .reserved
  obtain ⟨rs₃, sum₃, b₃, heq₃, hsum₃, hok₃, hlen₃, htidy₃, hnone₃, hsame₃⟩ :=
    freeOldArray_spec double hok₂ hroom₂ (hI.bounded w) fun x hx => hr₂ ▸ hI.live w x hx
  let st₃ : State := { st₂ with
    reserved := { st₂.reserved with regions := rs₃, totalSize := sum₃, warned := b₃ } }
  have hok₃' : RegionsOk st₃.reserved.regions := hok₃
  have hp : t'.place = if st₃.slab then .slab else .block a := by cases w <;> rfl
  have hroom₃ : st₃.reserved.regions.length + 1 ≤ st₃.reserved.max :=
    (Nat.succ_le_succ hlen₃).trans hroom₂
  rw [← hmax] at ha ⊢
  have hfree₃ : st₃.slab = false →
      FreeArea st₃.reserved.regions a (allocSize nodeMap t'.max) := fun hs => by
    have hfree := (ha (hs₂.symm.trans hs)).1
    refine ⟨fun x hx hx' => ?_, hfree.bounded⟩
    by_cases hin : InArray nodeMap (st.get w) x
    · exact hnone₃ x hin
    · exact (hsame₃ x hin).trans (hr₂ ▸ hfree.free x hx hx')
  obtain ⟨rs₄, sum₄, heq₄, hsum₄, hok₄, hlen₄, htidy₄, hnew₄, hsame₄⟩ :=
    reserveNewArray_spec double hok₃' hroom₃ hp hfree₃
  let st₄ : State :=
    { st₃ with reserved := { st₃.reserved with regions := rs₄, totalSize := sum₄ } }
  refine ⟨st₄, by rw [heq₃, ok_bind, heq₄], ?_, fun hbal v => ?_⟩
  · have hw₄ : (st₄.get w).max = t'.max ∧ (st₄.get w).place = t'.place := by
      cases w <;> exact ⟨rfl, rfl⟩
    have hin : ∀ x, InArray nodeMap (st₄.get w) x ↔ InArray nodeMap t' x := fun x =>
      inArray_congr hw₄.1 hw₄.2
    have hfresh : ∀ x, InArray nodeMap t' x → lookup st.reserved.regions x = none := by
      rintro x ⟨b, n, hb, h₁, h₂⟩
      obtain ⟨hs, rfl, rfl⟩ := area_of_place hp hb
      exact (ha (hs₂.symm.trans hs)).1.free x h₁ h₂
    refine .of_lookup hI ?_ (hw₄.1.trans hmax) (fun v hv => ?_) hok₄ ?_ ?_ (fun ht h2 => ?_)
      (fun x hx => ⟨hfresh x ((hin x).mp hx), hnew₄ x ((hin x).mp hx)⟩)
      (fun x hx hx' => ?_) (fun x hx hx' => ?_) (fun b n hb => ?_) fun hw hs0 x h₁ h₂ hx => ?_
    · cases w <;> rfl
    · cases v <;> cases w <;> first | exact absurd rfl hv | exact ⟨rfl, rfl⟩
    · exact hlen₄.trans (Nat.succ_le_succ (hr₂ ▸ hlen₃))
    · exact hlen₄.trans hroom₃
    · exact htidy₄ (htidy₃ (hr₂ ▸ ht) (hr₂ ▸ h2))
    · exact (hsame₄ x fun h => hx' ((hin x).mpr h)).trans (hnone₃ x hx)
    · exact (hsame₄ x fun h => hx' ((hin x).mpr h)).trans (hr₂ ▸ hsame₃ x hx)
    · have hb : t'.area nodeMap = some (b, n) := by
        rw [← hb]
        simp only [RegionType.area, hw₄.1, hw₄.2]
      obtain ⟨hs, rfl, rfl⟩ := area_of_place hp hb
      exact (ha (hs₂.symm.trans hs)).1.bounded
    · obtain ⟨b, n, hb, h₃, h₄⟩ := (hin x).mp (hw ▸ hx)
      obtain ⟨hs, rfl, rfl⟩ := area_of_place hp hb
      rcases (ha (hs₂.symm.trans hs)).2 hw hs0 with h | h
      · omega
      · exact absurd (h₄.trans_le h) (not_lt.mpr h₁)
  · have hres : st₂.reserved.Balanced := by
      cases w <;> exact hbal .reserved
    cases v
    · cases w <;> exact hbal .memory
    · exact ⟨hsum₄ (hsum₃ hres), (hsum₃ hres).2⟩

theorem memblockDoubleArray_spec (hI : Inv nodeMap st) (hroom : RoomToMove w st) (fuel s z : ℕ) :
    ∃ st' ok, memblockDoubleArray nodeMap (fuel + 1) w s z st = .ok (st', ok) ∧
      (ok = true → Doubled nodeMap w s z st st' ∧ (st.Balanced → st'.Balanced)) ∧
      (ok = false → NoMemory nodeMap w s z st ∧ st'.memory = st.memory ∧
        st'.reserved = st.reserved) := by
  rw [memblockDoubleArray]
  by_cases hc : st.canResize = false
  · rw [if_pos hc]
    exact ⟨st, false, rfl, by simp, fun _ => ⟨.inl hc, rfl, rfl⟩⟩
  · rw [if_neg hc]
    obtain ⟨a, l, hfind, ha⟩ := findArray_spec (hI.regions .memory) w s z
      (allocSize nodeMap (2 * (st.get w).max))
    simp only [hfind]
    by_cases ha0 : a = 0
    · rw [if_pos ha0]
      exact ⟨_, false, rfl, by simp, fun _ => ⟨.inr (by rw [hfind, ha0]), rfl, rfl⟩⟩
    · rw [if_neg ha0, if_neg (by
        rintro ⟨hs, ho⟩
        rw [not_clobbered hI (ha ha0 hs).1] at ho
        cases ho)]
      obtain ⟨st', heq, hdbl⟩ :=
        move_spec (l := l) hI hroom (memblockDoubleArray nodeMap fuel) (ha ha0)
      refine ⟨st', true, ?_, fun _ => hdbl, by simp⟩
      rw [← LawfulMonad.bind_assoc]
      exact congrArg (· >>= fun st => pure (st, true)) heq

end Cupcake.Mm.Memblock
