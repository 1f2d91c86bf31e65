import Cupcake.Lib.Mask
import Cupcake.Mm.Memblock.FreeRanges

/-! `memblock_find_in_range_node`: the lowest or the highest aligned address with enough free
memory behind it. -/

namespace Cupcake.Mm.Memblock

/-! ## The code -/

/-- `round_up` of a `phys_addr_t` -/
def roundUp (x y : ℕ) : ℕ := wadd 64 (wsub 64 x 1 ||| (y - 1)) 1

def roundDown (x y : ℕ) : ℕ := x &&& (2 ^ 64 - 1 - (y - 1))

def clamp (x lo hi : ℕ) : ℕ := min (max x lo) hi

/-- The body of the loop of `__memblock_find_range_bottom_up`. -/
def bottomUpIn (start stop size align : ℕ) (o : MemRange) : Option ℕ :=
  let thisEnd := clamp o.stop start stop
  let cand := roundUp (clamp o.start start stop) align
  if cand < thisEnd ∧ size ≤ thisEnd - cand then some cand else none

/-- The body of the loop of `__memblock_find_range_top_down`. -/
def topDownIn (start stop size align : ℕ) (o : MemRange) : Option ℕ :=
  let thisEnd := clamp o.stop start stop
  if thisEnd < size then none
  else
    let cand := roundDown (thisEnd - size) align
    if clamp o.start start stop ≤ cand then some cand else none

/-- `struct memblock` and what else the search reads. -/
structure Setup where
  memory : List Region
  reserved : List Region
  bottomUp : Bool
  currentLimit : ℕ
  kernelEnd : ℕ

def memblockFindRangeBottomUp (mb : Setup) (q : Query) (start stop size align n : ℕ) : Option ℕ :=
  (forEachMemRange q mb.memory mb.reserved n).map fun L =>
    (L.findSome? (bottomUpIn start stop size align)).getD 0

def memblockFindRangeTopDown (mb : Setup) (q : Query) (start stop size align n : ℕ) : Option ℕ :=
  (forEachMemRangeRev q mb.memory mb.reserved n).map fun L =>
    (L.findSome? (topDownIn start stop size align)).getD 0

def memblockAllocAccessible : ℕ := 0

/-- `start` is `max_t(phys_addr_t, start, PAGE_SIZE)` from here on. -/
def lowBound (start : ℕ) : ℕ := max start pageSize

def highBound (mb : Setup) (start stop : ℕ) : ℕ :=
  max (lowBound start) (if stop = memblockAllocAccessible then mb.currentLimit else stop)

/-- `none` if a loop has not ended after `n` turns. -/
def memblockFindInRangeNode (mb : Setup) (q : Query) (size align start stop n : ℕ) : Option ℕ := do
  let stop := highBound mb start stop
  let start := lowBound start
  if mb.bottomUp ∧ mb.kernelEnd < stop then
    let ret ← memblockFindRangeBottomUp mb q (max start mb.kernelEnd) stop size align n
    if ret ≠ 0 then return ret
  memblockFindRangeTopDown mb q start stop size align n

/-! ## What is looked for -/

def FreeAt (mb : Setup) (q : Query) (size r : ℕ) : Prop :=
  ∃ m ∈ mb.memory, skips q m = false ∧ m.base ≤ r ∧ r + size ≤ m.base + m.size ∧
    FreeBetween mb.reserved r (r + size)

/-- An aligned address in the bounds with `size` free bytes. -/
structure Fits (mb : Setup) (q : Query) (size align lo hi r : ℕ) : Prop where
  dvd : align ∣ r
  le : lo ≤ r
  le_end : r + size ≤ hi
  free : FreeAt mb q size r

def Yielded (mb : Setup) (q : Query) (size r : ℕ) : Prop :=
  ∃ n L, forEachMemRange q mb.memory mb.reserved n = some L ∧
    ∃ o ∈ L, o.start ≤ r ∧ r + size ≤ o.stop

/-! ## Rounding -/

variable {x k size start stop lo hi n : ℕ} {mb : Setup} {q : Query} {o : MemRange}

theorem roundUp_least (hx : 0 < x) (hx' : x < 2 ^ 64) (hk : k < 64) :
    IsLeast {y | 2 ^ k ∣ y ∧ x ≤ y} (roundUp x (2 ^ k)) ∨
      roundUp x (2 ^ k) = 0 ∧ ∀ y, 2 ^ k ∣ y → x ≤ y → 2 ^ 64 ≤ y := by
  have hpos := Nat.two_pow_pos k
  have hmod := Nat.div_add_mod (x - 1) (2 ^ k)
  have hlt := Nat.mod_lt (x - 1) hpos
  set c := ((x - 1) / 2 ^ k + 1) * 2 ^ k with hc
  have hc' : c = 2 ^ k * ((x - 1) / 2 ^ k) + 2 ^ k := by
    rw [hc]
    ring
  have hround : roundUp x (2 ^ k) = c % 2 ^ 64 := by
    rw [roundUp, wsub_of_le hx hx', or_low_mask, wadd, add_assoc, Nat.sub_add_cancel hpos, hc,
      Nat.succ_mul]
  have hmin : ∀ y, 2 ^ k ∣ y → x ≤ y → c ≤ y := by
    rintro _ ⟨z, rfl⟩ hy
    rw [hc, mul_comm (2 ^ k)]
    refine Nat.mul_le_mul_right _ ((Nat.div_lt_iff_lt_mul hpos).mpr ?_)
    rw [mul_comm]
    omega
  obtain hlo | hhi := lt_or_ge c (2 ^ 64)
  · rw [hround, Nat.mod_eq_of_lt hlo]
    exact .inl ⟨⟨Dvd.intro_left _ rfl, by omega⟩, fun y hy => hmin y hy.1 hy.2⟩
  · -- the multiple after the last one below `2 ^ 64`
    have htop : c ≤ 2 ^ 64 := hmin _ (pow_dvd_pow 2 hk.le) hx'.le
    refine .inr ⟨?_, fun y hy hxy => hhi.trans (hmin y hy hxy)⟩
    rw [hround, le_antisymm htop hhi, Nat.mod_self]

theorem roundDown_greatest (hx : x < 2 ^ 64) (hk : k < 64) :
    IsGreatest {y | 2 ^ k ∣ y ∧ y ≤ x} (roundDown x (2 ^ k)) := by
  rw [roundDown, and_high_mask hx hk.le]
  refine ⟨⟨Dvd.intro_left _ rfl, Nat.div_mul_le_self ..⟩, ?_⟩
  rintro _ ⟨⟨z, rfl⟩, hy⟩
  rw [mul_comm (2 ^ k)] at hy ⊢
  exact Nat.mul_le_mul_right _ ((Nat.le_div_iff_mul_le (Nat.two_pow_pos k)).mpr hy)

/-! ## One range -/

def Best (r : ℕ → ℕ → Prop) (S : Set ℕ) (c : ℕ) : Prop :=
  c ∈ S ∧ (∀ x ∈ S, r c x) ∨ c = 0 ∧ S = ∅

def inRange (size align lo hi : ℕ) (o : MemRange) : Set ℕ :=
  {x | align ∣ x ∧ lo ≤ x ∧ x + size ≤ hi ∧ o.start ≤ x ∧ x + size ≤ o.stop}

section

variable (hsize : 0 < size) (hlo : 0 < lo) (hle : lo ≤ hi) (hhi : hi < 2 ^ 64) (hk : k < 64)

include hsize hlo hle hhi hk

theorem bottomUpIn_best :
    Best (· ≤ ·) (inRange size (2 ^ k) lo hi o) ((bottomUpIn lo hi size (2 ^ k) o).getD 0) ∧
      (bottomUpIn lo hi size (2 ^ k) o = some 0 → ∀ y, 2 ^ k ∣ y → max o.start lo ≤ y → hi ≤ y) := by
  have hstart : ∀ {y}, max o.start lo ≤ y → clamp o.start lo hi ≤ y := (min_le_left ..).trans
  have hpos : 0 < clamp o.start lo hi := lt_min (hlo.trans_le (le_max_right ..)) (hlo.trans_le hle)
  have hlt : clamp o.start lo hi < 2 ^ 64 := (min_le_right ..).trans_lt hhi
  unfold bottomUpIn
  obtain ⟨⟨hdvd, hge⟩, hmin⟩ | ⟨hzero, htop⟩ := roundUp_least hpos hlt hk
  · have hmem : ∀ y ∈ inRange size (2 ^ k) lo hi o,
        roundUp (clamp o.start lo hi) (2 ^ k) ≤ y :=
      fun y hy => hmin ⟨hy.1, hstart (max_le hy.2.2.2.1 hy.2.1)⟩
    dsimp only
    split_ifs with hfit
    · rw [Option.getD_some]
      refine ⟨.inl ⟨⟨hdvd, ?_⟩, hmem⟩, fun h => ?_⟩
      · simp only [clamp] at hge hfit ⊢
        omega
      · have := Option.some.inj h
        omega
    · refine ⟨.inr ⟨rfl, Set.eq_empty_of_forall_notMem fun y hy => hfit ?_⟩, False.elim⟩
      have hy' := hmem y hy
      obtain ⟨-, h₁, h₂, h₃, h₄⟩ := hy
      simp only [clamp] at hy' ⊢
      omega
  · have hempty : inRange size (2 ^ k) lo hi o = ∅ := by
      refine Set.eq_empty_of_forall_notMem fun y hy => ?_
      have := htop y hy.1 (hstart (max_le hy.2.2.2.1 hy.2.1))
      have := hy.2.2.1
      omega
    dsimp only
    rw [hzero]
    split_ifs
    · exact ⟨.inr ⟨rfl, hempty⟩, fun _ y hy hs => hhi.le.trans (htop y hy (hstart hs))⟩
    · exact ⟨.inr ⟨rfl, hempty⟩, False.elim⟩

theorem topDownIn_best :
    Best (· ≥ ·) (inRange size (2 ^ k) lo hi o) ((topDownIn lo hi size (2 ^ k) o).getD 0) ∧
      topDownIn lo hi size (2 ^ k) o ≠ some 0 := by
  have hlt : clamp o.stop lo hi < 2 ^ 64 := (min_le_right ..).trans_lt hhi
  obtain ⟨⟨hdvd, hge⟩, hmax⟩ := roundDown_greatest (x := clamp o.stop lo hi - size) (by omega) hk
  have hmem : ∀ y ∈ inRange size (2 ^ k) lo hi o, size ≤ clamp o.stop lo hi ∧
      y ≤ roundDown (clamp o.stop lo hi - size) (2 ^ k) := by
    rintro y ⟨h, h₁, h₂, h₃, h₄⟩
    have : y + size ≤ clamp o.stop lo hi := le_min (h₄.trans (le_max_left ..)) h₂
    exact ⟨by omega, hmax ⟨h, by omega⟩⟩
  have hpos : 0 < clamp o.start lo hi := lt_min (hlo.trans_le (le_max_right ..)) (hlo.trans_le hle)
  unfold topDownIn
  dsimp only
  split_ifs with hshort hfit
  · refine ⟨.inr ⟨rfl, Set.eq_empty_of_forall_notMem fun y hy => ?_⟩, (Option.some_ne_none 0).symm⟩
    exact absurd (hmem y hy).1 (not_le.mpr hshort)
  · refine ⟨.inl ⟨⟨hdvd, ?_⟩, fun y hy => (hmem y hy).2⟩, fun h => ?_⟩
    · simp only [clamp, Option.getD_some] at hge hfit hshort ⊢
      omega
    · have := Option.some.inj h
      omega
  · refine ⟨.inr ⟨rfl, Set.eq_empty_of_forall_notMem fun y hy => hfit ?_⟩, (Option.some_ne_none 0).symm⟩
    have hy' := (hmem y hy).2
    obtain ⟨-, h₁, h₂, h₃, h₄⟩ := hy
    simp only [clamp] at hy' ⊢
    omega

end

/-! ## The search -/

theorem best_findSome {r : ℕ → ℕ → Prop} {S : MemRange → Set ℕ} {f : MemRange → Option ℕ}
    {L : List MemRange} (hf : ∀ o ∈ L, 0 ∉ S o ∧ Best r (S o) ((f o).getD 0))
    (hs : L.Pairwise fun o o' => (∀ x ∈ S o, ∀ y ∈ S o', r x y) ∧ (f o = some 0 → S o' = ∅)) :
    Best r {x | ∃ o ∈ L, x ∈ S o} ((L.findSome? f).getD 0) := by
  induction L with
  | nil => exact .inr ⟨rfl, by simp⟩
  | cons o L ih =>
    rw [List.pairwise_cons] at hs
    obtain ⟨hzero, hbest⟩ := hf o List.mem_cons_self
    have ih := ih (fun o ho => hf o (List.mem_cons_of_mem _ ho)) hs.2
    simp only [List.mem_cons, exists_eq_or_imp, List.findSome?_cons]
    cases hfo : f o with
    | none =>
      rw [hfo, Option.getD_none] at hbest
      obtain ⟨hmem, -⟩ | ⟨-, hempty⟩ := hbest
      · exact absurd hmem hzero
      · simpa [hempty] using ih
    | some c =>
      rw [hfo, Option.getD_some] at hbest
      obtain ⟨hmem, hfirst⟩ | ⟨rfl, hempty⟩ := hbest
      · refine .inl ⟨.inl hmem, ?_⟩
        rintro x (hx | ⟨o', ho', hx⟩)
        · exact hfirst x hx
        · exact (hs.1 o' ho').1 c hmem x hx
      · refine .inr ⟨rfl, Set.eq_empty_of_forall_notMem ?_⟩
        rintro x (hx | ⟨o', ho', hx⟩)
        · exact hempty.le hx
        · exact ((hs.1 o' ho').2 hfo).le hx

section

variable (ha : ArrayOk mb.memory) (hb : ArrayOk mb.reserved)

include ha hb

theorem freeAt_iff (hsize : 0 < size) : FreeAt mb q size x ↔
    ∃ o ∈ ahead q mb.memory mb.reserved 0 0, o.start ≤ x ∧ x + size ≤ o.stop := by
  simp only [FreeAt, mem_ahead]
  constructor
  · rintro ⟨m, hm, hs, hbase, hend, hfree⟩
    have hrend := ha.ok.ordered.rend_eq hm
    have htop := ha.ok.ordered.top m hm
    obtain ⟨j, hj, hstart, hstop⟩ :=
      hb.ok.ordered.exists_area (hfree x le_rfl (by omega)) (by omega)
    have hle := hb.ok.le_rEnd hj hstop hfree (by omega)
    exact ⟨rangeIn mb.reserved m j, ⟨m, hm, hs, j, hj, meet_eq_some.mpr ⟨by omega, by omega, rfl⟩⟩,
      max_le hbase hstart, le_min (hrend ▸ hend) hle⟩
  · rintro ⟨o, ⟨m, hm, hs, j, hj, ho⟩, hstart, hstop⟩
    obtain ⟨-, -, rfl⟩ := meet_eq_some.mp ho
    have hrend := ha.ok.ordered.rend_eq hm
    refine ⟨m, hm, hs, (le_max_left ..).trans hstart, hrend ▸ hstop.trans (min_le_left ..), ?_⟩
    intro y hy hy'
    exact hb.ok.ordered.freeBetween_area hj y ((le_max_right ..).trans (hstart.trans hy))
      (hy'.trans_le (hstop.trans (min_le_right ..)))

theorem yielded_of_freeAt (hsize : 0 < size) (h : FreeAt mb q size x) : Yielded mb q size x :=
  ⟨_, _, forEachMemRange_eq q ha.ok.ordered hb.ok.ordered ha.short hb.short,
    (freeAt_iff ha hb hsize).mp h⟩

theorem setOf_fits (hsize : 0 < size) {align : ℕ} : {x | Fits mb q size align lo hi x} =
    {x | ∃ o ∈ ahead q mb.memory mb.reserved 0 0, x ∈ inRange size align lo hi o} := by
  ext x
  constructor
  · rintro ⟨hdvd, hlo, hhi, hfree⟩
    obtain ⟨o, ho, hstart, hstop⟩ := (freeAt_iff ha hb hsize).mp hfree
    exact ⟨o, ho, hdvd, hlo, hhi, hstart, hstop⟩
  · rintro ⟨o, ho, hdvd, hlo, hhi, hstart, hstop⟩
    exact ⟨hdvd, hlo, hhi, (freeAt_iff ha hb hsize).mpr ⟨o, ho, hstart, hstop⟩⟩

theorem start_le_stop (ho : o ∈ ahead q mb.memory mb.reserved 0 0) : o.start ≤ o.stop := by
  obtain ⟨m, hm, -, j, hj, ho⟩ := mem_ahead.mp ho
  obtain ⟨h, h', rfl⟩ := meet_eq_some.mp ho
  exact max_le (le_min (ha.ok.ordered.base_le_rend hm) h'.le)
    (le_min h.le (hb.ok.ordered.rStart_le_rEnd hj))

section

variable (hsize : 0 < size) (hlo : 0 < lo) (hle : lo ≤ hi) (hhi : hi < 2 ^ 64) (hk : k < 64)

include hsize hlo hle hhi hk

theorem bottomUp_best : ∃ c, Best (· ≤ ·) {x | Fits mb q size (2 ^ k) lo hi x} c ∧
      memblockFindRangeBottomUp mb q lo hi size (2 ^ k)
        ((ahead q mb.memory mb.reserved 0 0).length + 1) = some c := by
  have hrun := forEachMemRange_eq q ha.ok.ordered hb.ok.ordered ha.short hb.short
  have hsort := ahead_sorted (q := q) ha.ok.ordered hb.ok.ordered
  refine ⟨_, ?_, congrArg (Option.map _) hrun⟩
  rw [setOf_fits ha hb hsize]
  refine best_findSome (fun o _ => ⟨fun h => absurd h.2.1 (by omega),
    (bottomUpIn_best hsize hlo hle hhi hk).1⟩) (hsort.imp_of_mem fun {o o'} ho _ hoo => ⟨?_, ?_⟩)
  · rintro x ⟨-, -, -, -, hx⟩ y ⟨-, -, -, hy, -⟩
    omega
  · intro hzero
    refine Set.eq_empty_of_forall_notMem fun y hy => ?_
    have := start_le_stop ha hb ho
    obtain ⟨hdvd, h₁, h₂, h₃, -⟩ := hy
    have := (bottomUpIn_best hsize hlo hle hhi hk).2 hzero y hdvd (max_le (by omega) h₁)
    omega

theorem topDown_best : ∃ c, Best (· ≥ ·) {x | Fits mb q size (2 ^ k) lo hi x} c ∧
      memblockFindRangeTopDown mb q lo hi size (2 ^ k)
        ((ahead q mb.memory mb.reserved 0 0).length + 1) = some c := by
  have hrun := forEachMemRangeRev_eq q ha.ok.ordered hb.ok.ordered ha.short hb.short
  have hsort := ahead_sorted (q := q) ha.ok.ordered hb.ok.ordered
  refine ⟨_, ?_, congrArg (Option.map _) hrun⟩
  rw [setOf_fits ha hb hsize]
  have hrev (o) : o ∈ ahead q mb.memory mb.reserved 0 0 ↔
      o ∈ (ahead q mb.memory mb.reserved 0 0).reverse := List.mem_reverse.symm
  simp only [hrev]
  refine best_findSome (fun o _ => ⟨fun h => absurd h.2.1 (by omega),
    (topDownIn_best hsize hlo hle hhi hk).1⟩)
    ((List.pairwise_reverse.mpr hsort).imp fun {o o'} hoo => ⟨?_, ?_⟩)
  · rintro x ⟨-, -, -, hx, -⟩ y ⟨-, -, -, -, hy⟩
    omega
  · exact fun hzero => absurd hzero (topDownIn_best hsize hlo hle hhi hk).2

end

end

/-- What the address found by a call is. -/
structure Found (mb : Setup) (q : Query) (size align start stop r : ℕ) : Prop where
  fits : r ≠ 0 → Fits mb q size align (lowBound start) (highBound mb start stop) r ∧
    Yielded mb q size r
  lowest : mb.bottomUp → mb.kernelEnd < highBound mb start stop → ∀ x,
    Fits mb q size align (max (lowBound start) mb.kernelEnd) (highBound mb start stop) x →
    IsLeast {x | Fits mb q size align (max (lowBound start) mb.kernelEnd)
      (highBound mb start stop) x} r
  highest : r ≠ 0 → (mb.bottomUp → mb.kernelEnd < highBound mb start stop → ∀ x,
    ¬ Fits mb q size align (max (lowBound start) mb.kernelEnd) (highBound mb start stop) x) →
    IsGreatest {x | Fits mb q size align (lowBound start) (highBound mb start stop) x} r
  complete : r = 0 → ∀ x, ¬ Fits mb q size align (lowBound start) (highBound mb start stop) x

theorem Fits.mono {align lo' : ℕ} (hlo : lo ≤ lo') (h : Fits mb q size align lo' hi x) :
    Fits mb q size align lo hi x :=
  ⟨h.dvd, hlo.trans h.le, h.le_end, h.free⟩

/-- The search finds the lowest or the highest fitting address, and zero if there is none. -/
theorem memblockFindInRangeNode_found (mb : Setup) (q : Query) (ha : ArrayOk mb.memory)
    (hb : ArrayOk mb.reserved) (hsize : 0 < size) (hk : k < 64) (hstart : start < 2 ^ 64)
    (hstop : stop < 2 ^ 64) (hlimit : mb.currentLimit < 2 ^ 64) :
    ∃ r n, memblockFindInRangeNode mb q size (2 ^ k) start stop n = some r ∧
      Found mb q size (2 ^ k) start stop r := by
  have hlo : 0 < lowBound start := lt_max_of_lt_right (by decide)
  have hle : lowBound start ≤ highBound mb start stop := le_max_left ..
  have hhi : highBound mb start stop < 2 ^ 64 := by
    refine max_lt (max_lt hstart (by decide)) ?_
    split_ifs
    · exact hlimit
    · exact hstop
  obtain ⟨c, hbest, hrun⟩ := topDown_best (q := q) ha hb hsize hlo hle hhi hk
  rw [exists_comm]
  refine ⟨(ahead q mb.memory mb.reserved 0 0).length + 1, ?_⟩
  have hfits {r} (h : Fits mb q size (2 ^ k) (lowBound start) (highBound mb start stop) r) :
      Fits mb q size (2 ^ k) (lowBound start) (highBound mb start stop) r ∧ Yielded mb q size r :=
    ⟨h, yielded_of_freeAt ha hb hsize h.free⟩
  -- without a result from the bottom-up search, the top-down one decides
  have hdown (hnone : mb.bottomUp → mb.kernelEnd < highBound mb start stop → ∀ x,
      ¬ Fits mb q size (2 ^ k) (max (lowBound start) mb.kernelEnd) (highBound mb start stop) x) :
      Found mb q size (2 ^ k) start stop c := by
    obtain ⟨hmem, hfirst⟩ | ⟨rfl, hempty⟩ := hbest
    · refine ⟨fun _ => hfits hmem, fun h₁ h₂ x hx => absurd hx (hnone h₁ h₂ x),
        fun _ _ => ⟨hmem, hfirst⟩, ?_⟩
      rintro rfl
      exact absurd hmem.le (not_le.mpr hlo)
    · exact ⟨fun h => absurd rfl h, fun h₁ h₂ x hx => absurd hx (hnone h₁ h₂ x),
        fun h => absurd rfl h, fun _ x hx => hempty.le hx⟩
  by_cases hup : mb.bottomUp ∧ mb.kernelEnd < highBound mb start stop
  · obtain ⟨c', hbest', hrun'⟩ := bottomUp_best (q := q) ha hb hsize (lt_max_of_lt_left hlo)
      (max_le hle hup.2.le) hhi hk
    obtain ⟨hmem, hfirst⟩ | ⟨rfl, hempty⟩ := hbest'
    · have hpos : 0 < c' := hlo.trans_le ((le_max_left ..).trans hmem.le)
      refine ⟨c', ?_, fun _ => hfits (hmem.mono (le_max_left ..)),
        fun _ _ _ _ => ⟨hmem, hfirst⟩, fun _ h => absurd hmem (h hup.1 hup.2 c'),
        fun h => absurd h hpos.ne'⟩
      rw [memblockFindInRangeNode, if_pos hup, hrun']
      simp [hpos.ne']
    · refine ⟨c, ?_, hdown fun _ _ x hx => hempty.le hx⟩
      rw [memblockFindInRangeNode, if_pos hup, hrun']
      exact hrun
  · refine ⟨c, ?_, hdown fun h h' => absurd ⟨h, h'⟩ hup⟩
    rw [memblockFindInRangeNode, if_neg hup]
    exact hrun

theorem memblockFindInRangeNode_page :
    ∃ r n, memblockFindInRangeNode ⟨[⟨0x1000, 0x8000, ⟨0, 0⟩⟩], [⟨0x3000, 0x1000, ⟨0, 0⟩⟩], true,
        ullongMax, 0x3800⟩ anyRegion 0x1000 (2 ^ 12) 0 0 n = some r ∧
      Found ⟨[⟨0x1000, 0x8000, ⟨0, 0⟩⟩], [⟨0x3000, 0x1000, ⟨0, 0⟩⟩], true, ullongMax, 0x3800⟩
        anyRegion 0x1000 (2 ^ 12) 0 0 r :=
  memblockFindInRangeNode_found _ anyRegion
    ⟨.inr (tidy_singleton (by decide) (by decide)), by decide⟩
    ⟨.inr (tidy_singleton (by decide) (by decide)), by decide⟩
    (by decide) (by decide) (by decide) (by decide) (by decide)

end Cupcake.Mm.Memblock
