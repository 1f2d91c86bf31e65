import Cupcake.Lib.Pairing
import Cupcake.Mm.Memblock.Ranges

/-! `__next_mem_range` and `__next_mem_range_rev`: the parts of the regions of one array outside of
another one. The state is a pair of indices in one `u64`. -/

namespace Cupcake.Mm.Memblock

open List Segment

/-! ## The code -/

def numaNoNode : ℤ := -1

/-- Which regions are wanted; `movableNode` is `movable_node_is_enabled()`. -/
structure Query where
  nid : ℤ
  flags : ℕ
  movableNode : Bool

def memblockHotplug : ℕ := 1
def memblockMirror : ℕ := 2
def memblockNomap : ℕ := 4

/-- What the callers get: `*out_start`, `*out_end` and `*out_nid`. -/
structure MemRange where
  start : ℕ
  stop : ℕ
  nid : ℕ
  deriving DecidableEq, Repr

def skips (q : Query) (m : Region) : Bool :=
  let nid := if q.nid = maxNumnodes then numaNoNode else q.nid
  (nid ≠ numaNoNode ∧ nid ≠ m.attr.nid) ∨
  (q.movableNode ∧ m.attr.flags &&& memblockHotplug ≠ 0) ∨
  (q.flags &&& memblockMirror ≠ 0 ∧ m.attr.flags &&& memblockMirror = 0) ∨
  (q.flags &&& memblockNomap = 0 ∧ m.attr.flags &&& memblockNomap ≠ 0)

def idxA (idx : ℕ) : ℤ := Int.bmod idx (2 ^ 32)

def idxB (idx : ℕ) : ℤ := Int.bmod (idx / 2 ^ 32 : ℕ) (2 ^ 32)

/-- `(u32)idx_a | (u64)idx_b << 32` -/
def pack (i j : ℤ) : ℕ := (i % 2 ^ 32).toNat + 2 ^ 32 * (j % 2 ^ 32).toNat

def ulong (i : ℤ) : ℕ := (i % 2 ^ 64).toNat

def rStart (b : List Region) (j : ℕ) : ℕ := if j = 0 then 0 else (b[j - 1]?.map rend).getD 0

def rEnd (b : List Region) (j : ℕ) : ℕ := (b[j]?.map Segment.base).getD ullongMax

inductive Scan
  | found (j : ℕ)
  | past (j : ℕ)

def scan (b : List Region) (m : Region) : ℕ → ℕ → Scan
  | 0, j => .past j
  | n + 1, j =>
    if rStart b j ≥ rend m then .past j
    else if m.base < rEnd b j then .found j
    else scan b m n (j + 1)

def rangeIn (b : List Region) (m : Region) (j : ℕ) : MemRange :=
  ⟨max m.base (rStart b j), min (rend m) (rEnd b j), m.attr.nid⟩

/-- The outer loop of `__next_mem_range`, with `n` turns to go. -/
def nextFrom (q : Query) (a : List Region) (b : Option (List Region)) :
    ℕ → ℕ → ℕ → Option MemRange × ℕ
  | 0, _, _ => (none, ullongMax)
  | n + 1, i, j =>
    match a[i]? with
    | none => (none, ullongMax)
    | some m =>
      if skips q m then nextFrom q a b n (i + 1) j
      else
        match b with
        | none => (some ⟨m.base, rend m, m.attr.nid⟩, pack (i + 1) j)
        | some b' =>
          match scan b' m (b'.length + 1 - j) j with
          | .past j => nextFrom q a b n (i + 1) j
          | .found j =>
            (some (rangeIn b' m j), if rend m ≤ rEnd b' j then pack (i + 1) j else pack i (j + 1))

def nextMemRange (q : Query) (a : List Region) (b : Option (List Region)) (idx : ℕ) :
    Option MemRange × ℕ :=
  nextFrom q a b (a.length - ulong (idxA idx)) (ulong (idxA idx)) (ulong (idxB idx))

/-- The inner loop of `__next_mem_range_rev`, for the areas with index below `j`. -/
def scanRev (b : List Region) (m : Region) : ℕ → Scan
  | 0 => .past 0
  | j + 1 =>
    if rEnd b j ≤ m.base then .past (j + 1)
    else if rend m > rStart b j then .found j
    else scanRev b m j

/-- The outer loop of `__next_mem_range_rev`, for the regions with index below `i`. -/
def nextRevFrom (q : Query) (a : List Region) (b : Option (List Region)) :
    ℕ → ℕ → Option MemRange × ℕ
  | 0, _ => (none, ullongMax)
  | i + 1, j =>
    match a[i]? with
    | none => (none, ullongMax)
    | some m =>
      if skips q m then nextRevFrom q a b i j
      else
        match b with
        | none => (some ⟨m.base, rend m, m.attr.nid⟩, pack (i + 1) (j - 1))
        | some b' =>
          match scanRev b' m j with
          | .past j => nextRevFrom q a b i j
          | .found j =>
            (some (rangeIn b' m j), if m.base ≥ rStart b' j then pack (i - 1) j else pack i (j - 1))

/-- `none` is the access to `type_b->cnt` when there is no `type_b`. -/
def nextMemRangeRev (q : Query) (a : List Region) (b : Option (List Region)) (idx : ℕ) :
    Option (Option MemRange × ℕ) :=
  if idx = ullongMax then b.map fun b' => nextRevFrom q a b a.length (b'.length + 1)
  else some (nextRevFrom q a b (idxA idx + 1).toNat (idxB idx + 1).toNat)

/-- The ranges that `for_each_mem_range` and its reverse run over from `idx` on, if they end within
`n` calls. -/
def forEach (next : ℕ → Option (Option MemRange × ℕ)) : ℕ → ℕ → Option (List MemRange)
  | 0, _ => none
  | n + 1, idx => do
    let (range, idx') ← next idx
    if idx' = ullongMax then return []
    else return (← range) :: (← forEach next n idx')

def forEachMemRange (q : Query) (a b : List Region) (n : ℕ) : Option (List MemRange) :=
  forEach (fun idx => some (nextMemRange q a (some b) idx)) n 0

def forEachMemRangeRev (q : Query) (a b : List Region) (n : ℕ) : Option (List MemRange) :=
  forEach (nextMemRangeRev q a (some b)) n ullongMax

/-! ## Cursors -/

theorem pack_cast (i j : ℤ) :
    (pack i j : ℤ) = i % (2 ^ 32 : ℕ) + (2 ^ 32 : ℕ) * (j % (2 ^ 32 : ℕ)) := by
  unfold pack
  push_cast
  omega

theorem bmod_word {i : ℤ} (hi : -2 ^ 31 ≤ i) (hi' : i < 2 ^ 31) : i.bmod (2 ^ 32) = i := by
  apply Int.bmod_eq_of_le_mul_two
  · omega
  · omega

theorem idxA_pack {i : ℤ} (hi : -2 ^ 31 ≤ i) (hi' : i < 2 ^ 31) (j : ℤ) : idxA (pack i j) = i := by
  unfold idxA
  rw [pack_cast, Int.add_mul_bmod_self_left, Int.emod_bmod]
  exact bmod_word hi hi'

theorem idxB_pack {j : ℤ} (hj : -2 ^ 31 ≤ j) (hj' : j < 2 ^ 31) (i : ℤ) : idxB (pack i j) = j := by
  have hdiv : ((pack i j / 2 ^ 32 : ℕ) : ℤ) = j % (2 ^ 32 : ℕ) := by
    unfold pack
    omega
  unfold idxB
  rw [hdiv, Int.emod_bmod]
  exact bmod_word hj hj'

theorem ulong_natCast {i : ℕ} (hi : i < 2 ^ 64) : ulong i = i := by
  unfold ulong
  omega

theorem pack_ne {j : ℤ} (hj : 0 ≤ j) (hj' : j < 2 ^ 31) (i : ℤ) : pack i j ≠ ullongMax := by
  simp only [pack, ullongMax]
  omega

/-! ## Areas -/

variable {q : Query} {a b : List Region} {m : Region} {i j n : ℕ}

def areas (b : List Region) : List (ℕ × ℕ) :=
  (List.range (b.length + 1)).map fun j => (rStart b j, rEnd b j)

theorem length_areas : (areas b).length = b.length + 1 := by
  simp [areas]

theorem getElem_areas (hj : j ≤ b.length) : (areas b)[j]? = some (rStart b j, rEnd b j) := by
  simp [areas, Nat.lt_succ_of_le hj]

theorem drop_areas (hj : j ≤ b.length) :
    (areas b).drop j = (rStart b j, rEnd b j) :: (areas b).drop (j + 1) := by
  have h := drop_eq_getElem_cons (l := areas b) (i := j) (by rw [length_areas]; omega)
  rw [h]
  congr 1
  exact Option.some.inj ((List.getElem?_eq_getElem _).symm.trans (getElem_areas hj))

theorem take_areas (hj : j ≤ b.length) :
    ((areas b).take (j + 1)).reverse = (rStart b j, rEnd b j) :: ((areas b).take j).reverse := by
  rw [take_add_one, getElem_areas hj]
  simp

/-- Sorted regions that end by `ULLONG_MAX`. -/
structure Ordered (rs : List Region) : Prop where
  sorted : rs.Pairwise Before
  top : ∀ r ∈ rs, r.base + r.size ≤ ullongMax

theorem RegionsOk.ordered (h : RegionsOk b) : Ordered b := by
  obtain ⟨attr, rfl⟩ | h := h
  · refine ⟨pairwise_singleton .., fun r hr => ?_⟩
    obtain rfl := mem_singleton.mp hr
    exact Nat.zero_le _
  · exact ⟨h.wf.sorted, fun r hr => (h.wf.good r hr).2⟩

namespace Ordered

variable (h : Ordered b)

include h

theorem rend_eq (hm : m ∈ b) : rend m = m.base + m.size := Memblock.rend_eq (h.top m hm)

theorem rStart_succ (hm : b[j]? = some m) : rStart b (j + 1) = m.base + m.size := by
  rw [rStart, if_neg (by omega), Nat.add_sub_cancel, hm, Option.map_some, Option.getD_some,
    h.rend_eq (mem_of_getElem? hm)]

theorem before (hi : b[i]? = some m) {r : Region} (hj : b[j]? = some r) (hij : i < j) :
    m.base + m.size ≤ r.base := by
  obtain ⟨hi', rfl⟩ := List.getElem?_eq_some_iff.mp hi
  obtain ⟨hj', rfl⟩ := List.getElem?_eq_some_iff.mp hj
  exact pairwise_iff_getElem.mp h.sorted i j hi' hj' hij

theorem rStart_le_rEnd (hj : j ≤ b.length) : rStart b j ≤ rEnd b j := by
  cases j with
  | zero => exact Nat.zero_le _
  | succ j =>
    have hm : b[j]? = some b[j] := List.getElem?_eq_getElem (by omega)
    rw [h.rStart_succ hm, rEnd]
    cases hr : b[j + 1]? with
    | none => exact h.top _ (mem_of_getElem? hm)
    | some r => exact h.before hm hr (by omega)

theorem rEnd_le_rStart_succ (hj : j < b.length) : rEnd b j ≤ rStart b (j + 1) := by
  have hm : b[j]? = some b[j] := List.getElem?_eq_getElem hj
  rw [h.rStart_succ hm, rEnd, hm]
  exact Nat.le_add_right _ _

theorem rEnd_le_rStart (hij : i < j) (hj : j ≤ b.length) : rEnd b i ≤ rStart b j := by
  induction j, hij using Nat.le_induction with
  | base => exact h.rEnd_le_rStart_succ hj
  | succ j hij ih =>
    calc rEnd b i ≤ rStart b j := ih (by omega)
      _ ≤ rEnd b j := h.rStart_le_rEnd (by omega)
      _ ≤ rStart b (j + 1) := h.rEnd_le_rStart_succ hj

theorem rStart_mono (hij : i ≤ j) (hj : j ≤ b.length) : rStart b i ≤ rStart b j := by
  obtain rfl | hlt := hij.eq_or_lt
  · rfl
  · exact (h.rStart_le_rEnd (by omega)).trans (h.rEnd_le_rStart hlt hj)

theorem rEnd_mono (hij : i ≤ j) (hj : j ≤ b.length) : rEnd b i ≤ rEnd b j := by
  obtain rfl | hlt := hij.eq_or_lt
  · rfl
  · exact (h.rEnd_le_rStart hlt hj).trans (h.rStart_le_rEnd hj)

theorem areas_sorted : (areas b).Pairwise fun g g' => g.2 ≤ g'.1 := by
  rw [areas, pairwise_map]
  apply pairwise_lt_range.imp_of_mem
  intro i j _ hj hij
  exact h.rEnd_le_rStart hij (Nat.lt_succ_iff.mp (mem_range.mp hj))

end Ordered

/-! ## Pairs of a region and an area -/

def meet (m : Region) (g : ℕ × ℕ) : Option MemRange :=
  if g.1 < rend m ∧ m.base < g.2 then some ⟨max m.base g.1, min (rend m) g.2, m.attr.nid⟩ else none

theorem meet_area (h : rStart b j < rend m) (h' : m.base < rEnd b j) :
    meet m (rStart b j, rEnd b j) = some (rangeIn b m j) :=
  if_pos ⟨h, h'⟩

theorem meet_of_le_start {g : ℕ × ℕ} (h : rend m ≤ g.1) : meet m g = none :=
  if_neg fun hg => absurd hg.1 (by omega)

theorem meet_of_stop_le {g : ℕ × ℕ} (h : g.2 ≤ m.base) : meet m g = none :=
  if_neg fun hg => absurd hg.2 (by omega)

def ahead (q : Query) (a b : List Region) (i j : ℕ) : List MemRange :=
  pairs meet ((a.drop i).filter fun m => !skips q m) ((areas b).drop j)

def behind (q : Query) (a b : List Region) (i j : ℕ) : List MemRange :=
  pairs meet ((a.take i).reverse.filter fun m => !skips q m) ((areas b).take j).reverse

theorem mem_drop_areas {g : ℕ × ℕ} (hg : g ∈ (areas b).drop j) :
    ∃ k, j ≤ k ∧ k ≤ b.length ∧ g = (rStart b k, rEnd b k) := by
  obtain ⟨k, hk, rfl⟩ := mem_drop_iff_getElem.mp hg
  rw [length_areas] at hk
  refine ⟨j + k, by omega, by omega, ?_⟩
  simp [areas]

theorem mem_take_areas {g : ℕ × ℕ} (hg : g ∈ (areas b).take j) :
    ∃ k, k < j ∧ k ≤ b.length ∧ g = (rStart b k, rEnd b k) := by
  obtain ⟨k, hk, rfl⟩ := mem_take_iff_getElem.mp hg
  rw [length_areas] at hk
  refine ⟨k, by omega, by omega, ?_⟩
  simp [areas]

end Cupcake.Mm.Memblock
