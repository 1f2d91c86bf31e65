import Cupcake.Lib.Page
import Cupcake.Lib.Run
import Cupcake.Lib.Segments

/-! The region arrays of `memblock.c`, and the doubling of an array, which itself frees and
reserves ranges. A `BUG_ON` that fires is an error. -/

namespace Cupcake.Mm.Memblock

structure Attr where
  nid : ℕ
  flags : ℕ
  deriving DecidableEq, Repr

abbrev Region := Segment Attr

def rend (r : Region) : ℕ := wadd 64 r.base r.size

/-- Where the array of a type lives: the initial one, one from the slab allocator, or
one from memblock at a physical address. -/
inductive Place
  | static | slab | block (addr : ℕ)
  deriving DecidableEq, Repr

/-- `struct memblock_type`; `cnt` is the length of the list. `warned` records that the `WARN_ON` of
`memblock_remove_region` has fired for the type. -/
structure RegionType where
  regions : List Region
  max : ℕ
  totalSize : ℕ
  place : Place
  warned : Bool
  deriving DecidableEq, Repr

inductive Which
  | memory | reserved
  deriving DecidableEq, Repr

/-- `struct memblock` with the globals beside it. `answers` is what the searches for
memory come back with during a call, in order. -/
structure State where
  memory : RegionType
  reserved : RegionType
  currentLimit : ℕ
  canResize : Bool
  slab : Bool
  answers : List ℕ
  deriving DecidableEq, Repr

namespace State

def get (st : State) : Which → RegionType
  | .memory => st.memory
  | .reserved => st.reserved

def set (st : State) : Which → RegionType → State
  | .memory, t => { st with memory := t }
  | .reserved, t => { st with reserved := t }

end State

inductive Fault
  /-- `BUG_ON(type->cnt >= type->max)` in `memblock_insert_region` -/
  | full
  /-- the `BUG_ON` in `memblock_merge_regions` -/
  | overlap
  /-- the array was moved on top of an array in use -/
  | clobbered
  /-- more nested calls or more doublings than there can be -/
  | depth
  /-- `BUG_ON(memblock_reserve(…))` in `memblock_double_array`: no memory left -/
  | reserveFailed
  deriving DecidableEq, Repr

def initMemblockRegions : ℕ := 128
def maxNumnodes : ℕ := 1

def ullongMax : ℕ := 2 ^ 64 - 1

def capSize (base size : ℕ) : ℕ := min size (ullongMax - base)

/-! ## Inside one array -/

def memblockInsertRegion (max cnt base size : ℕ) (attr : Attr) (rs : List Region) :
    Except Fault (List Region) :=
  if cnt ≥ max then .error .full else .ok (⟨base, size, attr⟩ :: rs)

/-- The end of `memblock_add_range`'s loop in front of `rs`: the remaining portion. -/
def addRest (max : ℕ) (insert : Bool) (attr : Attr) (stop base cnt : ℕ) (rs : List Region) :
    Except Fault (List Region × ℕ) :=
  if base < stop then
    if insert then do
      let rs' ← memblockInsertRegion max cnt base (stop - base) attr rs
      return (rs', 1)
    else .ok (rs, 1)
  else .ok (rs, 0)

/-- The loop of `memblock_add_range` from an index on, with `cnt` regions in the array:
the rest of the array, and `nr_new`. -/
def addPass (max : ℕ) (insert : Bool) (attr : Attr) (stop : ℕ) :
    ℕ → ℕ → List Region → Except Fault (List Region × ℕ)
  | base, cnt, [] => addRest max insert attr stop base cnt []
  | base, cnt, r :: rs =>
    if r.base ≥ stop then addRest max insert attr stop base cnt (r :: rs)
    else if rend r ≤ base then do
      let (rs', n) ← addPass max insert attr stop base cnt rs
      return (r :: rs', n)
    else if r.base > base then
      if insert then do
        let new ← memblockInsertRegion max cnt base (r.base - base) attr []
        let (rs', n) ← addPass max insert attr stop (min (rend r) stop) (cnt + 1) rs
        return (new ++ r :: rs', n + 1)
      else do
        let (rs', n) ← addPass max insert attr stop (min (rend r) stop) cnt rs
        return (r :: rs', n + 1)
    else do
      let (rs', n) ← addPass max insert attr stop (min (rend r) stop) cnt rs
      return (r :: rs', n)

/-- The loop of `memblock_merge_regions` with `this` in hand. -/
def mergeFrom (this : Region) : List Region → Except Fault (List Region)
  | [] => .ok [this]
  | next :: rs =>
    if rend this ≠ next.base ∨ this.attr.nid ≠ next.attr.nid ∨
        this.attr.flags ≠ next.attr.flags then
      if rend this > next.base then .error .overlap
      else do
        let rs' ← mergeFrom next rs
        return this :: rs'
    else mergeFrom { this with size := wadd 64 this.size next.size } rs

def memblockMergeRegions : List Region → Except Fault (List Region)
  | [] => .ok []
  | r :: rs => mergeFrom r rs

/-- The loop of `memblock_isolate_range` at index `i`, with `cnt` regions in the array:
the rest of the array, and `start_rgn` and `end_rgn`. A split takes from `total_size` what
the insertion adds to it. -/
def isolateLoop (max base stop : ℕ) :
    ℕ → ℕ → ℕ → ℕ × ℕ → List Region → Except Fault (List Region × ℕ × ℕ)
  | _, _, _, se, [] => .ok ([], se)
  | 0, _, _, _, _ :: _ => .error .depth
  | fuel + 1, i, cnt, se, r :: rs =>
    if r.base ≥ stop then .ok (r :: rs, se)
    else if rend r ≤ base then do
      let (rs', se') ← isolateLoop max base stop fuel (i + 1) cnt se rs
      return (r :: rs', se')
    else if r.base < base then do
      let new ← memblockInsertRegion max cnt r.base (base - r.base) r.attr []
      let (rs', se') ← isolateLoop max base stop fuel (i + 1) (cnt + 1) se
        ({ r with base := base, size := r.size - (base - r.base) } :: rs)
      return (new ++ rs', se')
    else if rend r > stop then do
      -- `i--`: the lower half is looked at again
      let rs' ← memblockInsertRegion max cnt r.base (stop - r.base) r.attr
        ({ r with base := stop, size := r.size - (stop - r.base) } :: rs)
      isolateLoop max base stop fuel i (cnt + 1) se rs'
    else do
      let (rs', se') ← isolateLoop max base stop fuel (i + 1) cnt
        (if se.2 = 0 then i else se.1, i + 1) rs
      return (r :: rs', se')

def regionNode (nodeMap : Bool) (nid : ℕ) : ℕ := if nodeMap then nid else 0

def memblockRemoveRegion (nodeMap : Bool) (t : RegionType) (i : ℕ) : RegionType :=
  let rs := t.regions.eraseIdx i
  let totalSize := wsub 64 t.totalSize ((t.regions.map Segment.size).getD i 0)
  { t with
    regions := if rs = [] then [⟨0, 0, ⟨regionNode nodeMap maxNumnodes, 0⟩⟩] else rs
    totalSize := totalSize
    warned := t.warned || decide (rs = [] ∧ totalSize ≠ 0) }

/-! ## With doubling -/

variable (nodeMap : Bool)

/-- `sizeof(struct memblock_region)` -/
def regionBytes : ℕ := if nodeMap then 32 else 24

def allocSize (max : ℕ) : ℕ := pageAlign (max * regionBytes nodeMap)

/-- The memory that an array takes from memblock. -/
def RegionType.area (t : RegionType) : Option (ℕ × ℕ) :=
  match t.place with
  | .block a => some (a, allocSize nodeMap t.max)
  | _ => none

def overlaps (a size b size' : ℕ) : Bool := decide (max a b < min (a + size) (b + size'))

/-- What `memblock_find_in_range` may return for a page-aligned area: memory that is not
reserved, above the first page. -/
def freeArea (st : State) (start stop size a : ℕ) : Bool :=
  a % pageSize = 0 ∧ pageSize ≤ a ∧ start ≤ a ∧ a + size ≤ stop ∧
  (∃ r ∈ st.memory.regions, r.base ≤ a ∧ a + size ≤ r.base + r.size) ∧
  ∀ r ∈ st.reserved.regions, r.base + r.size ≤ a ∨ a + size ≤ r.base

def nextAnswer (st : State) : ℕ × State :=
  (st.answers.headD 0, { st with answers := st.answers.tail })

/-- `memblock_find_in_range`; an end of 0 is `MEMBLOCK_ALLOC_ACCESSIBLE`. -/
def memblockFindInRange (st : State) (start stop size : ℕ) : ℕ × State :=
  let stop := if stop = 0 then st.currentLimit else stop
  let (a, st) := nextAnswer st
  if freeArea st start stop size a then (a, st) else (0, st)

/-- The search of `memblock_double_array`. -/
def findArray (which : Which) (newAreaStart newAreaSize size : ℕ) (st : State) : ℕ × State :=
  if st.slab then nextAnswer st
  else
    let (s, z) := if which = .reserved then (newAreaStart, newAreaSize) else (0, 0)
    let (a, st) := memblockFindInRange st (s + z) st.currentLimit size
    if a = 0 ∧ z ≠ 0 then memblockFindInRange st 0 (min s st.currentLimit) size else (a, st)

/-- `memblock_double_array`, as the other functions call it. -/
abbrev Doubling := Which → ℕ → ℕ → State → Except Fault (State × Bool)

/-- `while (type->cnt + need > type->max) memblock_double_array(…)`; `max` is an
`unsigned long`. -/
def growLoop (double : Doubling) (which : Which) (need base size : ℕ) :
    ℕ → State → Except Fault (State × Bool)
  | 0, st =>
    if (st.get which).regions.length + need > (st.get which).max then .error .depth
    else .ok (st, true)
  | fuel + 1, st =>
    if (st.get which).regions.length + need > (st.get which).max then do
      let (st, ok) ← double which base size st
      if ok then growLoop double which need base size fuel st else return (st, false)
    else .ok (st, true)

def memblockAddRange (double : Doubling) (which : Which) (base size nid flags : ℕ) (st : State) :
    Except Fault (State × Int) :=
  let size := capSize base size
  let stop := base + size
  let attr : Attr := ⟨regionNode nodeMap nid, flags⟩
  let t := st.get which
  if size = 0 then .ok (st, 0)
  else if (t.regions.map Segment.size).headD 0 = 0 then
    -- the empty dummy entry
    .ok (st.set which
      { t with regions := ⟨base, size, attr⟩ :: t.regions.tail, totalSize := size }, 0)
  else do
    let (_, nrNew) ← addPass t.max false attr stop base t.regions.length t.regions
    let (st, ok) ← growLoop double which nrNew base size 64 st
    if ok then
      let t := st.get which
      let (rs, _) ← addPass t.max true attr stop base t.regions.length t.regions
      let added := (rs.map Segment.size).sum - (t.regions.map Segment.size).sum
      let rs ← memblockMergeRegions rs
      return (st.set which
        { t with regions := rs, totalSize := wadd 64 t.totalSize added }, 0)
    else return (st, -12)

/-- `memblock_isolate_range`: the state, and `start_rgn` and `end_rgn` when there was
room. -/
def memblockIsolateRange (double : Doubling) (which : Which) (base size : ℕ) (st : State) :
    Except Fault (State × Option (ℕ × ℕ)) :=
  let size := capSize base size
  if size = 0 then .ok (st, some (0, 0))
  else do
    let (st, ok) ← growLoop double which 2 base size 64 st
    if ok then
      let t := st.get which
      let (rs, se) ← isolateLoop t.max base (base + size) (3 * t.regions.length + 1) 0
        t.regions.length (0, 0) t.regions
      return (st.set which { t with regions := rs }, some se)
    else return (st, none)

/-- `memblock_remove_range`; the loop removes the isolated regions from the last on. -/
def memblockRemoveRange (double : Doubling) (which : Which) (base size : ℕ) (st : State) :
    Except Fault (State × Int) := do
  match ← memblockIsolateRange double which base size st with
  | (st, some (s, e)) =>
    return (st.set which
      ((List.range' s (e - s)).reverse.foldl (memblockRemoveRegion nodeMap) (st.get which)), 0)
  | (st, none) => return (st, -12)

/-- `memblock_double_array` frees the array `t` had; the result is not looked at. -/
def freeOldArray (double : Doubling) (t : RegionType) (st : State) : Except Fault State :=
  match t.place with
  | .block old => do
    let (st, _) ← memblockRemoveRange nodeMap double .reserved old (allocSize nodeMap t.max) st
    return st
  | _ => .ok st

/-- `memblock_double_array` reserves the new array if it comes from memblock. -/
def reserveNewArray (double : Doubling) (addr size : ℕ) (st : State) : Except Fault State :=
  if st.slab then .ok st
  else do
    let (st, ret) ← memblockAddRange nodeMap double .reserved addr size maxNumnodes 0 st
    if ret = 0 then return st else .error .reserveFailed

def memblockDoubleArray : ℕ → Doubling
  | 0, _, _, _, _ => .error .depth
  | fuel + 1, which, newAreaStart, newAreaSize, st =>
    if st.canResize = false then .ok (st, false)
    else
      let t := st.get which
      let newAllocSize := allocSize nodeMap (2 * t.max)
      let (addr, st) := findArray which newAreaStart newAreaSize newAllocSize st
      if addr = 0 then .ok (st, false)
      else if st.slab = false ∧ ([st.memory, st.reserved].any fun u =>
          (u.area nodeMap).any fun (a, n) => overlaps addr newAllocSize a n) then .error .clobbered
      else do
        let st := st.set which
          { t with max := 2 * t.max, place := if st.slab then .slab else .block addr }
        let st ← freeOldArray nodeMap (memblockDoubleArray fuel) t st
        let st ← reserveNewArray nodeMap (memblockDoubleArray fuel) addr newAllocSize st
        return (st, true)

/-- Nested doublings end after the reserved array was doubled for the memory array. -/
def doubling : Doubling := memblockDoubleArray nodeMap 3

def setclr (set : Bool) (flag : ℕ) (attr : Attr) : Attr :=
  { attr with flags := if set then attr.flags ||| flag else attr.flags &&& (ullongMax - flag) }

def memblockSetclrFlag (base size : ℕ) (set : Bool) (flag : ℕ) (st : State) :
    Except Fault (State × Int) := do
  match ← memblockIsolateRange (doubling nodeMap) .memory base size st with
  | (st, some (s, e)) =>
    let rs := st.memory.regions.mapIdx fun i r =>
      if s ≤ i ∧ i < e then { r with attr := setclr set flag r.attr } else r
    let rs ← memblockMergeRegions rs
    return (st.set .memory { st.memory with regions := rs }, 0)
  | (st, none) => return (st, -12)

/-! ## Calls -/

inductive Op
  | add (base size : Fin (2 ^ 64)) (nid flags : ℕ)
  | reserve (base size : Fin (2 ^ 64)) (nid flags : ℕ)
  | remove (base size : Fin (2 ^ 64))
  | free (base size : Fin (2 ^ 64))
  | setclrFlag (base size : Fin (2 ^ 64)) (set : Bool) (flag : ℕ)
  | allowResize
  | slabUp
  | setCurrentLimit (limit : Fin (2 ^ 64))

structure Call where
  op : Op
  answers : List ℕ

def exec (st : State) : Op → Except Fault (State × Int)
  | .add base size nid flags =>
    memblockAddRange nodeMap (doubling nodeMap) .memory base.val size.val nid flags st
  | .reserve base size nid flags =>
    memblockAddRange nodeMap (doubling nodeMap) .reserved base.val size.val nid flags st
  | .remove base size => memblockRemoveRange nodeMap (doubling nodeMap) .memory base.val size.val st
  | .free base size => memblockRemoveRange nodeMap (doubling nodeMap) .reserved base.val size.val st
  | .setclrFlag base size set flag => memblockSetclrFlag nodeMap base.val size.val set flag st
  | .allowResize => .ok ({ st with canResize := true }, 0)
  | .slabUp => .ok ({ st with slab := true }, 0)
  | .setCurrentLimit limit => .ok ({ st with currentLimit := limit.val }, 0)

def call (st : State) (c : Call) : Except Fault (State × Int) :=
  exec nodeMap { st with answers := c.answers } c.op

def emptyType : RegionType := ⟨[⟨0, 0, ⟨0, 0⟩⟩], initMemblockRegions, 0, .static, false⟩

def init : State := ⟨emptyType, emptyType, ullongMax, false, false, []⟩

end Cupcake.Mm.Memblock
