import Cupcake.Lib.Run
import Cupcake.Lib.Page

/-! The unpinned ranges of `ashmem.c` and the LRU list that the shrinker walks. All of it runs under
`ashmem_mutex`, so an entry point is one step. -/

namespace Cupcake.Ashmem

/-- `MAX_LFS_FILESIZE`: `shmem_file_setup` refuses a larger file. -/
def maxLfsFilesize : ℕ := 2 ^ 63 - 1

structure Range where
  id : ℕ
  pgstart : ℕ
  pgend : ℕ
  /-- `ASHMEM_WAS_PURGED` -/
  purged : Bool
  deriving DecidableEq, Repr

namespace Range

/-- `range_size`, in `size_t` arithmetic. -/
def size (r : Range) : ℕ := wadd 64 (wsub 64 r.pgend r.pgstart) 1
def onLru (r : Range) : Bool := !r.purged
def subsumesRange (r : Range) (s e : ℕ) : Prop := s ≤ r.pgstart ∧ r.pgend ≤ e
def subsumedByRange (r : Range) (s e : ℕ) : Prop := r.pgstart ≤ s ∧ e ≤ r.pgend
def pageInRange (r : Range) (p : ℕ) : Prop := r.pgstart ≤ p ∧ p ≤ r.pgend
def pageRangeInRange (r : Range) (s e : ℕ) : Prop :=
  r.pageInRange s ∨ r.pageInRange e ∨ r.subsumesRange s e
def beforePage (r : Range) (p : ℕ) : Prop := r.pgend < p

instance (r : Range) (s e : ℕ) : Decidable (r.subsumesRange s e) := inferInstanceAs (Decidable (_ ∧ _))
instance (r : Range) (s e : ℕ) : Decidable (r.subsumedByRange s e) :=
  inferInstanceAs (Decidable (_ ∧ _))
instance (r : Range) (p : ℕ) : Decidable (r.pageInRange p) := inferInstanceAs (Decidable (_ ∧ _))
instance (r : Range) (s e : ℕ) : Decidable (r.pageRangeInRange s e) :=
  inferInstanceAs (Decidable (_ ∨ _))
instance (r : Range) (p : ℕ) : Decidable (r.beforePage p) := inferInstanceAs (Decidable (_ < _))

end Range

/-- The globals: the LRU list, `lru_count`, and the next unused address. -/
structure Pool where
  lru : List ℕ
  lruCount : ℕ
  nextId : ℕ
  deriving DecidableEq, Repr

def lruAdd (p : Pool) (r : Range) : Pool :=
  { p with lru := p.lru ++ [r.id], lruCount := wadd 64 p.lruCount r.size }

def lruDel (p : Pool) (r : Range) : Pool :=
  { p with lru := p.lru.erase r.id, lruCount := wsub 64 p.lruCount r.size }

def rangeAlloc (ok : Bool) (p : Pool) (purged : Bool) (s e : ℕ) : Option (Range × Pool) :=
  if ok then
    let r : Range := ⟨p.nextId, s, e, purged⟩
    let p' : Pool := { p with nextId := p.nextId + 1 }
    some (r, if r.onLru then lruAdd p' r else p')
  else none

def rangeDel (p : Pool) (r : Range) : Pool := if r.onLru then lruDel p r else p

def rangeShrink (p : Pool) (r : Range) (s e : ℕ) : Range × Pool :=
  let r' := { r with pgstart := s, pgend := e }
  (r', if r.onLru then
      { p with lruCount := wsub 64 p.lruCount (wsub 64 r.size r'.size) }
    else p)

/-- `ashmem_pin` over the rest of the list: what is left of it, the return value
(`true` for `ASHMEM_WAS_PURGED`) and the globals. -/
def ashmemPin (ok : Bool) (s e : ℕ) : List Range → Pool → List Range × Bool × Pool
  | [], p => ([], false, p)
  | r :: rs, p =>
    if r.beforePage s then (r :: rs, false, p)
    else if r.pageRangeInRange s e then
      if r.subsumesRange s e then
        let (rs', ret, p') := ashmemPin ok s e rs (rangeDel p r)
        (rs', r.purged || ret, p')
      else if s ≤ r.pgstart then
        let (r', p₁) := rangeShrink p r (e + 1) r.pgend
        let (rs', ret, p') := ashmemPin ok s e rs p₁
        (r' :: rs', r.purged || ret, p')
      else if r.pgend ≤ e then
        let (r', p₁) := rangeShrink p r r.pgstart (s - 1)
        let (rs', ret, p') := ashmemPin ok s e rs p₁
        (r' :: rs', r.purged || ret, p')
      else
        -- the new upper half is linked in front; a failed allocation is ignored
        match rangeAlloc ok p r.purged (e + 1) r.pgend with
        | some (new, p₁) =>
          let (r', p₂) := rangeShrink p₁ r r.pgstart (s - 1)
          (new :: r' :: rs, r.purged, p₂)
        | none =>
          let (r', p₂) := rangeShrink p r r.pgstart (s - 1)
          (r' :: rs, r.purged, p₂)
    else
      let (rs', ret, p') := ashmemPin ok s e rs p
      (r :: rs', ret, p')

/-- How the walk of `ashmem_unpin` over the list ends. -/
inductive UnpinScan
  /-- the insertion point, between the two parts -/
  | insert (pre post : List Range)
  /-- an old range covers the request -/
  | covered
  /-- an old range overlaps the request: it is absorbed and the walk restarts -/
  | merge (pre : List Range) (r : Range) (post : List Range)

def unpinScan (s e : ℕ) : List Range → UnpinScan
  | [] => .insert [] []
  | r :: rs =>
    if r.beforePage s then .insert [] (r :: rs)
    else if r.subsumedByRange s e then .covered
    else if r.pageRangeInRange s e then .merge [] r rs
    else match unpinScan s e rs with
      | .insert pre post => .insert (r :: pre) post
      | .covered => .covered
      | .merge pre x post => .merge (r :: pre) x post

def ashmemUnpin (ok : Bool) : ℕ → ℕ → ℕ → Bool → List Range → Pool →
    Option (List Range × Int × Pool)
  | fuel, s, e, purged, rs, p =>
    match unpinScan s e rs with
    | .insert pre post =>
      match rangeAlloc ok p purged s e with
      | some (r, p') => some (pre ++ r :: post, 0, p')
      | none => some (rs, -12, p)
    | .covered => some (rs, 0, p)
    | .merge pre r post =>
      match fuel with
      | 0 => none
      | fuel + 1 =>
        ashmemUnpin ok fuel (min r.pgstart s) (max r.pgend e) (purged || r.purged) (pre ++ post)
          (rangeDel p r)

/-- `ashmem_get_pin_status`: `true` for `ASHMEM_IS_UNPINNED`. -/
def ashmemGetPinStatus (s e : ℕ) : List Range → Bool
  | [] => false
  | r :: rs =>
    if r.beforePage s then false
    else if r.pageRangeInRange s e then true
    else ashmemGetPinStatus s e rs

/-! ## The areas -/

/-- The address of a `struct ashmem_area`, in the kernel half of the 39-bit
virtual address space (`CONFIG_ARM64_VA_BITS`). -/
abbrev AreaId := Fin (2 ^ 39)

/-- `struct ashmem_area`. `file` tells whether the backing file exists, and `holes`
are the byte ranges `[start, end)` punched out of it so far. -/
structure Area where
  id : AreaId
  size : ℕ
  file : Bool
  unpinned : List Range
  holes : List (ℕ × ℕ)
  deriving DecidableEq, Repr

structure State where
  areas : List Area
  pool : Pool
  deriving DecidableEq, Repr

def init : State := ⟨[], ⟨[], 0, 0⟩⟩

def State.area (st : State) (id : AreaId) : Option Area := st.areas.find? (·.id == id)

def State.setUnpinned (st : State) (id : AreaId) (rs : List Range) (p : Pool) : State where
  areas := st.areas.map fun a => if a.id = id then { a with unpinned := rs } else a
  pool := p

/-- `struct ashmem_pin` of the user, two `__u32`. -/
structure PinRequest where
  offset : Fin (2 ^ 32)
  len : Fin (2 ^ 32)

inductive PinCmd
  | pin | unpin | getPinStatus
  deriving DecidableEq, Repr

/-- The length after zero was replaced by "everything onward", again a `__u32`. -/
def pinLen (size : ℕ) (req : PinRequest) : ℕ :=
  if req.len.val = 0 then wsub 64 (pageAlign size) req.offset.val % 2 ^ 32 else req.len.val

/-- The argument checks of `ashmem_pin_unpin`. -/
def pinAccepted (size : ℕ) (req : PinRequest) : Prop :=
  req.offset.val % pageSize = 0 ∧ pinLen size req % pageSize = 0 ∧
  ¬ 2 ^ 32 - 1 - req.offset.val < pinLen size req ∧
  ¬ pageAlign size < req.offset.val + pinLen size req

instance (size : ℕ) (req : PinRequest) : Decidable (pinAccepted size req) :=
  inferInstanceAs (Decidable (_ ∧ _))

def pgStart (req : PinRequest) : ℕ := req.offset.val / pageSize

def pgEnd (size : ℕ) (req : PinRequest) : ℕ :=
  wsub 64 (pgStart req + pinLen size req / pageSize) 1

/-- `ashmem_pin_unpin`: the value returned to user space and the new state.
`copyOk` is the outcome of `copy_from_user`, `ok` that of the allocation. -/
def ashmemPinUnpin (copyOk ok : Bool) (cmd : PinCmd) (req : PinRequest) (a : Area) (st : State) :
    Option (Int × State) :=
  if !a.file then some (-22, st)
  else if !copyOk then some (-14, st)
  else if ¬ pinAccepted a.size req then some (-22, st)
  else
    let s := pgStart req
    let e := pgEnd a.size req
    match cmd with
    | .pin =>
      let (rs, ret, p) := ashmemPin ok s e a.unpinned st.pool
      some (if ret then 1 else 0, st.setUnpinned a.id rs p)
    | .unpin =>
      (ashmemUnpin ok a.unpinned.length s e false a.unpinned st.pool).map fun (rs, ret, p) =>
        (ret, st.setUnpinned a.id rs p)
    | .getPinStatus => some (if ashmemGetPinStatus s e a.unpinned then 0 else 1, st)

def markPurged (id : ℕ) (r : Range) : Range := if r.id = id then { r with purged := true } else r

def State.lookup (st : State) (id : ℕ) : Option (Area × Range) :=
  (st.areas.flatMap fun a => a.unpinned.map (a, ·)).find? (·.2.id == id)

def Range.hole (r : Range) : ℕ × ℕ :=
  (r.pgstart * pageSize % 2 ^ 64, wadd 64 r.pgend 1 * pageSize % 2 ^ 64)

/-- The loop body of `ashmem_shrink_scan` on a range `r` of the area `a`. -/
def State.purge (st : State) (a : Area) (r : Range) : State where
  areas := st.areas.map fun b =>
    { b with
      unpinned := b.unpinned.map (markPurged r.id)
      holes := if b.id = a.id then b.holes ++ [r.hole] else b.holes }
  pool := lruDel st.pool { r with purged := true }

/-- The loop of `ashmem_shrink_scan` over the LRU entries. `none` stands for an
access through a stale pointer or a missing backing file. -/
def shrinkLoop : List ℕ → ℕ → State → Option State
  | [], _, st => some st
  | id :: ids, nrToScan, st =>
    match st.lookup id with
    | none => none
    | some (a, r) =>
      if !a.file then none
      else
        -- `nr_to_scan` is unsigned: the test `<= 0` stops at zero only
        let nr := wsub 64 nrToScan 1
        if nr = 0 then some (st.purge a r) else shrinkLoop ids nr (st.purge a r)

/-- What user space and the memory manager can ask for. -/
inductive Op
  | openArea (id : AreaId)
  | setSize (id : AreaId) (size : Fin (2 ^ 64))
  | mmap (id : AreaId) (setupOk : Bool)
  | pinUnpin (id : AreaId) (cmd : PinCmd) (req : PinRequest) (copyOk allocOk : Bool)
  | shrinkScan (gfpFs trylock : Bool) (nrToScan : Fin (2 ^ 64))
  | release (id : AreaId)

/-- One entry point of the driver. The address of a new area is not in use, and a
request names an open area; otherwise nothing happens. -/
def step (st : State) : Op → Option State
  | .openArea id =>
    if (st.area id).isSome then some st
    else some { st with areas := st.areas ++ [⟨id, 0, false, [], []⟩] }
  | .setSize id size =>
    some { st with areas := st.areas.map fun a =>
      if a.id = id ∧ a.file = false then { a with size := size.val } else a }
  | .mmap id setupOk =>
    some { st with areas := st.areas.map fun a =>
      if a.id = id ∧ a.size ≠ 0 ∧ a.size ≤ maxLfsFilesize ∧ setupOk then { a with file := true }
      else a }
  | .pinUnpin id cmd req copyOk allocOk =>
    match st.area id with
    | none => some st
    | some a => (ashmemPinUnpin copyOk allocOk cmd req a st).map (·.2)
  | .shrinkScan gfpFs trylock nrToScan =>
    if gfpFs && trylock then shrinkLoop st.pool.lru nrToScan.val st else some st
  | .release id =>
    match st.area id with
    | none => some st
    | some a =>
      some { areas := st.areas.filter (·.id != id), pool := a.unpinned.foldl rangeDel st.pool }

end Cupcake.Ashmem
