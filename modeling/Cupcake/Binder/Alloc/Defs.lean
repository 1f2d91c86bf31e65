import Cupcake.Lib.Except
import Cupcake.Lib.Chain
import Cupcake.Lib.Page
import Cupcake.Lib.Run
import Cupcake.Lib.Tree

/-! The buffer allocator of `binder.c`. A `BUG_ON` that fires, and any other use of a bad pointer,
is an error. -/

namespace Cupcake.Binder.Alloc

/-- `sizeof(struct binder_buffer)`, which is also `offsetof(…, data)` -/
def headerSize : ℕ := 80

/-- `struct binder_buffer`, at its address. Of the transaction only whether the
pointer is set matters. -/
structure Buffer where
  addr : ℕ
  free : Bool
  allowUserFree : Bool
  asyncTransaction : Bool
  transaction : Bool
  dataSize : ℕ
  offsetsSize : ℕ

/-- What `binder_mmap` fixes: whole pages of kernel address space, at most 4 MiB. -/
structure Mapping where
  buffer : ℕ
  bufferSize : ℕ
  buffer_aligned : buffer % pageSize = 0
  bufferSize_aligned : bufferSize % pageSize = 0
  bufferSize_pos : 0 < bufferSize
  bufferSize_le : bufferSize ≤ 4 * 2 ^ 20
  low : pageSize ≤ buffer
  high : buffer + bufferSize + pageSize ≤ 2 ^ 64

abbrev PageMap := ℕ → Bool

structure Proc where
  buffers : List Buffer
  freeBuffers : Tree ℕ
  allocatedBuffers : Tree ℕ
  pages : PageMap
  freeAsyncSpace : ℕ

inductive Bug
  /-- a pointer to something that is not on the list -/
  | badPointer
  | notFree | notAllocated | duplicate
  /-- `BUG_ON(*page)` -/
  | pagePresent
  /-- `__free_page(NULL)` -/
  | pageMissing
  | pageIndex
  | sizeMismatch | hasTransaction | outside
  | firstBuffer | prevNotFree

def bugOn (c : Prop) [Decidable c] (b : Bug) : Except Bug Unit := if c then .error b else .ok ()

theorem bugOn_of_not {c : Prop} [Decidable c] {b : Bug} (h : ¬ c) : bugOn c b = .ok () := if_neg h

def lookup (bs : List Buffer) (a : ℕ) : Except Bug Buffer :=
  match Chain.find Buffer.addr a bs with
  | none => .error .badPointer
  | some b => .ok b

variable (B : Tree.Balancer ℕ) (m : Mapping)

def binderBufferSize (bs : List Buffer) (a : ℕ) : ℕ :=
  match Chain.next Buffer.addr a bs with
  | none => wsub 64 (m.buffer + m.bufferSize) (a + headerSize)
  | some c => wsub 64 c.addr (a + headerSize)

def binderInsertFreeBuffer (p : Proc) (a : ℕ) : Except Bug Proc := do
  let new ← lookup p.buffers a
  bugOn (new.free = false) .notFree
  let newSize := binderBufferSize m p.buffers a
  let t ← p.freeBuffers.link (fun y => do
    let b ← lookup p.buffers y
    bugOn (b.free = false) .notFree
    return decide (newSize < binderBufferSize m p.buffers y)) a
  return { p with freeBuffers := B.insertColor t }

def binderInsertAllocatedBuffer (p : Proc) (a : ℕ) : Except Bug Proc := do
  let new ← lookup p.buffers a
  bugOn (new.free = true) .notAllocated
  let t ← p.allocatedBuffers.link (fun y => do
    let b ← lookup p.buffers y
    bugOn (b.free = true) .notAllocated
    if a < y then return true
    else if a > y then return false
    else .error .duplicate) a
  return { p with allocatedBuffers := B.insertColor t }

/-! ## Pages -/

/-- No `vma` at the time of the call, a `vma` that is gone later on, and the index of the first
page that cannot be allocated or mapped. -/
structure PageEnv where
  vma : Bool
  mm : Bool
  fail : Option ℕ

/-- The allocating loop over `k` pages from index `i` on, and the index it stopped at
when a page could not be had. -/
def allocPages (fail : Option ℕ) : ℕ → ℕ → PageMap → Except Bug (PageMap × Option ℕ)
  | 0, _, pages => .ok (pages, none)
  | k + 1, i, pages => do
    bugOn (m.bufferSize / pageSize ≤ i) .pageIndex
    bugOn (pages i = true) .pagePresent
    if fail = some i then return (pages, some i)
    else allocPages fail k (i + 1) (Function.update pages i true)

def freePages (i : ℕ) : ℕ → PageMap → Except Bug PageMap
  | 0, pages => .ok pages
  | k + 1, pages => do
    bugOn (m.bufferSize / pageSize ≤ i + k) .pageIndex
    bugOn (pages (i + k) = false) .pageMissing
    freePages i k (Function.update pages (i + k) false)

/-- `binder_update_page_range` on page-aligned addresses; `true` for the result 0. -/
def binderUpdatePageRange (pages : PageMap) (allocate : Bool) (start stop : ℕ) (env : PageEnv) :
    Except Bug (PageMap × Bool) := do
  let i := (start - m.buffer) / pageSize
  let k := (stop - start) / pageSize
  if stop ≤ start then return (pages, true)
  else if allocate then
    if env.mm = false then return (pages, false)
    else
      match ← allocPages m env.fail k i pages with
      | (pages, none) => return (pages, true)
      -- the pages before the failing one are given back
      | (pages, some j) => return (← freePages m i (j - i) pages, false)
  else return (← freePages m i k pages, false)

/-! ## Allocating -/

def alignPtr (n : ℕ) : ℕ := wadd 64 n 7 / 8 * 8

/-- The descent for the best fit: the buffer found, and whether its size is exact. -/
def bestFit (bs : List Buffer) (size : ℕ) : Tree ℕ → Option ℕ → Except Bug (Option ℕ × Bool)
  | .leaf, best => .ok (best, false)
  | .node _ l a r, best => do
    let b ← lookup bs a
    bugOn (b.free = false) .notFree
    if size < binderBufferSize m bs a then bestFit bs size l (some a)
    else if size > binderBufferSize m bs a then bestFit bs size r best
    else return (some a, true)

/-- The rest of `binder_alloc_buf`, once the buffer at `a` is chosen and its pages are
there; `bufferSize` is the local of that name. -/
def takeBuffer (p : Proc) (a bufferSize size dataSize offsetsSize : ℕ) (isAsync : Bool) :
    Except Bug Proc := do
  let p := { p with
    freeBuffers := B.erase a p.freeBuffers
    buffers := Chain.modify Buffer.addr a
      (fun b => { b with free := false, allowUserFree := false }) p.buffers }
  let p ← binderInsertAllocatedBuffer B p a
  let p ←
    if bufferSize ≠ size then
      -- only `free` is written in the new header; the rest is not read while it is set
      let new : Buffer := ⟨a + headerSize + size, true, false, false, false, 0, 0⟩
      binderInsertFreeBuffer B m
        { p with buffers := Chain.insertAfter Buffer.addr a new p.buffers } new.addr
    else pure p
  return { p with
    buffers := Chain.modify Buffer.addr a (fun b =>
      { b with dataSize := dataSize, offsetsSize := offsetsSize, asyncTransaction := isAsync })
      p.buffers
    freeAsyncSpace :=
      if isAsync then wsub 64 p.freeAsyncSpace (wadd 64 size headerSize) else p.freeAsyncSpace }

/-- The size the best fit is cut to: `size`, or `size` and a header when there is room
for another buffer behind it. -/
def cutSize (exact : Bool) (size realSize : ℕ) : ℕ :=
  if exact then realSize
  else if wadd 64 size (headerSize + 4) ≥ realSize then size
  else wadd 64 size headerSize

/-- `binder_alloc_buf` from the best fit at `a` on. -/
def allocFrom (env : PageEnv) (p : Proc) (a : ℕ) (exact : Bool) (size dataSize offsetsSize : ℕ)
    (isAsync : Bool) : Except Bug (Proc × Option ℕ) := do
  let realSize := binderBufferSize m p.buffers a
  let hasPageAddr := pageFloor (a + headerSize + realSize)
  let bufferSize := cutSize exact size realSize
  let endPageAddr := min (pageAlign (a + headerSize + bufferSize)) hasPageAddr
  let (pages, done) ← binderUpdatePageRange m p.pages true (pageAlign (a + headerSize))
    endPageAddr env
  if done then
    let p ← takeBuffer B m { p with pages := pages } a bufferSize size dataSize offsetsSize isAsync
    return (p, some a)
  else return ({ p with pages := pages }, none)

def procMaxSize (isAsync : Bool) : ℕ := if isAsync then m.bufferSize / 2 else m.bufferSize

/-- `binder_alloc_buf`: the buffer, or `none` for `NULL`. -/
def binderAllocBuf (env : PageEnv) (p : Proc) (dataSize offsetsSize : ℕ) (isAsync : Bool) :
    Except Bug (Proc × Option ℕ) := do
  let size := wadd 64 (alignPtr dataSize) (alignPtr offsetsSize)
  if env.vma = false then return (p, none)
  else if size < dataSize ∨ size < offsetsSize then return (p, none)
  else if procMaxSize m isAsync < wadd 64 size headerSize then return (p, none)
  else if isAsync = true ∧ p.freeAsyncSpace < wadd 64 size headerSize then return (p, none)
  else
    match ← bestFit m p.buffers size p.freeBuffers none with
    | (none, _) => return (p, none)
    | (some a, exact) => allocFrom B m env p a exact size dataSize offsetsSize isAsync

/-! ## Freeing -/

def bufferStartPage (a : ℕ) : ℕ := pageFloor a
def bufferEndPage (a : ℕ) : ℕ := pageFloor (a + headerSize - 1)

def freedPages (prev a : ℕ) (next : Option ℕ) : Bool × Bool :=
  let start := !(bufferEndPage prev == bufferStartPage a)
  let stop := !(bufferEndPage prev == bufferStartPage a && bufferEndPage prev == bufferEndPage a)
  match next with
  | none => (start, stop)
  | some n =>
    if bufferStartPage n == bufferEndPage a then
      (start && !(bufferStartPage n == bufferStartPage a), false)
    else (start, stop)

def binderDeleteFreeBuffer (env : PageEnv) (p : Proc) (a : ℕ) : Except Bug Proc := do
  bugOn ((p.buffers.head?.map Buffer.addr) = some a) .firstBuffer
  match Chain.prev Buffer.addr a p.buffers with
  | none => .error .badPointer
  | some prev =>
    bugOn (prev.free = false) .prevNotFree
    let (start, stop) := freedPages prev.addr a ((Chain.next Buffer.addr a p.buffers).map Buffer.addr)
    let p := { p with buffers := Chain.remove Buffer.addr a p.buffers }
    if start || stop then
      let (pages, _) ← binderUpdatePageRange m p.pages false
        (if start then bufferStartPage a else bufferEndPage a)
        ((if stop then bufferEndPage a else bufferStartPage a) + pageSize) env
      return { p with pages := pages }
    else return p

def mergeNext (env : PageEnv) (p : Proc) (a : ℕ) : Except Bug Proc :=
  match Chain.next Buffer.addr a p.buffers with
  | none => .ok p
  | some n =>
    if n.free then
      binderDeleteFreeBuffer m env { p with freeBuffers := B.erase n.addr p.freeBuffers } n.addr
    else .ok p

def mergePrev (env : PageEnv) (p : Proc) (a : ℕ) : Except Bug (Proc × ℕ) :=
  if p.buffers.head?.map Buffer.addr = some a then .ok (p, a)
  else
    match Chain.prev Buffer.addr a p.buffers with
    | none => .error .badPointer
    | some prev =>
      if prev.free then do
        let p ← binderDeleteFreeBuffer m env p a
        return ({ p with freeBuffers := B.erase prev.addr p.freeBuffers }, prev.addr)
      else .ok (p, a)

def binderFreeBuf (env : PageEnv) (p : Proc) (a : ℕ) : Except Bug Proc := do
  let b ← lookup p.buffers a
  let bufferSize := binderBufferSize m p.buffers a
  let size := wadd 64 (alignPtr b.dataSize) (alignPtr b.offsetsSize)
  bugOn (b.free = true) .notAllocated
  bugOn (size > bufferSize) .sizeMismatch
  bugOn (b.transaction = true) .hasTransaction
  bugOn (a < m.buffer) .outside
  bugOn (a > m.buffer + m.bufferSize) .outside
  let async := if b.asyncTransaction then wadd 64 p.freeAsyncSpace (wadd 64 size headerSize)
    else p.freeAsyncSpace
  let (pages, _) ← binderUpdatePageRange m p.pages false (pageAlign (a + headerSize))
    (pageFloor (a + headerSize + bufferSize)) env
  let p ← mergeNext B m env { p with
    freeAsyncSpace := async
    pages := pages
    allocatedBuffers := B.erase a p.allocatedBuffers
    buffers := Chain.modify Buffer.addr a (fun b => { b with free := true }) p.buffers } a
  let (p, a) ← mergePrev B m env p a
  binderInsertFreeBuffer B m p a

/-! ## A mapped process -/

/-- The end of `binder_mmap`: one free buffer over the whole area, if its page can be
had. -/
def binderMmap (env : PageEnv) : Except Bug (Option Proc) := do
  let (pages, done) ← binderUpdatePageRange m (fun _ => false) true m.buffer (m.buffer + pageSize) env
  if done then
    let p ← binderInsertFreeBuffer B m
      ⟨[⟨m.buffer, true, false, false, false, 0, 0⟩], .leaf, .leaf, pages, 0⟩ m.buffer
    return some { p with freeAsyncSpace := m.bufferSize / 2 }
  else return none

def mapped : Proc where
  buffers := [⟨m.buffer, true, false, false, false, 0, 0⟩]
  freeBuffers := B.insertColor (.node .red .leaf m.buffer .leaf)
  allocatedBuffers := .leaf
  pages := Function.update (fun _ => false) 0 true
  freeAsyncSpace := m.bufferSize / 2

inductive Op
  | alloc (env : PageEnv) (dataSize offsetsSize : Fin (2 ^ 64)) (isAsync : Bool)
  | free (env : PageEnv) (a : ℕ)

/-- The calls with what every caller does around them: a new buffer gets its
transaction, and only an allocated buffer is freed, after its transaction was cut off. -/
def call (p : Proc) : Op → Except Bug Proc
  | .alloc env dataSize offsetsSize isAsync => do
    match ← binderAllocBuf B m env p dataSize.val offsetsSize.val isAsync with
    | (p, none) => return p
    | (p, some a) =>
      return { p with
        buffers := Chain.modify Buffer.addr a (fun b => { b with transaction := true }) p.buffers }
  | .free env a =>
    match Chain.find Buffer.addr a p.buffers with
    | none => return p
    | some b =>
      if b.free then return p
      else binderFreeBuf B m env { p with
        buffers := Chain.modify Buffer.addr a (fun b => { b with transaction := false }) p.buffers } a

end Cupcake.Binder.Alloc
