import Cupcake.Lib.Tree
import Cupcake.Lib.Word

/-! The extent status tree of `fs/ext4/extents_status.c`, with its shrinker. A function gives
`none` where the source stops at a `BUG_ON` or reads through a pointer to a freed extent. -/

namespace Cupcake.Ext4

def esWrittenB : ℕ := 0
def esUnwrittenB : ℕ := 1
def esDelayedB : ℕ := 2
def esHoleB : ℕ := 3
def esReferencedB : ℕ := 4
def esFlags : ℕ := 5
def esShift : ℕ := 64 - esFlags
def extMaxBlocks : ℕ := 0xffffffff

/-- What `struct extent_status` says of a range of blocks. The status is in the high bits of
`pblk`. -/
structure ExtentStatus where
  lblk : ℕ
  len : ℕ
  pblk : ℕ
  deriving DecidableEq, Repr

namespace ExtentStatus

variable (es : ExtentStatus)

def status : ℕ := es.pblk / 2 ^ esShift

def type : ℕ := es.status % 2 ^ esReferencedB

def isWritten : Bool := es.type.testBit esWrittenB
def isUnwritten : Bool := es.type.testBit esUnwrittenB
def isDelayed : Bool := es.type.testBit esDelayedB
def isHole : Bool := es.type.testBit esHoleB
def isReferenced : Bool := es.status.testBit esReferencedB

def setReferenced : ExtentStatus :=
  { es with pblk := es.pblk ||| 2 ^ (esReferencedB + esShift) }

def clearReferenced : ExtentStatus :=
  { es with pblk := es.pblk &&& (2 ^ 64 - 1 - 2 ^ (esReferencedB + esShift)) }

def pblock : ℕ := es.pblk % 2 ^ esShift

def storePblock (pb : ℕ) : ExtentStatus :=
  { es with pblk := es.pblk / 2 ^ esShift * 2 ^ esShift + pb % 2 ^ esShift }

def storePblockStatus (lblk len pb status : ℕ) : ExtentStatus :=
  ⟨lblk, len, status % 2 ^ esFlags * 2 ^ esShift + pb % 2 ^ esShift⟩

def esEnd : Option ℕ :=
  if wadd 32 es.lblk es.len < es.lblk then none else some (wsub 32 (wadd 32 es.lblk es.len) 1)

def inRange (b : ℕ) : Bool := es.lblk ≤ b && b ≤ wsub 32 (wadd 32 es.lblk es.len) 1

end ExtentStatus

open ExtentStatus

def canBeMerged (es₁ es₂ : ExtentStatus) : Bool :=
  if es₁.type ≠ es₂.type then false
  else if extMaxBlocks < es₁.len + es₂.len then false
  else if es₁.lblk + es₁.len ≠ es₂.lblk then false
  else if (es₁.isWritten || es₁.isUnwritten) && es₁.pblock + es₁.len = es₂.pblock then true
  else if es₁.isHole then true
  else es₁.isDelayed && !es₁.isUnwritten

structure Node where
  addr : ℕ
  es : ExtentStatus
  deriving DecidableEq, Repr

/-- The fields of `struct ext4_inode_info` for its extents; `nextAddr` is above the address of
every extent ever allocated. -/
structure Inode where
  root : Tree Node
  cacheEs : Option ℕ
  allNr : ℕ
  shkNr : ℕ
  shrinkLblk : ℕ
  nextAddr : ℕ

/-- `s_es_list` and `s_es_nr_inode` -/
structure SbInfo (ι : Type*) where
  esList : List ι
  esNrInode : ℤ

structure Held (ι : Type*) extends Inode, SbInfo ι

inductive Ret
  | ok | enomem

variable {ι : Type*} [DecidableEq ι]

namespace SbInfo

def listAdd (sb : SbInfo ι) (i : ι) : SbInfo ι :=
  if i ∈ sb.esList then sb else ⟨sb.esList ++ [i], sb.esNrInode + 1⟩

def listDel (sb : SbInfo ι) (i : ι) : SbInfo ι :=
  if i ∈ sb.esList then ⟨sb.esList.erase i, sb.esNrInode - 1⟩ else sb

end SbInfo

def Inode.setNode (ino : Inode) (n : Node) : Inode :=
  { ino with root := ino.root.map fun m => if m.addr = n.addr then n else m }

def Inode.deref (ino : Inode) (a : ℕ) : Option Node := ino.root.toList.find? (·.addr = a)

namespace Held

def allocExtent (h : Held ι) (i : ι) (es : ExtentStatus) (ok : Bool) : Option (Node × Held ι) :=
  if ok then
    let sb := if !es.isDelayed && h.shkNr = 0 then h.toSbInfo.listAdd i else h.toSbInfo
    some (⟨h.nextAddr, es⟩,
      { toInode :=
          { h.toInode with
            shkNr := if es.isDelayed then h.shkNr else wadd 32 h.shkNr 1
            allNr := wadd 32 h.allNr 1
            nextAddr := h.nextAddr + 1 }
        toSbInfo := sb })
  else none

def freeExtent (h : Held ι) (i : ι) (es : ExtentStatus) : Option (Held ι) :=
  let ino := { h.toInode with allNr := wsub 32 h.allNr 1 }
  if es.isDelayed then some ⟨ino, h.toSbInfo⟩
  else if h.shkNr = 0 then none
  else
    let shkNr := wsub 32 h.shkNr 1
    some ⟨{ ino with shkNr := shkNr }, if shkNr = 0 then h.toSbInfo.listDel i else h.toSbInfo⟩

end Held

def Node.absorb (n : Node) (es : ExtentStatus) : Node :=
  let grown := { n.es with len := wadd 32 n.es.len es.len }
  { n with es := if es.isReferenced then grown.setReferenced else grown }

def Node.absorbFront (n : Node) (es : ExtentStatus) : Node :=
  let grown := { n.es with lblk := es.lblk, len := wadd 32 n.es.len es.len }
  { n with es := if grown.isWritten || grown.isUnwritten then grown.storePblock es.pblk else grown }

/-- Where the walk of `__es_insert_extent` down the tree ends. -/
inductive Spot
  | before (n : Node)
  | after (n : Node)
  | leaf

def findSpot (newes : ExtentStatus) : Tree Node → Option Spot
  | .leaf => some .leaf
  | .node _ l n r =>
    if newes.lblk < n.es.lblk then
      if canBeMerged newes n.es then some (.before n) else findSpot newes l
    else
      n.es.esEnd.bind fun e =>
        if e < newes.lblk then
          if canBeMerged n.es newes then some (.after n) else findSpot newes r
        else none

/-- `__es_tree_search`; `es` is the extent visited last. -/
def esTreeSearchFrom (root : Tree Node) (lblk : ℕ) : Tree Node → Option Node → Option (Option Node)
  | .leaf, none => some none
  | .leaf, some es =>
    if lblk < es.es.lblk then some (some es)
    else es.es.esEnd.bind fun e => some (if e < lblk then root.next es else none)
  | .node _ l n r, _ =>
    if lblk < n.es.lblk then esTreeSearchFrom root lblk l (some n)
    else
      n.es.esEnd.bind fun e =>
        if e < lblk then esTreeSearchFrom root lblk r (some n) else some (some n)

def esTreeSearch (root : Tree Node) (lblk : ℕ) : Option (Option Node) :=
  esTreeSearchFrom root lblk root none

def Node.cutFront (n : Node) (last len : ℕ) : Node :=
  let cut := { n.es with lblk := wadd 32 last 1, len := len }
  { n with es :=
      if n.es.isWritten || n.es.isUnwritten then
        cut.storePblock (wsub 64 (wadd 64 n.es.pblk n.es.len) len)
      else cut }

def splitTail (es : ExtentStatus) (last len : ℕ) : ExtentStatus :=
  storePblockStatus (wadd 32 last 1) len
    (if es.isWritten || es.isUnwritten then wsub 64 (wadd 64 es.pblock es.len) len
      else 0x7FDEADBEEF) es.status

namespace Held

variable (rb : Tree.Balancer Node)

/-- `rb_erase` and `ext4_es_free_extent` -/
def eraseExtent (h : Held ι) (i : ι) (n : Node) : Option (Held ι) :=
  freeExtent ⟨{ h.toInode with root := rb.erase n h.root }, h.toSbInfo⟩ i n.es

def setNode (h : Held ι) (n : Node) : Held ι := ⟨h.toInode.setNode n, h.toSbInfo⟩

def setCache (h : Held ι) (a : Option ℕ) : Held ι := ⟨{ h.toInode with cacheEs := a }, h.toSbInfo⟩

def setShrinkLblk (h : Held ι) (b : ℕ) : Held ι :=
  ⟨{ h.toInode with shrinkLblk := b }, h.toSbInfo⟩

def tryToMergeLeft (h : Held ι) (i : ι) (n : Node) : Option (Node × Held ι) :=
  match h.root.prev n with
  | none => some (n, h)
  | some n₁ =>
    if canBeMerged n₁.es n.es then
      (eraseExtent rb (h.setNode (n₁.absorb n.es)) i n).map fun h' => (n₁.absorb n.es, h')
    else some (n, h)

def tryToMergeRight (h : Held ι) (i : ι) (n : Node) : Option (Node × Held ι) :=
  match h.root.next n with
  | none => some (n, h)
  | some n₁ =>
    if canBeMerged n.es n₁.es then
      (eraseExtent rb (h.setNode (n.absorb n₁.es)) i n₁).map fun h' => (n.absorb n₁.es, h')
    else some (n, h)

def linkExtent (h : Held ι) (n : Node) : Held ι :=
  ⟨{ h.toInode with
      root := rb.insertColor (h.root.linkAt (fun m => n.es.lblk < m.es.lblk) n) }, h.toSbInfo⟩

def esInsertExtent (h : Held ι) (i : ι) (newes : ExtentStatus) (ok : Bool) :
    Option (Ret × Held ι) :=
  (findSpot newes h.root).bind fun
    | .before n =>
      (tryToMergeLeft rb (h.setNode (n.absorbFront newes)) i (n.absorbFront newes)).map fun r =>
        (.ok, r.2.setCache (some r.1.addr))
    | .after n =>
      let grown : Node := { n with es := { n.es with len := wadd 32 n.es.len newes.len } }
      (tryToMergeRight rb (h.setNode grown) i grown).map fun r =>
        (.ok, r.2.setCache (some r.1.addr))
    | .leaf =>
      match h.allocExtent i newes ok with
      | none => some (.enomem, h)
      | some (n, h') => some (.ok, (h'.linkExtent rb n).setCache (some n.addr))

/-- The `while` loop of `__es_remove_extent` over the extents from the current one on. It gives
the extent that it stops at. -/
def eraseUpTo (i : ι) (last : ℕ) : List Node → Held ι → Option (Option Node × Held ι)
  | [], h => some (none, h)
  | n :: ns, h =>
    n.es.esEnd.bind fun e =>
      if e ≤ last then (h.eraseExtent rb i n).bind (eraseUpTo i last ns) else some (some n, h)

/-- The end of `__es_remove_extent`, which erases extents and cuts the next one. -/
def removeRest (i : ι) (last : ℕ) (ns : List Node) (h : Held ι) :
    Option (Ret × Held ι) :=
  (eraseUpTo rb i last ns h).bind fun
    | (none, h) => some (.ok, h)
    | (some m, h) =>
      if m.es.lblk < wadd 32 last 1 then
        m.es.esEnd.map fun e => (.ok, h.setNode (m.cutFront last (wsub 32 e last)))
      else some (.ok, h)

/-- `__es_remove_extent` up to its first failed allocation. -/
def esRemoveOnce (h : Held ι) (i : ι) (lblk last : ℕ) (ok : Bool) : Option (Ret × Held ι) :=
  (esTreeSearch h.root lblk).bind fun
    | none => some (.ok, h)
    | some n =>
      if last < n.es.lblk then some (.ok, h)
      else
        n.es.esEnd.bind fun e =>
          let h := h.setCache none
          let len₁ := if n.es.lblk < lblk then wsub 32 lblk n.es.lblk else 0
          let len₂ := if last < e then wsub 32 e last else 0
          let short : Node := if 0 < len₁ then { n with es := { n.es with len := len₁ } } else n
          if 0 < len₂ then
            if 0 < len₁ then
              ((h.setNode short).esInsertExtent rb i (splitTail n.es last len₂) ok).map fun r =>
                match r.1 with
                | .ok => r
                | .enomem => (.enomem, r.2.setNode n)
            else some (.ok, h.setNode (n.cutFront last len₂))
          else
            let rest := if 0 < len₁ then (h.root.nodesFrom n).tail else h.root.nodesFrom n
            (h.setNode short).removeRest rb i last rest

/-- The loop of `es_do_reclaim_extents` over the extents from the current one on. It gives
whether the budget is used up. -/
def reclaimLoop (i : ι) (last : ℕ) : List Node → Held ι → ℤ → ℕ → Option (Bool × Held ι × ℤ × ℕ)
  | [], h, nrToScan, nrShrunk => some (false, h.setShrinkLblk 0, nrToScan, nrShrunk)
  | n :: ns, h, nrToScan, nrShrunk =>
    if nrToScan ≤ 0 then some (true, h.setShrinkLblk n.es.lblk, nrToScan, nrShrunk)
    else if last < n.es.lblk then
      some (false, h.setShrinkLblk (wadd 32 last 1), nrToScan, nrShrunk)
    else if n.es.isDelayed then reclaimLoop i last ns h (nrToScan - 1) nrShrunk
    else if n.es.isReferenced then
      reclaimLoop i last ns (h.setNode { n with es := n.es.clearReferenced }) (nrToScan - 1) nrShrunk
    else
      (h.eraseExtent rb i n).bind fun h => reclaimLoop i last ns h (nrToScan - 1) (nrShrunk + 1)

def esDoReclaimExtents (h : Held ι) (i : ι) (last : ℕ) (nrToScan : ℤ) (nrShrunk : ℕ) :
    Option (Bool × Held ι × ℤ × ℕ) :=
  (esTreeSearch h.root h.shrinkLblk).bind fun
    | none => some (false, h.setShrinkLblk 0, nrToScan, nrShrunk)
    | some n => reclaimLoop rb i last (h.root.nodesFrom n) h nrToScan nrShrunk

def esReclaimExtents (h : Held ι) (i : ι) (nrToScan : ℤ) : Option (ℕ × Held ι × ℤ) :=
  if h.shkNr = 0 then some (0, h, nrToScan)
  else
    (h.esDoReclaimExtents rb i extMaxBlocks nrToScan 0).bind fun r =>
      if !r.1 && h.shrinkLblk ≠ 0 then
        (r.2.1.esDoReclaimExtents rb i (h.shrinkLblk - 1) r.2.2.1 r.2.2.2).map fun r' =>
          (r'.2.2.2, r'.2.1.setCache none, r'.2.2.1)
      else some (r.2.2.2, r.2.1.setCache none, r.2.2.1)

/-- The walk of `ext4_es_lookup_extent` down the tree. -/
def lookupFrom (lblk : ℕ) : Tree Node → Option (Option Node)
  | .leaf => some none
  | .node _ l n r =>
    if lblk < n.es.lblk then lookupFrom lblk l
    else n.es.esEnd.bind fun e => if e < lblk then lookupFrom lblk r else some (some n)

/-- The extent that `cache_es` points at. -/
def cached (h : Held ι) : Option (Option Node) :=
  match h.cacheEs with
  | none => some none
  | some a => (h.deref a).map some

/-- `ext4_es_lookup_extent`. The extent given back has its reference bit set, the one in the tree
keeps its own. -/
def ext4EsLookupExtent (h : Held ι) (lblk : ℕ) : Option (Option ExtentStatus) :=
  h.cached.bind fun c =>
    match c.filter fun n : Node => n.es.inRange lblk with
    | some n => some (some n.es.setReferenced)
    | none => (lookupFrom lblk h.root).map fun found => found.map fun n => n.es.setReferenced

/-- The loop of `ext4_es_find_delayed_extent_range` over the extents after the current one. -/
def nextDelayed (last : ℕ) : List Node → Node → Option Node
  | [], n => some n
  | m :: ns, _ => if last < m.es.lblk then none else if m.es.isDelayed then some m
    else nextDelayed last ns m

/-- The extent that `cache_es` points at, if it has the block, and else what the search finds. -/
def findExtent (h : Held ι) (lblk : ℕ) : Option (Option Node) :=
  h.cached.bind fun c =>
    match c.filter fun n : Node => n.es.inRange lblk with
    | some n => some (some n)
    | none => esTreeSearch h.root lblk

def ext4EsFindDelayedExtentRange (h : Held ι) (lblk last : ℕ) :
    Option (Option ExtentStatus × Held ι) :=
  if last < lblk then none
  else
    (h.findExtent lblk).bind fun found =>
      let found := found.bind fun n : Node =>
        if n.es.isDelayed then some n else nextDelayed last (h.root.nodesFrom n).tail n
      match found.filter fun n : Node => n.es.isDelayed with
      | some n => some (some n.es, h.setCache (some n.addr))
      | none => some (none, h)

end Held

structure Fs (ι : Type*) where
  inode : ι → Inode
  sb : SbInfo ι

namespace Fs

def held (fs : Fs ι) (i : ι) : Held ι := ⟨fs.inode i, fs.sb⟩

def put (fs : Fs ι) (i : ι) (h : Held ι) : Fs ι :=
  ⟨Function.update fs.inode i h.toInode, h.toSbInfo⟩

/-- The inodes with `EXT4_STATE_EXT_PRECACHED`, and whether the lock of the inode that a walk comes
to is taken. -/
structure Trial (ι : Type*) where
  precached : ι → Bool
  busy : Bool → ℕ → Bool

variable (rb : Tree.Balancer Node)

/-- What a walk over `s_es_list` leaves: whether the budget is used up or the list empty, the budget,
the extents freed and the inodes skipped. -/
structure Walk (ι : Type*) where
  out : Bool
  fs : Fs ι
  nrToScan : ℤ
  nrShrunk : ℕ
  nrSkipped : ℕ

/-- The `while` loop of `__es_shrink`. -/
def walk (lockedEi : Option ι) (t : Trial ι) (retried : Bool) : ℕ → Walk ι → Option (Walk ι)
  | 0, w => some w
  | n + 1, w =>
    match w.fs.sb.esList with
    | [] => some { w with out := true }
    | ei :: rest =>
      let fs : Fs ι := { w.fs with sb := { w.fs.sb with esList := rest ++ [ei] } }
      if (!retried && t.precached ei) || lockedEi = some ei || t.busy retried n then
        walk lockedEi t retried n { w with fs := fs, nrSkipped := w.nrSkipped + 1 }
      else
        ((fs.held ei).esReclaimExtents rb ei w.nrToScan).bind fun r =>
          let w' := { w with
            fs := fs.put ei r.2.1, nrToScan := r.2.2, nrShrunk := w.nrShrunk + r.1 }
          if r.2.2 ≤ 0 then some { w' with out := true } else walk lockedEi t retried n w'

/-- The end of `__es_shrink`, after the walks. -/
def shrinkLocked (lockedEi : Option ι) (w : Walk ι) : Option (ℕ × Fs ι) :=
  match lockedEi with
  | none => some (w.nrShrunk, w.fs)
  | some i =>
    if w.nrShrunk = 0 then
      ((w.fs.held i).esReclaimExtents rb i w.nrToScan).map fun r => (r.1, w.fs.put i r.2.1)
    else some (w.nrShrunk, w.fs)

def esShrink (fs : Fs ι) (nrToScan : ℤ) (lockedEi : Option ι) (t : Trial ι) : Option (ℕ × Fs ι) :=
  (walk rb lockedEi t false fs.sb.esNrInode.toNat ⟨false, fs, nrToScan, 0, 0⟩).bind fun w =>
    if w.out then some (w.nrShrunk, w.fs)
    else if w.nrShrunk = 0 ∧ w.nrSkipped ≠ 0 then
      (walk rb lockedEi t true w.fs.sb.esNrInode.toNat w).bind fun w =>
        if w.out then some (w.nrShrunk, w.fs) else shrinkLocked rb lockedEi w
    else shrinkLocked rb lockedEi w

/-- `__es_remove_extent`. Each entry of the list is a failed allocation, with what the shrinker
then finds. -/
def esRemoveExtent (i : ι) (lblk last : ℕ) : List (Trial ι) → Fs ι → Option (Ret × Fs ι)
  | [], fs => ((fs.held i).esRemoveOnce rb i lblk last true).map fun r => (r.1, fs.put i r.2)
  | t :: ts, fs =>
    ((fs.held i).esRemoveOnce rb i lblk last false).bind fun r =>
      match r.1 with
      | .ok => some (.ok, fs.put i r.2)
      | .enomem =>
        (esShrink rb (fs.put i r.2) 128 (some i) t).bind fun s =>
          if s.1 ≠ 0 then esRemoveExtent i lblk last ts s.2 else some (.enomem, s.2)

/-- The insertion loop of `ext4_es_insert_extent`. -/
def insertRetry (i : ι) (newes : ExtentStatus) : List (Trial ι) → Fs ι → Option (Ret × Fs ι)
  | [], fs => ((fs.held i).esInsertExtent rb i newes true).map fun r => (r.1, fs.put i r.2)
  | t :: ts, fs =>
    ((fs.held i).esInsertExtent rb i newes false).bind fun r =>
      match r.1 with
      | .ok => some (.ok, fs.put i r.2)
      | .enomem =>
        (esShrink rb (fs.put i r.2) 128 (some i) t).bind fun s =>
          if s.1 ≠ 0 then insertRetry i newes ts s.2
          else some (if newes.isDelayed then .enomem else .ok, s.2)

/-- `ext4_es_insert_extent`; the two lists are the failed allocations of the removal and of the
insertion. -/
def ext4EsInsertExtent (fs : Fs ι) (i : ι) (lblk len pblk status : ℕ) (ts₁ ts₂ : List (Trial ι)) :
    Option (Ret × Fs ι) :=
  let last := wsub 32 (wadd 32 lblk len) 1
  if len = 0 then some (.ok, fs)
  else if last < lblk then none
  else
    (esRemoveExtent rb i lblk last ts₁ fs).bind fun r =>
      match r.1 with
      | .enomem => some r
      | .ok => insertRetry rb i (storePblockStatus lblk len pblk status) ts₂ r.2

def ext4EsCacheExtent (fs : Fs ι) (i : ι) (lblk len pblk status : ℕ) (ok : Bool) :
    Option (Fs ι) :=
  let last := wsub 32 (wadd 32 lblk len) 1
  if len = 0 then some fs
  else if last < lblk then none
  else
    (esTreeSearch (fs.inode i).root lblk).bind fun found =>
      if found.all fun n => last < n.es.lblk then
        ((fs.held i).esInsertExtent rb i (storePblockStatus lblk len pblk status) ok).map fun r =>
          fs.put i r.2
      else some fs

def ext4EsRemoveExtent (fs : Fs ι) (i : ι) (lblk len : ℕ) (ts : List (Trial ι)) :
    Option (Ret × Fs ι) :=
  let last := wsub 32 (wadd 32 lblk len) 1
  if len = 0 then some (.ok, fs)
  else if last < lblk then none
  else esRemoveExtent rb i lblk last ts fs

def ext4EsScan (fs : Fs ι) (nrToScan : ℤ) (t : Trial ι) : Option (Fs ι) :=
  if nrToScan = 0 then some fs else (esShrink rb fs nrToScan none t).map Prod.snd

def init : Fs ι := ⟨fun _ => ⟨.leaf, none, 0, 0, 0, 0⟩, ⟨[], 0⟩⟩

end Fs

/-- The calls on the extents of inodes, with the failures that they meet. -/
inductive Op (ι : Type*)
  | insert (i : ι) (lblk len pblk status : ℕ) (ts₁ ts₂ : List (Fs.Trial ι))
  | cache (i : ι) (lblk len pblk status : ℕ) (ok : Bool)
  | remove (i : ι) (lblk len : ℕ) (ts : List (Fs.Trial ι))
  | lookup (i : ι) (lblk : ℕ)
  | findDelayed (i : ι) (lblk last : ℕ)
  | scan (nrToScan : ℤ) (t : Fs.Trial ι)

def step (rb : Tree.Balancer Node) (fs : Fs ι) : Op ι → Option (Fs ι)
  | .insert i lblk len pblk status ts₁ ts₂ =>
    (fs.ext4EsInsertExtent rb i lblk len pblk status ts₁ ts₂).map Prod.snd
  | .cache i lblk len pblk status ok => fs.ext4EsCacheExtent rb i lblk len pblk status ok
  | .remove i lblk len ts => (fs.ext4EsRemoveExtent rb i lblk len ts).map Prod.snd
  | .lookup i lblk => ((fs.held i).ext4EsLookupExtent lblk).map fun _ => fs
  | .findDelayed i lblk last =>
    ((fs.held i).ext4EsFindDelayedExtentRange lblk last).map fun r => fs.put i r.2
  | .scan nrToScan t => fs.ext4EsScan rb nrToScan t

end Cupcake.Ext4
