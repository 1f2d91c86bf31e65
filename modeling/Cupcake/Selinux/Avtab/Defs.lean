import Mathlib.Data.Nat.Size
import Cupcake.Selinux.Ebitmap.Defs

/-! The access vector tables of `avtab.c`. A pointer into a chain is the rest of the chain
from that node on. -/

namespace Cupcake.Selinux

/-! ## What a rule specifies -/

def avtabAllowed : BitVec 16 := 0x0001#16

def avtabAuditallow : BitVec 16 := 0x0002#16

def avtabAuditdeny : BitVec 16 := 0x0004#16

def avtabAv : BitVec 16 := avtabAllowed ||| avtabAuditallow ||| avtabAuditdeny

def avtabXpermsAllowed : BitVec 16 := 0x0100#16

def avtabXperms : BitVec 16 := avtabXpermsAllowed ||| 0x0200#16 ||| 0x0400#16

def avtabEnabled : BitVec 16 := 0x8000#16

structure AvtabKey where
  sourceType : BitVec 16
  targetType : BitVec 16
  targetClass : BitVec 16
  specified : BitVec 16

structure ExtendedPerms where
  specified : ℕ
  driver : ℕ
  perms : Fin 8 → BitVec 32

inductive AvtabDatum where
  | data (data : BitVec 32)
  | xperms (xperms : ExtendedPerms)

structure AvtabNode where
  key : AvtabKey
  datum : AvtabDatum

structure Avtab where
  htable : Option (BitVec 32 → List AvtabNode)
  nel : ℕ
  mask : BitVec 32

/-- What `evaluate_cond_node` does to `key.specified` of a rule. -/
def setEnabled (on : Bool) (specified : BitVec 16) : BitVec 16 :=
  if on then specified ||| avtabEnabled else specified &&& ~~~ avtabEnabled

/-! ## Hashing and ordering -/

/-- The `mix` of `avtab_hash`. -/
def avtabMix (hash v : BitVec 32) : BitVec 32 :=
  let v := v * 0xcc9e2d51#32
  let v := (v <<< 15) ||| (v >>> 17)
  let hash := hash ^^^ (v * 0x1b873593#32)
  let hash := (hash <<< 13) ||| (hash >>> 19)
  hash * 5#32 + 0xe6546b64#32

def avtabHash (key : AvtabKey) (mask : BitVec 32) : BitVec 32 :=
  let hash := avtabMix 0 (key.targetClass.setWidth 32)
  let hash := avtabMix hash (key.targetType.setWidth 32)
  let hash := avtabMix hash (key.sourceType.setWidth 32)
  let hash := hash ^^^ (hash >>> 16)
  let hash := hash * 0x85ebca6b#32
  let hash := hash ^^^ (hash >>> 13)
  let hash := hash * 0xc2b2ae35#32
  let hash := hash ^^^ (hash >>> 16)
  hash &&& mask

def sameTriple (k cur : AvtabKey) : Bool :=
  k.sourceType = cur.sourceType && k.targetType = cur.targetType && k.targetClass = cur.targetClass

def pastKey (k cur : AvtabKey) : Bool :=
  k.sourceType < cur.sourceType ||
    (k.sourceType = cur.sourceType && k.targetType < cur.targetType) ||
    (k.sourceType = cur.sourceType && k.targetType = cur.targetType &&
      k.targetClass < cur.targetClass)

def matchesKey (k cur : AvtabKey) (specified : BitVec 16) : Bool :=
  sameTriple k cur && specified &&& cur.specified ≠ 0

/-- `specified & ~(AVTAB_ENABLED|AVTAB_ENABLED_OLD)` in sixteen bits. -/
def plainSpecified (specified : BitVec 16) : BitVec 16 := specified &&& ~~~ avtabEnabled

def maxAvtabHashBuckets : ℕ := 2 ^ 16

def avtabAlloc (nrules : ℕ) : Avtab :=
  if nrules = 0 then ⟨none, 0, 0⟩
  else
    -- the loop counts the bits of `nrules`
    let shift := Nat.size nrules
    let shift := if shift > 2 then shift - 2 else shift
    ⟨some fun _ => [], 0, BitVec.ofNat 32 (min (2 ^ shift) maxAvtabHashBuckets - 1)⟩

/-! ## Inserting -/

def avtabEexist : Int := -17

def avtabEinval : Int := -22

/-- The walk of `avtab_insert`; the new node goes before the node where the walk ends. -/
def insertLoop (new : AvtabNode) (specified : BitVec 16) : List AvtabNode → Option (List AvtabNode)
  | [] => some [new]
  | cur :: rest =>
    if matchesKey new.key cur.key specified then
      if specified &&& avtabXperms ≠ 0 then some (new :: cur :: rest) else none
    else if pastKey new.key cur.key then some (new :: cur :: rest)
    else (insertLoop new specified rest).map (cur :: ·)

/-- The walk of `avtab_insert_nonunique`. -/
def insertNonuniqueLoop (new : AvtabNode) (specified : BitVec 16) :
    List AvtabNode → List AvtabNode
  | [] => [new]
  | cur :: rest =>
    if matchesKey new.key cur.key specified then new :: cur :: rest
    else if pastKey new.key cur.key then new :: cur :: rest
    else cur :: insertNonuniqueLoop new specified rest

def Avtab.setChain (h : Avtab) (table : BitVec 32 → List AvtabNode) (hvalue : BitVec 32)
    (chain : List AvtabNode) : Avtab :=
  { h with htable := some (Function.update table hvalue chain), nel := (h.nel + 1) % 2 ^ 32 }

/-- `avtab_insert`; `alloc` says whether `avtab_insert_node` got its memory. -/
def avtabInsert (h : Avtab) (new : AvtabNode) (alloc : Bool) : Avtab × Int :=
  match h.htable with
  | none => (h, avtabEinval)
  | some table =>
    let hvalue := avtabHash new.key h.mask
    match insertLoop new (plainSpecified new.key.specified) (table hvalue) with
    | none => (h, avtabEexist)
    | some chain => if alloc then (h.setChain table hvalue chain, 0) else (h, enomem)

def avtabInsertNonunique (h : Avtab) (new : AvtabNode) (alloc : Bool) : Avtab × Bool :=
  match h.htable with
  | none => (h, false)
  | some table =>
    let hvalue := avtabHash new.key h.mask
    let chain := insertNonuniqueLoop new (plainSpecified new.key.specified) (table hvalue)
    if alloc then (h.setChain table hvalue chain, true) else (h, false)

/-! ## Searching -/

/-- The walk of `avtab_search_node` and `avtab_search_node_next`. -/
def searchLoop (key : AvtabKey) (specified : BitVec 16) : List AvtabNode → List AvtabNode
  | [] => []
  | cur :: rest =>
    if matchesKey key cur.key specified then cur :: rest
    else if pastKey key cur.key then []
    else searchLoop key specified rest

def avtabSearchNode (h : Avtab) (key : AvtabKey) : List AvtabNode :=
  match h.htable with
  | none => []
  | some table =>
    searchLoop key (plainSpecified key.specified) (table (avtabHash key h.mask))

def avtabSearchNodeNext (node : List AvtabNode) (specified : BitVec 16) : List AvtabNode :=
  match node with
  | [] => []
  | cur :: rest => searchLoop cur.key (plainSpecified specified) rest

/-- The nodes of `for (node = avtab_search_node(..); node; node = avtab_search_node_next(..))`
from `node` on; `fuel` bounds the turns. -/
def visitFrom (specified : BitVec 16) : ℕ → List AvtabNode → List AvtabNode
  | 0, _ => []
  | _, [] => []
  | fuel + 1, cur :: rest =>
    cur :: visitFrom specified fuel (avtabSearchNodeNext (cur :: rest) specified)

def avtabVisit (h : Avtab) (key : AvtabKey) : List AvtabNode :=
  visitFrom key.specified (avtabSearchNode h key).length (avtabSearchNode h key)

end Cupcake.Selinux
