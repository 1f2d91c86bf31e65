import Cupcake.Selinux.Context

/-! The SID table of `sidtab.c`. Nodes are never changed or freed while the table is in
use, so a pointer to a node is the node. -/

namespace Cupcake.Selinux.Sidtab

structure Node where
  sid : ℕ
  context : Context

def sidtabSize : ℕ := 128

def cacheLen : ℕ := 3

/-- `SECINITSID_UNLABELED` -/
def unlabeledSid : ℕ := 3

def uintMax : ℕ := 2 ^ 32 - 1

/-- `struct sidtab` -/
structure Table where
  htable : ℕ → List Node
  nel : ℕ
  nextSid : ℕ
  shutdown : Bool
  cache : ℕ → Option Node

/-- `sidtab_init` on a zeroed structure. -/
def init : Table := ⟨fun _ => [], 0, 1, false, fun _ => none⟩

def hash (sid : ℕ) : ℕ := sid % sidtabSize

def eexist : Int := -17

/-! ## Inserting and searching by SID -/

/-- The walk of `sidtab_insert` down a chain; `new` is the node if it could be made. -/
def chainInsert (sid : ℕ) (new : Option Node) : List Node → List Node × Int
  | [] =>
    match new with
    | some n => ([n], 0)
    | none => ([], enomem)
  | cur :: rest =>
    if sid > cur.sid then
      ((cur :: (chainInsert sid new rest).1), (chainInsert sid new rest).2)
    else if sid = cur.sid then (cur :: rest, eexist)
    else
      match new with
      | some n => (n :: cur :: rest, 0)
      | none => (cur :: rest, enomem)

def newNode (sid : ℕ) (context : Context) (a : Allocs) : Option Node :=
  if a.node then (contextCpy context a).map (⟨sid, ·⟩) else none

def sidtabInsert (s : Table) (sid : ℕ) (context : Context) (a : Allocs) : Table × Int :=
  let (chain, rc) := chainInsert sid (newNode sid context a) (s.htable (hash sid))
  if rc = 0 then
    ({ s with
      htable := Function.update s.htable (hash sid) chain
      nel := (s.nel + 1) % 2 ^ 32
      nextSid := if sid ≥ s.nextSid then (sid + 1) % 2 ^ 32 else s.nextSid }, 0)
  else (s, rc)

def chainFind (sid : ℕ) : List Node → Option Node
  | [] => none
  | cur :: rest => if sid > cur.sid then chainFind sid rest else some cur

def sidtabSearchCore (s : Table) (sid : ℕ) (force : Bool) : Option Context :=
  let unlabeled :=
    match chainFind unlabeledSid (s.htable (hash unlabeledSid)) with
    | some cur => if unlabeledSid ≠ cur.sid then none else some cur.context
    | none => none
  match chainFind sid (s.htable (hash sid)) with
  | some cur =>
    if force ∧ sid = cur.sid ∧ cur.context.len ≠ 0 then some cur.context
    else if sid ≠ cur.sid ∨ cur.context.len ≠ 0 then unlabeled
    else some cur.context
  | none => unlabeled

def sidtabSearch (s : Table) (sid : ℕ) : Option Context := sidtabSearchCore s sid false

def sidtabSearchForce (s : Table) (sid : ℕ) : Option Context := sidtabSearchCore s sid true

/-! ## Searching by context -/

/-- The loop of `sidtab_update_cache`. -/
def shiftCache (n : Node) : ℕ → (ℕ → Option Node) → ℕ → Option Node
  | 0, cache => Function.update cache 0 (some n)
  | loc + 1, cache => shiftCache n loc (Function.update cache (loc + 1) (cache loc))

def sidtabUpdateCache (s : Table) (n : Node) (loc : ℕ) : Table :=
  { s with cache := shiftCache n loc s.cache }

def nodes (s : Table) : List Node := (List.range sidtabSize).flatMap s.htable

def scan (s : Table) (context : Context) : Option Node :=
  (nodes s).find? fun cur => contextCmp cur.context context

def sidtabSearchContext (s : Table) (context : Context) : Table × ℕ :=
  match scan s context with
  | some cur => (sidtabUpdateCache s cur (cacheLen - 1), cur.sid)
  | none => (s, 0)

/-- The loop of `sidtab_search_cache` over the slots from `i` on. -/
def searchCacheLoop (s : Table) (context : Context) : ℕ → ℕ → Table × ℕ
  | 0, _ => (s, 0)
  | slots + 1, i =>
    match s.cache i with
    | none => (s, 0)
    | some node =>
      if contextCmp node.context context then (sidtabUpdateCache s node i, node.sid)
      else searchCacheLoop s context slots (i + 1)

def sidtabSearchCache (s : Table) (context : Context) : Table × ℕ :=
  searchCacheLoop s context cacheLen 0

/-- The part of `sidtab_context_to_sid` under the lock. -/
def allocateSid (s : Table) (context : Context) (a : Allocs) : Table × Int × ℕ :=
  let (s, sid) := sidtabSearchContext s context
  if sid ≠ 0 then (s, 0, sid)
  else if s.nextSid = uintMax ∨ s.shutdown then (s, enomem, 0)
  else
    let sid := s.nextSid
    let (s, rc) := sidtabInsert { s with nextSid := (s.nextSid + 1) % 2 ^ 32 } sid context a
    if rc = 0 then (s, 0, sid) else ({ s with nextSid := wsub 32 s.nextSid 1 }, rc, 0)

def sidtabShutdown (s : Table) : Table := { s with shutdown := true }

/-- `sidtab_context_to_sid`: the table, the result and `*out_sid`. -/
def sidtabContextToSid (s : Table) (context : Context) (a : Allocs) : Table × Int × ℕ :=
  let (s, sid) := sidtabSearchCache s context
  if sid ≠ 0 then (s, 0, sid)
  else
    let (s, sid) := sidtabSearchContext s context
    if sid ≠ 0 then (s, 0, sid) else allocateSid s context a

end Cupcake.Selinux.Sidtab
