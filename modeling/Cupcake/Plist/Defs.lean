import Cupcake.Lib.Links
import Cupcake.Lib.Run
import Mathlib.Data.List.Sort

/-! Lists sorted by priority, after `lib/plist.c`. -/

namespace Cupcake.Plist

variable {N : Type*} [DecidableEq N]

/-- A `plist_head` and the nodes in memory. In `nodeList`, `none` is the `node_list` of the head.
The `WARN_ON`s of the source only print, and are left out. -/
@[ext] structure PlistHead (N : Type*) where
  prio : N → ℤ
  nodeList : Links (Option N)
  prioList : Links N

/-- The loop of `plist_add` along `prio_list`. It leaves `node_next`, `prev` and `iter`. -/
def addLoop (s : PlistHead N) (node first : N) :
    ℕ → N → Option N → Option (Option N × Option N × N)
  | 0, _, _ => none
  | fuel + 1, iter, prev =>
    if s.prio node < s.prio iter then some (some iter, prev, iter)
    else if s.prioList.next iter = first then some (none, some iter, first)
    else addLoop s node first fuel (s.prioList.next iter) (some iter)

def plistAdd (fuel : ℕ) (node : N) (s : PlistHead N) : Option (PlistHead N) :=
  if s.nodeList.isEmpty none then
    some { s with nodeList := s.nodeList.addTail (some node) none }
  else do
    let first ← s.nodeList.next none
    let (nodeNext, prev, iter) ← addLoop s node first fuel first none
    let prioList :=
      if prev.map s.prio ≠ some (s.prio node) then s.prioList.addTail node iter else s.prioList
    return { s with
      nodeList := s.nodeList.addTail (some node) nodeNext
      prioList := prioList }

/-- What `plist_del` does to `prio_list`. -/
def delPrio (node : N) (s : PlistHead N) : Links N :=
  if s.prioList.isEmpty node then s.prioList
  else
    match s.nodeList.next (some node) with
    | none => s.prioList.delInit node
    | some next =>
      if s.prioList.isEmpty next then (s.prioList.add next node).delInit node
      else s.prioList.delInit node

def plistDel (node : N) (s : PlistHead N) : PlistHead N where
  prio := s.prio
  nodeList := s.nodeList.delInit (some node)
  prioList := delPrio node s

/-- The loop of `plist_requeue` behind `iter`: it leaves `node_next`. -/
def requeueLoop (s : PlistHead N) (node : N) : ℕ → N → Option (Option N)
  | 0, _ => none
  | fuel + 1, iter =>
    match s.nodeList.next (some iter) with
    | none => some none
    | some next =>
      if s.prio node ≠ s.prio next then some (some next) else requeueLoop s node fuel next

/-- Nothing comes back from a `BUG_ON`. -/
def plistRequeue (fuel : ℕ) (node : N) (s : PlistHead N) : Option (PlistHead N) :=
  if s.nodeList.isEmpty none then none
  else if s.nodeList.isEmpty (some node) then none
  else if s.nodeList.prev none = some node then some s
  else do
    let iter ← s.nodeList.next (some node)
    if s.prio node ≠ s.prio iter then return s
    let s := plistDel node s
    let nodeNext ← requeueLoop s node fuel iter
    return { s with nodeList := s.nodeList.addTail (some node) nodeNext }

/-! ## Runs -/

/-- A node gets its priority from `plist_node_init`, before it is added. -/
inductive Op (N : Type*)
  | add (node : N) (prio : ℤ)
  | del (node : N)
  | requeue (node : N)

def exec (fuel : ℕ) (s : PlistHead N) : Op N → Option (PlistHead N)
  | .add node prio => plistAdd fuel node { s with prio := Function.update s.prio node prio }
  | .del node => some (plistDel node s)
  | .requeue node => plistRequeue fuel node s

/-- The list, and for each member when it was added or requeued last. -/
structure Sys (N : Type*) where
  plist : PlistHead N
  since : N → Option ℕ
  clock : ℕ

def Sys.init (prio : N → ℤ) : Sys N := ⟨⟨prio, ⟨id, id⟩, ⟨id, id⟩⟩, fun _ => none, 0⟩

def Op.node : Op N → N
  | .add node _ => node
  | .del node => node
  | .requeue node => node

def Op.since (clock : ℕ) : Op N → Option ℕ
  | .add _ _ => some clock
  | .del _ => none
  | .requeue _ => some clock

/-- Only nodes that are not on the list are added, and only members deleted or requeued. -/
def allowed (s : Sys N) : Op N → Prop
  | .add node _ => s.since node = none
  | .del node => (s.since node).isSome
  | .requeue node => (s.since node).isSome

/-- One call, with the number of rounds that its loop may take. -/
def step (s : Sys N) (i : Op N × ℕ) : Option (Sys N) :=
  (exec i.2 s.plist i.1).map fun p =>
    ⟨p, Function.update s.since i.1.node (i.1.since s.clock), s.clock + 1⟩

def firsts (prio : N → ℤ) : List N → List N
  | [] => []
  | a :: l => a :: (firsts prio l).filter fun b => prio b ≠ prio a

/-- `node_list` has the list's members, and `prio_list` the first of each priority. -/
structure Shape (s : PlistHead N) (l : List N) : Prop where
  nodes : s.nodeList.Ring none (l.map some)
  nodes_rest : ∀ n ∉ l, s.nodeList.Ring (some n) []
  prios : s.prioList.Cycle (firsts s.prio l)
  prios_rest : ∀ n ∉ firsts s.prio l, s.prioList.Ring n []

end Cupcake.Plist
