import Cupcake.Lib.Links
import Mathlib.Algebra.Order.Group.Int

/-! Sorting a linked list in place, after `lib/list_sort.c`. A pointer is an `Option`; `cmp` is
called for its value only. -/

namespace Cupcake.ListSort

variable {N : Type*} [DecidableEq N]

def maxListLengthBits : ℕ := 20

def link (back : Bool) (m : Links (Option N)) (tail : Option N) (x : N) : Links (Option N) :=
  if back then (m.setNext tail (some x)).setPrev (some x) tail else m.setNext tail (some x)

/-- The loop `while (a && b)` of `merge` and, with the links back, of
`merge_and_restore_back_links`. It leaves `tail`, `a` and `b`. -/
def mergeLoop (cmp : N → N → ℤ) (back : Bool) : ℕ → Links (Option N) →
    Option N → Option N → Option N → Option (Links (Option N) × Option N × Option N × Option N)
  | 0, _, _, _, _ => none
  | fuel + 1, m, tail, some a, some b =>
    if cmp a b ≤ 0 then
      mergeLoop cmp back fuel (link back m tail a) (some a) ((link back m tail a).next (some a))
        (some b)
    else
      mergeLoop cmp back fuel (link back m tail b) (some b) (some a)
        ((link back m tail b).next (some b))
  | _ + 1, m, tail, a, b => some (m, tail, a, b)

def merge (cmp : N → N → ℤ) (tmp : N) (fuel : ℕ) (m : Links (Option N)) (a b : Option N) :
    Option (Links (Option N) × Option N) := do
  let (m, tail, a, b) ← mergeLoop cmp false fuel m (some tmp) a b
  let m := m.setNext tail (a.or b)
  return (m, m.next (some tmp))

/-- The second loop of `merge_and_restore_back_links`. It leaves `tail`. -/
def backLoop : ℕ → Links (Option N) → Option N → Option (Links (Option N) × Option N)
  | 0, _, _ => none
  | fuel + 1, m, tail =>
    match m.next tail with
    | none => none
    | some t =>
      let m := m.setPrev (some t) tail
      if m.next (some t) = none then some (m, some t) else backLoop fuel m (some t)

def mergeAndRestoreBackLinks (cmp : N → N → ℤ) (head : N) (fuel : ℕ) (m : Links (Option N))
    (a b : Option N) : Option (Links (Option N)) := do
  let (m, tail, a, b) ← mergeLoop cmp true fuel m (some head) a b
  let m := m.setNext tail (a.or b)
  let (m, tail) ← backLoop fuel m tail
  return (m.setNext tail (some head)).setPrev (some head) tail

/-- The loop over `part`, from `lev` on, that merges `cur` with the lists it finds. Nothing comes
back from an access behind the array. -/
def levLoop (cmp : N → N → ℤ) (tmp : N) (fuel : ℕ) : ℕ → Links (Option N) → (ℕ → Option N) →
    Option N → ℕ → Option (Links (Option N) × (ℕ → Option N) × Option N × ℕ)
  | 0, _, _, _, _ => none
  | left + 1, m, part, cur, lev =>
    if part lev = none then some (m, part, cur, lev)
    else do
      let (m, cur) ← merge cmp tmp fuel m (part lev) cur
      levLoop cmp tmp fuel left m (Function.update part lev none) cur (lev + 1)

/-- The loop `while (list)`, with `part` and `max_lev`. -/
def sortLoop (cmp : N → N → ℤ) (tmp : N) (fuel : ℕ) : ℕ → Links (Option N) → (ℕ → Option N) →
    ℕ → Option N → Option (Links (Option N) × (ℕ → Option N) × ℕ)
  | 0, _, _, _, _ => none
  | _ + 1, m, part, maxLev, none => some (m, part, maxLev)
  | left + 1, m, part, maxLev, some cur => do
    let list := m.next (some cur)
    let m := m.setNext (some cur) none
    let (m, part, cur, lev) ← levLoop cmp tmp fuel (maxListLengthBits + 1) m part (some cur) 0
    let lev' := if maxLev < lev ∧ maxListLengthBits ≤ lev then lev - 1 else lev
    let maxLev' := if maxLev < lev then lev' else maxLev
    sortLoop cmp tmp fuel left m (Function.update part lev' cur) maxLev' list

/-- The loop that merges the lists below `max_lev`, given as a list of levels. -/
def finalLoop (cmp : N → N → ℤ) (tmp : N) (fuel : ℕ) (part : ℕ → Option N) :
    List ℕ → Links (Option N) → Option N → Option (Links (Option N) × Option N)
  | [], m, list => some (m, list)
  | lev :: levs, m, list =>
    if part lev = none then finalLoop cmp tmp fuel part levs m list
    else do
      let (m, list) ← merge cmp tmp fuel m (part lev) list
      finalLoop cmp tmp fuel part levs m list

def listSort (cmp : N → N → ℤ) (tmp head : N) (fuel : ℕ) (m : Links (Option N)) :
    Option (Links (Option N)) :=
  if m.isEmpty (some head) then some m
  else do
    let m := m.setNext (m.prev (some head)) none
    let (m, part, maxLev) ← sortLoop cmp tmp fuel fuel m (fun _ => none) 0 (m.next (some head))
    let (m, list) ← finalLoop cmp tmp fuel part (List.range maxLev) m none
    mergeAndRestoreBackLinks cmp head fuel m (part maxLev) list

end Cupcake.ListSort
