import Cupcake.Lib.Run
import Cupcake.Lib.Segments

/-! POSIX record locks: the lists of the inodes, the requests blocked on them, and
`__posix_lock_file`. Locks have an identity, since the code writes through pointers to them. -/

namespace Cupcake.Fs.Locks

inductive Ltype
  | rdlck
  | wrlck
  | unlck
  deriving DecidableEq, Repr

variable {I O : Type*} [DecidableEq I] [DecidableEq O]

/-- `struct file_lock`. Two locks have the same owner in the sense of `posix_same_owner` if the
owners are equal; `ofdlck` is the flag `FL_OFDLCK`. -/
structure FileLock (O : Type*) where
  id : ℕ
  owner : O
  type : Ltype
  start : ℕ
  stop : ℕ
  ofdlck : Bool

/-- A request in the block list of a lock: its owner, and the lock `fl_next` it waits for. It is
found through `blocked_hash` only if it was put there. -/
structure Waiter (O : Type*) where
  id : ℕ
  owner : O
  blocker : ℕ
  blockerOwner : O
  hashed : Bool

/-- `flctx` is `i_flctx` with its list `flc_posix`, if the inode has one. `blocked` has the newest
request first, as each chain of the hash has. -/
structure State (I O : Type*) where
  flctx : I → Option (List (FileLock O))
  blocked : List (Waiter O)
  next : ℕ

def State.empty : State I O := ⟨fun _ => none, [], 0⟩

def State.posix (s : State I O) (i : I) : List (FileLock O) := (s.flctx i).getD []

def offsetMax : ℕ := 2 ^ 63 - 1

inductive Ret
  | zero
  | eagain
  | edeadlk
  | deferred
  | enolck
  | enoent
  | enomem

/-! ## Conflicts -/

def locksOverlap (fl1 fl2 : FileLock O) : Bool := fl1.stop ≥ fl2.start && fl2.stop ≥ fl1.start

def posixSameOwner (fl1 fl2 : FileLock O) : Bool := fl1.owner = fl2.owner

def locksConflict (callerFl sysFl : FileLock O) : Bool :=
  if sysFl.type = .wrlck then true
  else if callerFl.type = .wrlck then true
  else false

def posixLocksConflict (callerFl sysFl : FileLock O) : Bool :=
  if posixSameOwner callerFl sysFl then false
  else if !locksOverlap callerFl sysFl then false
  else locksConflict callerFl sysFl

/-! ## Deadlocks -/

def maxDeadlkIterations : ℕ := 10

def whatOwnerIsWaitingFor (blocked : List (Waiter O)) (o : O) : Option O :=
  (blocked.find? fun w => w.hashed && w.owner = o).map Waiter.blockerOwner

/-- The loop of `posix_locks_deadlock`; `n` is how often `i++ > MAX_DEADLK_ITERATIONS` will still
be false. -/
def deadlockLoop (blocked : List (Waiter O)) (caller : O) : ℕ → O → Bool
  | 0, _ => false
  | n + 1, o =>
    match whatOwnerIsWaitingFor blocked o with
    | none => false
    | some o' => if caller = o' then true else deadlockLoop blocked caller n o'

def posixLocksDeadlock (blocked : List (Waiter O)) (callerFl blockFl : FileLock O) : Bool :=
  if callerFl.ofdlck then false
  else deadlockLoop blocked callerFl.owner (maxDeadlkIterations + 1) blockFl.owner

/-! ## The list of an inode -/

def writeTo (p : Option ℕ) (f : FileLock O → FileLock O) (fls : List (FileLock O)) :
    List (FileLock O) :=
  fls.map fun fl => if p = some fl.id then f fl else fl

/-- The list up to `fl`, what `request`, `left` and `right` point to, whether `new_fl` is there, and
the locks that were deleted. -/
structure Walk (O : Type*) where
  passed : List (FileLock O)
  request : FileLock O
  left : Option (FileLock O)
  right : Option (FileLock O)
  added : Bool
  newFl : Option ℕ
  deleted : List ℕ

/-- The loop. It gives the list from `fl` on as well; `false` is the exit with `-ENOLCK`. -/
def walk : List (FileLock O) → Walk O → Walk O × List (FileLock O) × Bool
  | [], w => (w, [], true)
  | fl :: fls, w =>
    if !posixSameOwner w.request fl then (w, fl :: fls, true)
    else if w.request.type = fl.type then
      if (fl.stop : ℤ) < w.request.start - 1 then walk fls { w with passed := w.passed ++ [fl] }
      else if (fl.start : ℤ) - 1 > w.request.stop then (w, fl :: fls, true)
      else
        -- both get the lower start and the higher end
        let start := min fl.start w.request.start
        let stop := max fl.stop w.request.stop
        if w.added then
          walk fls { w with
            passed := writeTo (some w.request.id)
              (fun l => { l with start := start, stop := stop }) w.passed
            request := { w.request with start := start, stop := stop }
            deleted := fl.id :: w.deleted }
        else
          walk fls { w with
            passed := w.passed ++ [{ fl with start := start, stop := stop }]
            request := { fl with start := start, stop := stop }
            added := true }
    else if fl.stop < w.request.start then walk fls { w with passed := w.passed ++ [fl] }
    else if fl.start > w.request.stop then (w, fl :: fls, true)
    else
      let added := if w.request.type = .unlck then true else w.added
      let left := if fl.start < w.request.start then some fl else w.left
      if fl.stop > w.request.stop then
        ({ w with left := left, right := some fl, added := added }, fl :: fls, true)
      else if fl.start ≥ w.request.start then
        if added then
          walk fls { w with left := left, added := added, deleted := fl.id :: w.deleted }
        else
          match w.newFl with
          | none => ({ w with left := left }, fl :: fls, false)
          | some id =>
            walk fls { w with
              passed := w.passed ++ [{ w.request with id := id }]
              request := { w.request with id := id }
              left := left
              added := true
              newFl := none
              deleted := fl.id :: w.deleted }
      else walk fls { w with passed := w.passed ++ [fl], left := left, added := added }

theorem walk_nil (w : Walk O) : walk [] w = (w, [], true) := by rw [walk]

def Walk.splits (w : Walk O) : Bool := w.right.isSome && w.left.map (·.id) = w.right.map (·.id)

/-- What a call returns, leaves in the list, and which locks had their waiters woken up. -/
structure Outcome (O : Type*) where
  ret : Ret
  posix : List (FileLock O)
  woken : List ℕ

/-- The rest of the call after the loop stopped before `fls`, when `new` was put there. -/
def trim (w : Walk O) (newFl2 : Option ℕ) (new fls : List (FileLock O)) : Outcome O :=
  let copy := if w.splits then w.right.bind fun r => newFl2.map fun id => { r with id := id } else none
  let left := if w.splits then copy else w.left
  let posix := w.passed ++ copy.toList ++ new ++ fls
  let posix := writeTo (w.right.map (·.id)) (fun r => { r with start := w.request.stop + 1 }) posix
  let posix := writeTo (left.map (·.id)) (fun l => { l with stop := w.request.start - 1 }) posix
  ⟨.zero, posix, w.deleted ++ (w.right.map (·.id)).toList ++ (left.map (·.id)).toList⟩

def finish (w : Walk O) (flExists : Bool) (newFl2 : Option ℕ) (fls : List (FileLock O)) :
    Outcome O :=
  if w.splits && newFl2.isNone then ⟨.enolck, w.passed ++ fls, w.deleted⟩
  else if w.added then trim w newFl2 [] fls
  else if w.request.type = .unlck then
    ⟨if flExists then .enoent else .zero, w.passed ++ fls, w.deleted⟩
  else
    match w.newFl with
    | none => ⟨.enolck, w.passed ++ fls, w.deleted⟩
    | some id => trim w newFl2 [{ w.request with id := id }] fls

def applyRequest (posix : List (FileLock O)) (request : FileLock O) (flExists : Bool)
    (newFl newFl2 : Option ℕ) : Outcome O :=
  -- the first lock with the owner of the request
  let passed := posix.takeWhile fun fl => !posixSameOwner request fl
  let fls := posix.dropWhile fun fl => !posixSameOwner request fl
  match walk fls ⟨passed, request, none, none, false, newFl, []⟩ with
  | (w, fls, true) => finish w flExists newFl2 fls
  | (w, fls, false) => ⟨.enolck, w.passed ++ fls, w.deleted⟩

/-! ## Calls -/

structure Flags where
  access : Bool
  sleep : Bool
  exist : Bool

structure Alloc where
  ctx : Bool
  newFl : Bool
  newFl2 : Bool

/-- `__posix_lock_file` on the list of an inode that has a context. -/
def lockCtx (s : State I O) (i : I) (posix : List (FileLock O)) (request : FileLock O)
    (flags : Flags) (alloc : Alloc) : Ret × State I O :=
  let s' := { s with flctx := Function.update s.flctx i (some posix), next := s.next + 3 }
  let conflict := if request.type = .unlck then none else posix.find? (posixLocksConflict request)
  match conflict with
  | some fl =>
    if !flags.sleep then (.eagain, s')
    else if posixLocksDeadlock s.blocked request fl then (.edeadlk, s')
    else
      let waiter := ⟨s.next, request.owner, fl.id, fl.owner, !fl.ofdlck⟩
      (.deferred, { s' with blocked := waiter :: s.blocked })
  | none =>
    if flags.access then (.zero, s')
    else
      let needed : Bool := request.type ≠ .unlck ∨ request.start ≠ 0 ∨ request.stop ≠ offsetMax
      let newFl := if needed && alloc.newFl then some (s.next + 1) else none
      let newFl2 := if needed && alloc.newFl2 then some (s.next + 2) else none
      let out := applyRequest posix request flags.exist newFl newFl2
      (out.ret, { s' with
        flctx := Function.update s.flctx i (some out.posix)
        blocked := s.blocked.filter fun w => w.blocker ∉ out.woken })

def posixLockFile (s : State I O) (i : I) (request : FileLock O) (flags : Flags) (alloc : Alloc) :
    Ret × State I O :=
  match s.flctx i with
  | some posix => lockCtx s i posix request flags alloc
  | none =>
    if request.type = .unlck then (.zero, s)
    else if !alloc.ctx then (.enomem, s)
    else lockCtx s i [] request flags alloc

def locksDeleteBlock (s : State I O) (id : ℕ) : State I O :=
  { s with blocked := s.blocked.filter fun w => w.id ≠ id }

inductive Action (I O : Type*)
  | lock (i : I) (request : FileLock O) (flags : Flags) (alloc : Alloc)
  | unblock (id : ℕ)

def step (s : State I O) : Action I O → Option (State I O)
  | .lock i request flags alloc => some (posixLockFile s i request flags alloc).2
  | .unblock id => some (locksDeleteBlock s id)

end Cupcake.Fs.Locks
