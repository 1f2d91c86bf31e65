import Cupcake.Lib.Paths
import Cupcake.Fs.Locks.Lists

/-! The graph of owners that wait for each other: `posix_locks_deadlock` follows it for a bounded
number of steps, so that short cycles never come about. -/

namespace Cupcake.Fs.Locks

open List Option Function

variable {I O : Type*} [DecidableEq I] [DecidableEq O] {s s' : State I O} {i : I}
  {request fl : FileLock O} {posix : List (FileLock O)} {flags : Flags} {alloc : Alloc}
  {blocked : List (Waiter O)} {o o' caller : O} {n : ℕ}

/-- A blocked owner and the owner of the lock it is blocked on. -/
def WaitsFor (blocked : List (Waiter O)) (o o' : O) : Prop :=
  ∃ w ∈ blocked, w.owner = o ∧ w.blockerOwner = o'

def OneBlocked (blocked : List (Waiter O)) : Prop := (blocked.map Waiter.owner).Nodup

/-! ## The walk -/

theorem deadlockLoop_none (h : whatOwnerIsWaitingFor blocked o = none) (m : ℕ) :
    deadlockLoop blocked caller (0 + m) o = false := by
  cases m with
  | zero => rfl
  | succ m => rw [Nat.zero_add, deadlockLoop, h]

section Walk

variable (hone : OneBlocked blocked) (hhash : ∀ w ∈ blocked, w.hashed = true)

include hone hhash

theorem whatOwnerIsWaitingFor_eq_some :
    whatOwnerIsWaitingFor blocked o = some o' ↔ WaitsFor blocked o o' := by
  unfold whatOwnerIsWaitingFor
  constructor
  · intro h
    obtain ⟨w, hw, rfl⟩ := map_eq_some_iff.mp h
    have hp := find?_some hw
    simp only [Bool.and_eq_true, decide_eq_true_eq] at hp
    exact ⟨w, mem_of_find?_eq_some hw, hp.2, rfl⟩
  · rintro ⟨w, hw, ho, rfl⟩
    cases hfind : blocked.find? fun w => w.hashed && w.owner = o with
    | none =>
      have := find?_eq_none.mp hfind w hw
      simp [hhash w hw, ho] at this
    | some w' =>
      have hp := find?_some hfind
      simp only [Bool.and_eq_true, decide_eq_true_eq] at hp
      have heq : w' = w := inj_on_of_nodup_map hone (mem_of_find?_eq_some hfind) hw
        (hp.2.trans ho.symm)
      rw [heq]
      rfl

theorem not_waitsFor (h : whatOwnerIsWaitingFor blocked o = none) (o' : O) :
    ¬ WaitsFor blocked o o' := fun hw => by
  rw [(whatOwnerIsWaitingFor_eq_some hone hhash).mpr hw] at h
  cases h

theorem deadlockLoop_eq_true : deadlockLoop blocked caller n o = true ↔
    ∃ k, 0 < k ∧ k ≤ n ∧ Path (WaitsFor blocked) k o caller := by
  induction n generalizing o with
  | zero =>
    simp only [deadlockLoop, Bool.false_eq_true, false_iff]
    rintro ⟨k, hpos, hle, -⟩
    omega
  | succ n ih =>
    rw [deadlockLoop]
    cases hnext : whatOwnerIsWaitingFor blocked o with
    | none =>
      simp only [Bool.false_eq_true, false_iff]
      rintro ⟨k, hpos, -, hpath⟩
      cases k with
      | zero => omega
      | succ k =>
        obtain ⟨c, hc, -⟩ := hpath
        exact not_waitsFor hone hhash hnext c hc
    | some o' =>
      have hw := (whatOwnerIsWaitingFor_eq_some hone hhash).mp hnext
      simp only
      split_ifs with hcaller
      · simp only [true_iff]
        exact ⟨1, by omega, by omega, o', hw, hcaller.symm⟩
      · rw [ih]
        constructor
        · rintro ⟨k, hpos, hle, hpath⟩
          exact ⟨k + 1, by omega, by omega, o', hw, hpath⟩
        · rintro ⟨k, hpos, hle, hpath⟩
          cases k with
          | zero => omega
          | succ k =>
            obtain ⟨c, hc, hpath⟩ := hpath
            have hc' := (whatOwnerIsWaitingFor_eq_some hone hhash).mpr hc
            rw [hnext] at hc'
            obtain rfl := some.inj hc'
            cases k with
            | zero => exact absurd hpath.symm hcaller
            | succ k => exact ⟨k + 1, by omega, by omega, hpath⟩

/-- The loop stops at an owner that does not wait, whatever its bound, or there are owners left to
visit. -/
theorem deadlockLoop_ends (caller : O) (n : ℕ) (o : O) :
    (∃ k ≤ n, ∃ o', Path (WaitsFor blocked) k o o' ∧ (∀ o'', ¬ WaitsFor blocked o' o'') ∧
      ∀ m, deadlockLoop blocked caller (k + m) o = deadlockLoop blocked caller k o) ∨
    ∃ o', Path (WaitsFor blocked) (n + 1) o o' := by
  induction n generalizing o with
  | zero =>
    cases hnext : whatOwnerIsWaitingFor blocked o with
    | none =>
      exact .inl ⟨0, le_rfl, o, rfl, not_waitsFor hone hhash hnext, deadlockLoop_none hnext⟩
    | some c => exact .inr ⟨c, c, (whatOwnerIsWaitingFor_eq_some hone hhash).mp hnext, rfl⟩
  | succ n ih =>
    cases hnext : whatOwnerIsWaitingFor blocked o with
    | none =>
      exact .inl ⟨0, Nat.zero_le _, o, rfl, not_waitsFor hone hhash hnext, deadlockLoop_none hnext⟩
    | some c =>
      have hc := (whatOwnerIsWaitingFor_eq_some hone hhash).mp hnext
      obtain ⟨k, hk, o', hp, hend, hloop⟩ | ⟨o', hp⟩ := ih c
      · refine .inl ⟨k + 1, Nat.succ_le_succ hk, o', ⟨c, hc, hp⟩, hend, fun m => ?_⟩
        rw [Nat.succ_add, deadlockLoop, deadlockLoop, hnext]
        simp only [hloop m]
      · exact .inr ⟨o', c, hc, hp⟩

end Walk

/-! ## Runs -/

/-- Valid requests, no `FL_OFDLCK` locks, and at most one blocked request for each owner. -/
def deadlockGuard (s : State I O) : Action I O → Prop
  | .lock i request flags alloc =>
    Valid request ∧ request.ofdlck = false ∧
      OneBlocked (posixLockFile s i request flags alloc).2.blocked
  | .unblock _ => True

structure DeadlockOk (s : State I O) : Prop where
  state : StateOk s
  posix : ∀ i, ∀ fl ∈ s.posix i, fl.ofdlck = false
  one : OneBlocked s.blocked
  hashed : ∀ w ∈ s.blocked, w.hashed = true
  live : ∀ w ∈ s.blocked, ∃ i, ∃ fl ∈ s.posix i, fl.id = w.blocker ∧ fl.owner = w.blockerOwner
  acyclic : ∀ n o, 0 < n → n ≤ maxDeadlkIterations + 2 → ¬ Path (WaitsFor s.blocked) n o o

omit [DecidableEq I] in
theorem deadlockOk_empty : DeadlockOk (State.empty : State I O) where
  state := stateOk_empty
  posix _ fl hfl := by cases hfl
  one := nodup_nil
  hashed := by simp [State.empty]
  live := by simp [State.empty]
  acyclic n o hn _ hp := by
    cases n with
    | zero => omega
    | succ n =>
      obtain ⟨c, ⟨w, hw, -⟩, -⟩ := hp
      cases hw

omit [DecidableEq I] in
theorem DeadlockOk.sublist (h : DeadlockOk s) (hstate : StateOk s')
    (hposix : ∀ i, ∀ fl ∈ s'.posix i, fl.ofdlck = false) (hsub : s'.blocked.Sublist s.blocked)
    (hlive : ∀ w ∈ s'.blocked, ∃ i, ∃ fl ∈ s'.posix i, fl.id = w.blocker ∧
      fl.owner = w.blockerOwner) : DeadlockOk s' where
  state := hstate
  posix := hposix
  one := h.one.sublist (hsub.map _)
  hashed w hw := h.hashed w (hsub.subset hw)
  live := hlive
  acyclic n o hn hle hp := h.acyclic n o hn hle
    (hp.mono fun _ _ ⟨w, hw, ho⟩ => ⟨w, hsub.subset hw, ho⟩)

omit [DecidableEq I] in
theorem DeadlockOk.block (h : DeadlockOk s) (hstate : StateOk s')
    (hposix : ∀ i, s'.posix i = s.posix i) {w : Waiter O} (hblocked : s'.blocked = w :: s.blocked)
    (hone : OneBlocked s'.blocked) (hhash : w.hashed = true)
    (hlive : ∃ i, ∃ fl ∈ s.posix i, fl.id = w.blocker ∧ fl.owner = w.blockerOwner)
    (hne : w.owner ≠ w.blockerOwner)
    (hdead : deadlockLoop s.blocked w.owner (maxDeadlkIterations + 1) w.blockerOwner = false) :
    DeadlockOk s' := by
  refine ⟨hstate, fun i => hposix i ▸ h.posix i, hone, ?_, ?_, fun n o hpos hle hp => ?_⟩
  · rw [hblocked]
    intro w' hw'
    obtain rfl | hw' := mem_cons.mp hw'
    · exact hhash
    · exact h.hashed w' hw'
  · rw [hblocked]
    intro w' hw'
    simp only [hposix]
    obtain rfl | hw' := mem_cons.mp hw'
    · exact hlive
    · exact h.live w' hw'
  · have hedge : ∀ a b, WaitsFor s'.blocked a b →
        WaitsFor s.blocked a b ∨ a = w.owner ∧ b = w.blockerOwner := by
      rintro a b ⟨w', hw', rfl, rfl⟩
      rw [hblocked] at hw'
      obtain rfl | hw' := mem_cons.mp hw'
      · exact .inr ⟨rfl, rfl⟩
      · exact .inl ⟨w', hw', rfl, rfl⟩
    obtain hold | ⟨k, hk, hback⟩ := hp.cycle_of_new_edge hedge
    · exact h.acyclic n o hpos hle hold
    · -- the way back is short enough for the walk to find it
      have hkpos : 0 < k := by
        by_contra hzero
        obtain rfl : k = 0 := by omega
        exact hne hback.symm
      have hfound := (deadlockLoop_eq_true (n := maxDeadlkIterations + 1) h.one h.hashed).mpr
        ⟨k, hkpos, by omega, hback⟩
      rw [hdead] at hfound
      cases hfound

theorem DeadlockOk.apply (h : DeadlockOk s) (hposix : s.posix i = posix) {out : Outcome O}
    {newFl newFl2 : Option ℕ} {next : ℕ} (hofd : request.ofdlck = false)
    (hkept : Kept (keys posix) (keys out.posix) (newKeys posix request newFl newFl2) out.woken)
    (hstate : StateOk (⟨update s.flctx i (some out.posix),
      s.blocked.filter fun w => w.blocker ∉ out.woken, next⟩ : State I O)) :
    DeadlockOk (⟨update s.flctx i (some out.posix),
      s.blocked.filter fun w => w.blocker ∉ out.woken, next⟩ : State I O) := by
  refine h.sublist hstate (fun j fl hfl => ?_) filter_sublist fun w hw => ?_
  · rw [posix_update] at hfl
    split_ifs at hfl
    · rcases hkept.sub (key fl) (mem_map_of_mem hfl) with hold | hadd
      · obtain ⟨l, hl, hkey⟩ := mem_map.mp hold
        have hofd' : l.ofdlck = fl.ofdlck := congrArg (·.2.2) hkey
        exact hofd' ▸ h.posix i l (hposix ▸ hl)
      · rcases ofdlck_of_mem_newKeys hadd with heq | ⟨l, hl, heq⟩
        · exact heq.trans hofd
        · exact heq.trans (h.posix i l (hposix ▸ hl))
    · exact h.posix j fl hfl
  · obtain ⟨hw, hwoken⟩ := mem_filter.mp hw
    obtain ⟨j, fl, hfl, hid, ho⟩ := h.live w hw
    by_cases hj : j = i
    · subst hj
      rw [hposix] at hfl
      rcases hkept.kept (key fl) (mem_map_of_mem hfl) with hgone | hstay
      · have : w.blocker ∈ out.woken := hid ▸ hgone
        simp [this] at hwoken
      · obtain ⟨fl', hfl', hkey⟩ := mem_map.mp hstay
        refine ⟨j, fl', ?_, (congrArg Prod.fst hkey).trans hid, (congrArg (·.2.1) hkey).trans ho⟩
        rw [posix_update, if_pos rfl]
        exact hfl'
    · refine ⟨j, fl, ?_, hid, ho⟩
      rw [posix_update, if_neg hj]
      exact hfl

theorem lockCtx_deadlockOk (h : DeadlockOk s) (hposix : s.posix i = posix) (hv : Valid request)
    (hofd : request.ofdlck = false)
    (hone : OneBlocked (lockCtx s i posix request flags alloc).2.blocked) :
    DeadlockOk (lockCtx s i posix request flags alloc).2 := by
  have hstate := (lockCtx_ok h.state hv hposix flags alloc).state
  have hsame : ∀ blocked j, State.posix
      (⟨update s.flctx i (some posix), blocked, s.next + 3⟩ : State I O) j = s.posix j := by
    intro blocked j
    rw [posix_update]
    split_ifs with hj
    · rw [hj, hposix]
    · rfl
  cases hc : firstConflict posix request with
  | some fl =>
    obtain ⟨hu, hfl, hcon⟩ := firstConflict_eq_some hc
    obtain ⟨ret, blocked, heq, -, rfl | ⟨hdead, rfl⟩⟩ := lockCtx_conflict s i flags alloc hc
    · rw [heq] at hstate ⊢
      refine h.sublist hstate (fun j => ?_) (List.Sublist.refl _) fun w hw => ?_
      · rw [hsame]
        exact h.posix j
      · simp only [hsame]
        exact h.live w hw
    · rw [heq] at hstate hone ⊢
      have hfl' : fl ∈ s.posix i := hposix ▸ hfl
      have hne : request.owner ≠ fl.owner := by
        intro ho
        simp [posixLocksConflict, posixSameOwner, ho] at hcon
      refine h.block hstate (hsame _) rfl hone ?_ ⟨i, fl, hfl', rfl, rfl⟩ hne ?_
      · simp [h.posix i fl hfl']
      · simpa [posixLocksDeadlock, hofd] using hdead
  | none =>
    cases ha : flags.access with
    | true =>
      rw [lockCtx_access hc ha] at hstate ⊢
      refine h.sublist hstate (fun j => ?_) (List.Sublist.refl _) fun w hw => ?_
      · rw [hsame]
        exact h.posix j
      · simp only [hsame]
        exact h.live w hw
    | false =>
      have hfresh : ∀ fl ∈ posix, fl.id < s.next := hposix ▸ h.state.fresh i
      have hnd : (ids posix).Nodup := hposix ▸ (h.state.list i).nodup
      have hn : NewIds s (if needed request && alloc.newFl then some (s.next + 1) else none)
          (if needed request && alloc.newFl2 then some (s.next + 2) else none) := by
        constructor <;> simp
      rw [lockCtx_apply hc ha] at hstate ⊢
      exact h.apply hposix hofd (applyRequest_kept posix request flags.exist hnd (hn.fresh hfresh).1
        (hn.fresh hfresh).2) hstate

theorem step_deadlockOk {a : Action I O} (h : DeadlockOk s) (hg : deadlockGuard s a)
    (hs : step s a = some s') : DeadlockOk s' := by
  cases a with
  | unblock id =>
    obtain rfl := some.inj hs
    exact h.sublist ⟨h.state.list, h.state.fresh⟩ h.posix filter_sublist fun w hw =>
      h.live w (mem_of_mem_filter hw)
  | lock i request flags alloc =>
    obtain rfl := some.inj hs
    obtain ⟨hv, hofd, hone⟩ := hg
    rw [posixLockFile] at hone ⊢
    cases hctx : s.flctx i with
    | some posix =>
      rw [hctx] at hone
      exact lockCtx_deadlockOk h (by rw [State.posix, hctx]; rfl) hv hofd hone
    | none =>
      rw [hctx] at hone
      simp only at hone ⊢
      split_ifs at hone ⊢ with hu hctx'
      · exact h
      · exact h
      · exact lockCtx_deadlockOk h (by rw [State.posix, hctx]; rfl) hv hofd hone

/-- No cycle of at most `MAX_DEADLK_ITERATIONS + 2` owners ever waits for itself. The loop finds the
caller, stops at an owner that does not wait, where a higher bound would change nothing, or gives
up. -/
theorem deadlock_of_reach (hs : Reach step deadlockGuard State.empty s) :
    (∀ w ∈ s.blocked, ∃ i, ∃ fl ∈ s.posix i, fl.id = w.blocker ∧ fl.owner = w.blockerOwner) ∧
    (∀ n o, 0 < n → n ≤ maxDeadlkIterations + 2 → ¬ Path (WaitsFor s.blocked) n o o) ∧
    ∀ callerFl blockFl : FileLock O, callerFl.ofdlck = false →
      (posixLocksDeadlock s.blocked callerFl blockFl = true ↔
        ∃ k, 0 < k ∧ k ≤ maxDeadlkIterations + 1 ∧
          Path (WaitsFor s.blocked) k blockFl.owner callerFl.owner) ∧
      ((∃ k ≤ maxDeadlkIterations + 1, ∃ o, Path (WaitsFor s.blocked) k blockFl.owner o ∧
          (∀ o', ¬ WaitsFor s.blocked o o') ∧
          ∀ m, deadlockLoop s.blocked callerFl.owner (k + m) blockFl.owner =
            deadlockLoop s.blocked callerFl.owner k blockFl.owner) ∨
        ∃ o, Path (WaitsFor s.blocked) (maxDeadlkIterations + 2) blockFl.owner o) := by
  have h : DeadlockOk s :=
    hs.invariant deadlockOk_empty fun s s' a h hg hs => step_deadlockOk h hg hs
  refine ⟨h.live, h.acyclic, fun callerFl blockFl hofd =>
    ⟨?_, deadlockLoop_ends h.one h.hashed callerFl.owner _ _⟩⟩
  rw [posixLocksDeadlock, if_neg (by simp [hofd])]
  exact deadlockLoop_eq_true h.one h.hashed

instance (request : FileLock O) : Decidable (Valid request) :=
  decidable_of_iff (request.start ≤ request.stop ∧ request.stop ≤ offsetMax)
    ⟨fun h => ⟨h.1, h.2⟩, fun h => ⟨h.le, h.top⟩⟩

instance (blocked : List (Waiter O)) : Decidable (OneBlocked blocked) :=
  inferInstanceAs (Decidable (blocked.map Waiter.owner).Nodup)

instance (s : State I O) (a : Action I O) : Decidable (deadlockGuard s a) :=
  match a with
  | .lock i request flags alloc =>
    inferInstanceAs (Decidable (Valid request ∧ request.ofdlck = false ∧
      OneBlocked (posixLockFile s i request flags alloc).2.blocked))
  | .unblock _ => inferInstanceAs (Decidable True)

def lockByte (o x : ℕ) : Action Unit ℕ :=
  .lock () ⟨0, o, .wrlck, x, x, false⟩ ⟨false, true, false⟩ ⟨true, true, true⟩

/-- Each of `n` owners locks its byte, and then asks for the byte of the next owner. -/
def ring (n : ℕ) : List (Action Unit ℕ) :=
  (List.range n).map (fun o => lockByte o o) ++ (List.range n).map fun o => lockByte o ((o + 1) % n)

theorem deadlock_of_ring_twelve :
    ∃ s, runGuarded step deadlockGuard State.empty (ring 12) = some s ∧ s.blocked.length = 11 ∧
      ∀ n o, 0 < n → n ≤ maxDeadlkIterations + 2 → ¬ Path (WaitsFor s.blocked) n o o := by
  have hrun : (runGuarded step deadlockGuard State.empty (ring 12)).map
      (fun s => s.blocked.length) = some 11 := by decide +kernel
  obtain ⟨s, hs, hlen⟩ := map_eq_some_iff.mp hrun
  exact ⟨s, hs, hlen, (deadlock_of_reach (.of_runGuarded _ .init hs)).2.1⟩

theorem ring_thirteen_waits : ∃ s : State Unit ℕ, Reach step deadlockGuard State.empty s ∧
    Path (WaitsFor s.blocked) 13 0 0 := by
  have hrun : (runGuarded step deadlockGuard State.empty (ring 13)).map
      (fun s => s.blocked.map fun w => (w.owner, w.blockerOwner)) =
      some ((range 13).map fun o => (o, (o + 1) % 13)).reverse := by decide +kernel
  obtain ⟨s, hs, hblocked⟩ := map_eq_some_iff.mp hrun
  refine ⟨s, .of_runGuarded _ .init hs, ?_⟩
  have hedge : ∀ o < 13, WaitsFor s.blocked o ((o + 1) % 13) := by
    intro o ho
    have hmem : (o, (o + 1) % 13) ∈ s.blocked.map fun w => (w.owner, w.blockerOwner) := by
      rw [hblocked, mem_reverse]
      exact mem_map_of_mem (mem_range.mpr ho)
    obtain ⟨w, hw, heq⟩ := mem_map.mp hmem
    exact ⟨w, hw, congrArg Prod.fst heq, congrArg Prod.snd heq⟩
  have hpath : ∀ n o, o + n = 13 → Path (WaitsFor s.blocked) n (o % 13) 0 := by
    intro n
    induction n with
    | zero =>
      intro o ho
      show o % 13 = 0
      omega
    | succ n ih =>
      intro o ho
      have hlt : o < 13 := by omega
      refine ⟨(o + 1) % 13, ?_, ih (o + 1) (by omega)⟩
      rw [Nat.mod_eq_of_lt hlt]
      exact hedge o hlt
  exact hpath 13 0 rfl

end Cupcake.Fs.Locks
