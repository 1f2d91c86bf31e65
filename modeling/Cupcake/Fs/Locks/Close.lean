import Cupcake.Fs.Locks.Lists

/-! Closing a file (`locks_remove_posix`), and `posix_test_lock`. -/

namespace Cupcake.Fs.Locks

variable {I O : Type*} [DecidableEq I] [DecidableEq O] {s : State I O} {i : I}
  {posix : List (FileLock O)} {owner : O}

def closeRequest (owner : O) : FileLock O := ⟨0, owner, .unlck, 0, offsetMax, false⟩

/-- `locks_remove_posix` on a file system without a `lock` operation. -/
def locksRemovePosix (s : State I O) (i : I) (owner : O) (alloc : Alloc) : State I O :=
  match s.flctx i with
  | none => s
  | some posix =>
    if posix.isEmpty then s
    else (posixLockFile s i (closeRequest owner) ⟨false, false, false⟩ alloc).2

/-- The owner's locks on the file are gone and nobody waits for one of them, while the other owners
and the other files keep theirs. -/
structure Closed (s : State I O) (i : I) (owner : O) (s' : State I O) : Prop where
  gone : ∀ fl ∈ s'.posix i, fl.owner ≠ owner
  others : ∀ o, o ≠ owner → held (s'.posix i) o = held (s.posix i) o
  files : ∀ j, j ≠ i → s'.posix j = s.posix j
  woken : ∀ w ∈ s'.blocked, w ∈ s.blocked ∧
    ∀ fl ∈ s.posix i, fl.owner = owner → w.blocker ≠ fl.id

theorem stateOk_of_reach (hs : Reach step validAction State.empty s) : StateOk s :=
  hs.invariant stateOk_empty fun _ _ _ h hv hs => step_ok h hv hs

/-- The unlock needs no new lock, so it does not fail. -/
theorem applyRequest_close (owner : O) (h : ListOk posix) :
    let out := applyRequest posix (closeRequest owner) false none none
    (∀ fl ∈ out.posix, fl.owner ≠ owner) ∧ (∀ o, o ≠ owner → held out.posix o = held posix o) ∧
      ∀ fl ∈ posix, fl.owner = owner → fl.id ∈ out.woken := by
  intro out
  have hspec : _ ∨ Fails (closeRequest owner) false none none out.ret ∧ _ :=
    applyRequest_spec h ⟨Nat.zero_le _, le_rfl⟩ false (fun hu => absurd rfl hu) (by simp) (by simp)
  have hkept : Kept (keys posix) (keys out.posix) (newKeys posix (closeRequest owner) none none)
    out.woken := applyRequest_kept posix _ false h.nodup (by simp) (by simp)
  obtain ⟨-, hlist, hover⟩ | ⟨⟨-, hu | hpos, -⟩ | ⟨-, -, hex⟩, -⟩ := hspec
  · have hgone : ∀ fl ∈ out.posix, fl.owner ≠ owner := by
      intro fl hfl ho
      have hle := (hlist.ownOk owner).le (mem_own.mpr ⟨hfl, ho⟩)
      have hheld := (held_eq_some (hlist.ownOk owner)).mpr ⟨fl, hfl, ho, le_rfl, hle, rfl⟩
      rw [hover] at hheld
      split_ifs at hheld with hin
      · cases hheld
      · obtain ⟨l, hl, -, -, hstop, -⟩ := (held_eq_some (h.ownOk owner)).mp hheld
        exact hin ⟨rfl, Nat.zero_le _,
          hstop.trans ((h.ownOk l.owner).stop_le (mem_own.mpr ⟨hl, rfl⟩))⟩
    refine ⟨hgone, fun o ho => funext fun x => (hover o x).trans (if_neg (ho ·.1)), ?_⟩
    intro fl hfl ho
    obtain hwoken | hmem := hkept.kept (key fl) (List.mem_map_of_mem hfl)
    · exact hwoken
    · obtain ⟨l, hl, hkey⟩ := List.mem_map.mp hmem
      exact absurd ((congrArg (fun k => k.2.1) hkey).trans ho) (hgone l hl)
  all_goals grind [closeRequest]

omit [DecidableEq I] in
theorem Closed.refl (h : s.posix i = []) (owner : O) : Closed s i owner s :=
  ⟨by simp [h], fun _ _ => rfl, fun _ _ => rfl, fun w hw => ⟨hw, by simp [h]⟩⟩

/-- A close needs no memory. -/
theorem locksRemovePosix_closed (hs : Reach step validAction State.empty s) (i : I) (owner : O)
    (alloc : Alloc) : Closed s i owner (locksRemovePosix s i owner alloc) := by
  obtain ⟨hgone, hothers, hwoken⟩ := applyRequest_close owner ((stateOk_of_reach hs).list i)
  unfold locksRemovePosix
  cases hctx : s.flctx i with
  | none => exact .refl (by rw [State.posix, hctx]; rfl) owner
  | some posix =>
    have hposix : s.posix i = posix := by rw [State.posix, hctx]; rfl
    have hneeded : needed (closeRequest owner) = false := by simp [needed, closeRequest]
    rw [hposix] at hgone hothers hwoken
    simp only
    split_ifs with hempty
    · exact .refl (hposix.trans (List.isEmpty_iff.mp hempty)) owner
    · rw [posixLockFile, hctx]
      simp only
      rw [lockCtx_apply rfl rfl, hneeded]
      refine ⟨?_, ?_, fun j hj => ?_, fun w hw => ?_⟩
      · rwa [posix_update, if_pos rfl]
      · rwa [posix_update, if_pos rfl, hposix]
      · rw [posix_update, if_neg hj]
      · obtain ⟨hw, hnot⟩ := List.mem_filter.mp hw
        exact ⟨hw, fun fl hfl ho heq =>
          of_decide_eq_true hnot (heq ▸ hwoken fl (hposix ▸ hfl) ho)⟩

def readState : State ℕ ℕ :=
  (posixLockFile State.empty 0 readLock ⟨false, true, false⟩ ⟨true, true, true⟩).2

theorem reach_readState : Reach step validAction State.empty readState :=
  .step (i := .lock 0 readLock ⟨false, true, false⟩ ⟨true, true, true⟩) .init
    ⟨by decide, by decide⟩ rfl

theorem locksRemovePosix_closed_read :
    Closed readState 0 0 (locksRemovePosix readState 0 0 ⟨false, false, false⟩) :=
  locksRemovePosix_closed reach_readState 0 0 ⟨false, false, false⟩

/-- The lock that `posix_test_lock` reports; `none` is `F_UNLCK`. -/
def posixTestLock (s : State I O) (i : I) (fl : FileLock O) : Option (FileLock O) :=
  (s.posix i).find? (posixLocksConflict fl)

/-- Another owner's lock of a byte of the range excludes the request. -/
def Blocks (s : State I O) (i : I) (fl : FileLock O) (o : O) (t : Ltype) : Prop :=
  o ≠ fl.owner ∧ (fl.type = .wrlck ∨ t = .wrlck) ∧
    ∃ x, fl.start ≤ x ∧ x ≤ fl.stop ∧ held (s.posix i) o x = some t

theorem posixTestLock_blocks (hs : Reach step validAction State.empty s) (i : I) (fl : FileLock O)
    (hle : fl.start ≤ fl.stop) :
    (∀ cfl, posixTestLock s i fl = some cfl → Blocks s i fl cfl.owner cfl.type) ∧
      (posixTestLock s i fl = none → ∀ o t, ¬ Blocks s i fl o t) := by
  have hown := ((stateOk_of_reach hs).list i).ownOk
  constructor
  · intro cfl hfind
    have hmem := List.mem_of_find?_eq_some hfind
    have hle' := (hown cfl.owner).le (mem_own.mpr ⟨hmem, rfl⟩)
    have hc := List.find?_some hfind
    rw [← Bool.not_eq_false, posixLocksConflict_eq_false] at hc
    push Not at hc
    obtain ⟨hne, h₁, h₂, htype⟩ := hc
    -- the first byte that both ranges have
    refine ⟨hne.symm, or_iff_not_imp_left.mpr htype, max fl.start cfl.start, le_max_left .., ?_, ?_⟩
    · exact max_le hle h₁
    · exact (held_eq_some (hown _)).mpr ⟨cfl, hmem, rfl, le_max_right .., max_le h₂ hle', rfl⟩
  · rintro hnone o t ⟨hne, htype, x, hx, hx', hheld⟩
    obtain ⟨cfl, hmem, rfl, h₁, h₂, rfl⟩ := (held_eq_some (hown o)).mp hheld
    have hc := List.find?_eq_none.mp hnone cfl hmem
    rw [Bool.not_eq_true, posixLocksConflict_eq_false] at hc
    grind

theorem posixTestLock_blocks_read :
    let fl := { splitLock with owner := 1 }
    ∃ cfl, posixTestLock readState 0 fl = some cfl ∧ Blocks readState 0 fl cfl.owner cfl.type :=
  ⟨_, rfl, (posixTestLock_blocks reach_readState 0 _ (by decide)).1 _ rfl⟩

end Cupcake.Fs.Locks
