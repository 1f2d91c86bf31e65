import Cupcake.Net.Iptables.DoTable

/-! Which verdicts the evaluation returns: that of a rule with conditions that `mark_source_chains`
meets once is not looked at. -/

namespace Cupcake.Iptables

open List BackWalk Bytes Relation Option

variable {m m' m₁ mf : Mem} {env : Env} {repl : Replace} {info : Info} {w : World}
  {size start e u v fuel hook : ℕ} {path done : List ℕ}

def nfMaxVerdict : ℕ := 5

def Checked (m : Mem) (e : ℕ) : Prop :=
  (graph m).stop e → standardWith m e (· < minVerdict) = false

/-! ## One turn -/

def Turn.mem : Turn → Option Mem
  | .fail => none
  | .done m => some m
  | .go m _ => some m

theorem leave_sameBits {t : Turn} (ht : Table m size) (hhook : hook < numHooks)
    (hk : Kept m size m')
    (h : Leave (graph m) (entries m size) 0 start (marksOf m' hook) v path done)
    (hl : leave size fuel m' v = some t) (hm : t.mem = some m₁) : SameBits m size m' m₁ := by
  rw [leave] at hl
  cases hb : backtrack fuel m' v with
  | none => simp [hb] at hl
  | some r =>
    obtain ⟨m₂, back⟩ := r
    obtain ⟨hk₂, hbits, -, hgo⟩ := backtrack_spec ht hhook hk h hb
    cases back with
    | none =>
      simp only [hb, some.injEq] at hl
      subst hl
      exact some.inj hm ▸ hbits
    | some p =>
      have hp := (hgo p rfl).1
      simp only [hb, wadd_next ht.shape ht.size_lt hk₂ hp] at hl
      split_ifs at hl with hend
      · cases hl
        cases hm
      · cases hl
        rw [← some.inj hm]
        exact hbits.trans (sameBits_setPcnt ht (hp.next (not_le.mp hend)))

theorem enter_sameBits {t : Turn} (ht : Table m size) (hk : Kept m size m')
    (hv : IsEntry m size v) (he : enter size fuel m' v = some t) (hm : t.mem = some m₁) :
    SameBits m size m' m₁ := by
  rw [enter] at he
  split_ifs at he with hstd
  · dsimp only at he
    split_ifs at he
    · cases he
      cases hm
    · cases hf : findJumpTarget size m' (verdict m' (getTarget m' v)).toNat fuel 0 with
      | none => simp [hf] at he
      | some found =>
        simp only [hf] at he
        cases found with
        | false =>
          cases he
          cases hm
        | true =>
          cases he
          rw [← some.inj hm]
          exact sameBits_setPcnt ht (isEntry_of_findJumpTarget ht.shape hk .zero hf)
  · rw [wadd_next ht.shape ht.size_lt hk hv] at he
    dsimp only at he
    split_ifs at he with hend
    · cases he
      cases hm
    · cases he
      rw [← some.inj hm]
      exact sameBits_setPcnt ht (hv.next (not_le.mp hend))

theorem turn_checked {t : Turn} (ht : Table m size) (hhook : hook < numHooks)
    (hk : Kept m size m')
    (h : Visit (graph m) (entries m size) 0 start (marksOf m' hook) v path done)
    (hturn : turn size hook fuel m' v = some t) (hm : t.mem = some m₁) :
    SameBits m size (enterMark m' hook v) m₁ ∧ Checked m v := by
  have hv : IsEntry m size v := mem_entries.mp h.at_node
  rw [turn_eq ht hk h] at hturn
  split_ifs at hturn with hpath hleave hbad
  · cases hturn
    cases hm
  · cases hturn
    cases hm
  · obtain ⟨done', hl, -⟩ := leaves_of_visit ht hhook h hpath hleave
    exact ⟨leave_sameBits ht hhook (hk.enterMark hv) hl hturn hm, fun _ => by simpa using hbad⟩
  · exact ⟨enter_sameBits ht (hk.enterMark hv) hv hturn hm, fun hs => absurd (.inr hs) hleave⟩

/-! ## Whole walks -/

theorem walkHook_checked (ht : Table m size) (hhook : hook < numHooks) (hk : Kept m size m')
    (h : Visit (graph m) (entries m size) 0 start (marksOf m' hook) v path done)
    (hw : walkHook size hook fuel m' v = some (some m₁)) (hu : IsEntry m size u)
    (hseen : (comefrom m₁ u).testBit hook = true) :
    (comefrom m' u).testBit hook = true ∨ Checked m u := by
  induction fuel generalizing m' v path done with
  | zero => cases hw
  | succ fuel ih =>
    have hv : IsEntry m size v := mem_entries.mp h.at_node
    rw [walkHook] at hw
    cases hturn : turn size hook fuel m' v with
    | none => simp [hturn] at hw
    | some t =>
      have hback {m₂ : Mem} (hm : t.mem = some m₂) (hs : (comefrom m₂ u).testBit hook = true) :
          (comefrom m' u).testBit hook = true ∨ Checked m u := by
        obtain ⟨hbits, hcheck⟩ := turn_checked ht hhook hk h hturn hm
        rw [hbits u hu hook (Nat.ne_of_lt hhook), testBit_comefrom_enterMark ht hhook hv hu,
          Bool.or_eq_true, Bool.and_eq_true, decide_eq_true_eq] at hs
        rcases hs with hs | ⟨rfl, -⟩
        · exact .inl hs
        · exact .inr hcheck
      cases t with
      | fail => simp [hturn] at hw
      | done m₂ =>
        simp only [hturn, some.injEq] at hw
        exact hback rfl (hw ▸ hseen)
      | go m₂ w =>
        simp only [hturn] at hw
        obtain ⟨hk₂, -, path', done', hv', -⟩ := (turn_spec ht hhook hk h hturn).2 m₂ w rfl
        rcases ih hk₂ hv' hw with hs | hcheck
        · exact hback rfl hs
        · exact .inr hcheck

theorem markHooks_checked {validHooks : ℕ} {hooks before : List ℕ} (ht : Table m info.size)
    (hentry : ∀ h ∈ hooks, validHooks.testBit h = true → IsEntry m info.size (info.hookEntry h))
    (hlt : ∀ h ∈ hooks, h < numHooks) (hnd : hooks.Nodup) (hnew : ∀ h ∈ hooks, h ∉ before)
    (h : Settled m info validHooks before m')
    (hm : markHooks info validHooks fuel hooks m' = some (some m₁)) (hmem : hook ∈ hooks)
    (hvalid : validHooks.testBit hook = true) (hu : IsEntry m info.size u)
    (hreach : ReflTransGen (graph m).Edge (info.hookEntry hook) u) : Checked m u := by
  induction hooks generalizing m' before with
  | nil => cases hmem
  | cons first hooks ih =>
    obtain ⟨hnot, hnd'⟩ := nodup_cons.mp hnd
    have hself := mem_cons_self (a := first) (l := hooks)
    have hgo {m₂ : Mem} (hs : Settled m info validHooks (first :: before) m₂)
        (hm : markHooks info validHooks fuel hooks m₂ = some (some m₁)) (hmem : hook ∈ hooks) :
        Checked m u := by
      refine ih (fun h' hh => hentry h' (mem_cons_of_mem _ hh))
        (fun h' hh => hlt h' (mem_cons_of_mem _ hh)) hnd' (fun h' hh => ?_) hs hm hmem
      rw [mem_cons, not_or]
      exact ⟨fun heq => hnot (heq ▸ hh), hnew h' (mem_cons_of_mem _ hh)⟩
    rw [markHooks] at hm
    split_ifs at hm with hfirst
    · dsimp only at hm
      have he := hentry first hself hfirst
      have hk := h.kept.setPcnt (v := info.hookEntry first) he
      have hvisit := h.visit ht (hnew first hself) (hlt first hself) he
      split at hm
      · cases hm
      · cases hm
      · next m₂ hw =>
        obtain ⟨hk₂, hbits, hf⟩ := walkHook_spec ht (hlt first hself) hk hvisit hw
        rcases mem_cons.mp hmem with rfl | hmem
        · have hseen : (comefrom m₂ u).testBit hook = true :=
            (hf.seen u (mem_entries.mpr hu)).mpr hreach
          refine (walkHook_checked ht (hlt hook hself) hk hvisit hw hu hseen).resolve_left ?_
          rw [comefrom_setPcnt_eq ht he hu,
            h.bits u hu hook (Nat.ne_of_lt (hlt hook hself))]
          exact fun hb => hnew hook hself hb.1
        · exact hgo (h.step hfirst hk₂ ((sameBits_setPcnt ht he).other.trans hbits) hf) hm hmem
    · rcases mem_cons.mp hmem with rfl | hmem
      · exact absurd hvalid hfirst
      · exact hgo (h.skip hfirst) hm hmem

/-! ## Returned verdicts -/

theorem checked_of_policy (h : checkUnderflow m e = true) : Checked m e := by
  intro _
  rw [checkUnderflow, Bool.and_eq_true, decide_eq_true_eq] at h
  have hraw : rawVerdict m (getTarget m e) < 2 ^ 32 := load_lt
  simp only [wsub, nfDrop, nfAccept] at h
  rw [standardWith, verdict, minVerdict, Bool.and_eq_false_iff]
  right
  rw [decide_eq_false_iff_not]
  split_ifs <;> omega

/-- The returned verdict is in range when the standard rules with conditions to which the hook
leads have verdicts in range. -/
theorem iptDoTable_inRange (h : translateTable env repl fuel m = Res.of (.ok (mf, info)))
    (hfits : ∀ e, IsEntry m repl.size e → Fits m e) (hhook : hook < numHooks)
    (hvalid : repl.validHooks.testBit hook = true) (hstd : StandardOk env w)
    (hrange : ∀ e, ReflTransGen (graph m).Edge (info.hookEntry hook) e →
      unconditional m e = false → standardWith m e (· < minVerdict) = false) :
    ∃ bound, ∀ steps, bound < steps → ∃ trace v e, iptDoTable mf info hook w steps = some (trace, v) ∧
      trace.getLast? = some e ∧
      (w.noTarget (recordPointer mf (getTarget mf e)) = true → v ≤ nfMaxVerdict) := by
  obtain ⟨l, hr, hreach⟩ := ready_of_accepted h hfits hhook hvalid hstd
  obtain ⟨weight, hw⟩ := hr.sorted.exists_weight hr.nodup
  refine ⟨2 ^ 16 + rulesLeft m weight (info.hookEntry hook) [], fun steps hsteps => ?_⟩
  obtain ⟨trace, v, hrun, -, e, hlast, hmem, hend⟩ := doTableLoop_ok (n := 0) hr hw
    ⟨hr.start, fun s hs => by cases hs⟩ hsteps
  have hwalk := walked_of_accepted h hfits
  obtain ⟨he, hcheck, hcond⟩ : IsEntry m info.size e ∧ Checked m e ∧
      (unconditional m e = false → standardWith m e (· < minVerdict) = false) := by
    rcases hmem with hmem | rfl
    · obtain ⟨m₀, marked, hsettled, hchains⟩ := hwalk.marks
      have he := hr.nodes e hmem
      refine ⟨he, markHooks_checked hwalk.table (fun h hh hv => (hwalk.hooks h (mem_range.mp hh) hv).1)
        (fun h hh => mem_range.mp hh) nodup_range (fun _ _ => not_mem_nil) hsettled hchains
        (mem_range.mpr hhook) hvalid he (hreach e hmem), hrange e (hreach e hmem)⟩
    · refine ⟨hr.underflow, checked_of_policy hr.policy, fun hu => ?_⟩
      have hpol := hr.policy
      rw [checkUnderflow, hu] at hpol
      cases hpol
  refine ⟨trace, v, e, hrun, hlast, fun hnull => ?_⟩
  rw [hr.getTarget_eq he] at hnull
  have hname := (hr.noTarget_iff e he).mp hnull
  rcases hend hname with rfl | ⟨hneg, rfl⟩
  · exact Nat.zero_le _
  · have hlow : standardWith m e (· < minVerdict) = false := by
      cases hu : unconditional m e with
      | false => exact hcond hu
      | true =>
        refine hcheck ⟨hu, ?_⟩
        rw [standardWith, hname]
        simpa using hneg
    rw [standardWith, hname, Bool.true_and, decide_eq_false_iff_not, minVerdict] at hlow
    rw [nfMaxVerdict]
    omega

theorem iptDoTable_inRange_icmpTable :
    ∃ mf info, translateTable builtins (filterOf 344 192 (by decide)) 6 icmpTable =
        Res.of (.ok (mf, info)) ∧
      ∃ bound, ∀ steps, bound < steps → ∃ trace v e,
        iptDoTable mf info 1 plainWorld steps = some (trace, v) ∧ trace.getLast? = some e ∧
        (plainWorld.noTarget (recordPointer mf (getTarget mf e)) = true → v ≤ nfMaxVerdict) := by
  obtain ⟨⟨mf, info⟩, hr⟩ := icmpTable_accepted
  have hfits : ∀ e, IsEntry icmpTable 344 e → Fits icmpTable e := fun e he =>
    ⟨(wellFormed_icmpTable.entries e he).target_start,
      (wellFormed_icmpTable.entries e he).records.meets⟩
  have hstd : StandardOk builtins plainWorld := standardOk_plainWorld rfl
  obtain ⟨l, hready, -⟩ := ready_of_accepted hr hfits (show 1 < numHooks by decide) (by decide) hstd
  refine ⟨mf, info, hr, iptDoTable_inRange hr hfits (by decide) (by decide) hstd fun e he => ?_⟩
  have hmem : e ∈ l := by
    induction he with
    | refl => exact hready.start
    | tail _ hedge ih => exact hready.sorted.closed ih hedge
  have hentry := hready.nodes e hmem
  rw [(walked_of_accepted hr hfits).size] at hentry
  intro _
  rcases isEntry_icmpTable hentry with rfl | rfl
  · decide +kernel
  · decide +kernel

def oddTable : Mem := bytesOf ([(0, 10), (3, 1), (8, 255), (9, 255), (10, 255), (11, 255),
  (88, 112), (90, 152), (112, 40), (144, 0x9C), (145, 0xFF), (146, 0xFF), (147, 0xFF)] ++
  acceptAll 152)

def oddWorld : World := { plainWorld with header := fun _ => ⟨0x0100000A, 0, 0⟩ }

def oddRun : Option (List ℕ × ℕ) :=
  ((translateTable builtins (filterOf 304 152 (by decide)) 6 oddTable).run.bind Except.toOption).bind
    fun r => iptDoTable r.1 r.2 1 oddWorld 100

theorem oddTable_returns_99 : ∃ mf info,
    translateTable builtins (filterOf 304 152 (by decide)) 6 oddTable = Res.of (.ok (mf, info)) ∧
    (∀ e, IsEntry oddTable 304 e → Fits oddTable e) ∧ StandardOk builtins oddWorld ∧
    iptDoTable mf info 1 oddWorld 100 = some ([0], 99) := by
  have hrun : oddRun = some ([0], 99) := by decide +kernel
  obtain ⟨r, hacc, hrun⟩ := bind_eq_some_iff.mp hrun
  obtain ⟨h₁, h₂⟩ : StandardOk builtins plainWorld := standardOk_plainWorld rfl
  refine ⟨r.1, r.2, Res.of_toOption hacc, fun e he => ?_, ⟨h₁, h₂⟩, hrun⟩
  have hs₁ : Iptables.start oddTable 1 = 0 + 152 := start_succ_of_eq rfl (by decide +kernel)
  have hs₂ : Iptables.start oddTable 2 = 152 + 152 := start_succ_of_eq hs₁ (by decide +kernel)
  obtain ⟨i, hi, rfl⟩ := he.exists_start hs₂.ge
  have htarget (e : ℕ) (h : targetOffset oddTable e = 112) : Fits oddTable e := by
    refine ⟨h.ge, ?_⟩
    rw [getTarget, h]
    exact .refl _
  rcases (by omega : i = 0 ∨ i = 1) with rfl | rfl
  · exact htarget 0 (by decide +kernel)
  · rw [hs₁]
    exact htarget 152 (by decide +kernel)

end Cupcake.Iptables
