import Cupcake.Lib.Run
import Cupcake.Selinux.Sidtab.Calls

/-! Runs of a SID table: the initial SIDs go in first, then contexts are turned into SIDs. -/

namespace Cupcake.Selinux.Sidtab

inductive Op where
  | insert (sid : ℕ) (context : Context) (a : Allocs)
  | contextToSid (context : Context) (a : Allocs)
  | shutdown

/-- A table, whether a context was turned into a SID yet, the answers so far and the nodes
that `sidtab_context_to_sid` made. -/
structure State where
  table : Table
  started : Bool
  answers : List (Context × ℕ)
  allocated : List Node

def State.init : State := ⟨Sidtab.init, false, [], []⟩

def exec (st : State) : Op → State
  | .insert sid c a => { st with table := (sidtabInsert st.table sid c a).1 }
  | .contextToSid c a =>
    let (table, rc, sid) := sidtabContextToSid st.table c a
    if rc = 0 then
      ⟨table, true, (c, sid) :: st.answers,
        if (nodes st.table).any (·.sid = sid) then st.allocated else ⟨sid, c⟩ :: st.allocated⟩
    else { st with table := table, started := true }
  | .shutdown => { st with table := sidtabShutdown st.table }

/-- Initial SIDs are numbers from 1 on, and go in before all else. -/
def guard (st : State) : Op → Prop
  | .insert sid _ _ => st.started = false ∧ 0 < sid ∧ sid < uintMax
  | _ => True

instance (st : State) : (op : Op) → Decidable (guard st op)
  | .insert .. => inferInstanceAs (Decidable (_ ∧ _))
  | .contextToSid .. => .isTrue trivial
  | .shutdown => .isTrue trivial

/-- Every later call for an equal context gives this number, from the cache or by a scan. -/
structure Answers (s : Table) (c : Context) (sid : ℕ) : Prop where
  cache : (sidtabSearchCache s c).2 = 0 ∨ (sidtabSearchCache s c).2 = sid
  scan : (sidtabSearchContext s c).2 = sid
  call : ∀ a, (sidtabContextToSid s c a).2 = (0, sid)
  search : c.len = 0 → ∃ c', sidtabSearch s sid = some c' ∧ contextCmp c' c = true
  searchForce : ∃ c', sidtabSearchForce s sid = some c' ∧ contextCmp c' c = true

/-- What the table guarantees at any time. -/
structure Consistent (st : State) : Prop where
  sids_nodup : ((nodes st.table).map Node.sid).Nodup
  chains : ∀ b, (st.table.htable b).Pairwise fun m n => m.sid < n.sid
  next : ∀ n ∈ nodes st.table, n.sid < st.table.nextSid
  allocated_mem : ∀ n ∈ st.allocated, n ∈ nodes st.table
  allocated_ne : st.allocated.Pairwise fun m n => ¬ contextCmp m.context n.context = true
  answers : ∀ p ∈ st.answers, ∀ c, contextCmp c p.1 = true → Answers st.table c p.2
  insert_fail : ∀ sid c a, (sidtabInsert st.table sid c a).2 ≠ 0 →
    (sidtabInsert st.table sid c a).1 = st.table
  call_fail : ∀ c a, (sidtabContextToSid st.table c a).2.1 ≠ 0 →
    (sidtabContextToSid st.table c a).1 = st.table

structure Inv (st : State) : Prop where
  wf : Wf st.table
  fresh : st.started = false → st.answers = [] ∧ st.allocated = [] ∧ ∀ i, st.table.cache i = none
  answered : ∀ p ∈ st.answers, ∃ n, scan st.table p.1 = some n ∧ n.sid = p.2
  allocated : ∀ n ∈ st.allocated, scan st.table n.context = some n
  distinct : st.allocated.Pairwise fun m n => ¬ contextCmp m.context n.context = true

theorem Inv.init : Inv State.init := by
  have hw : Wf Sidtab.init :=
    ⟨fun _ => .nil, by simp [Sidtab.init], by simp [Sidtab.init], by decide, by decide,
      by simp [Sidtab.init]⟩
  exact ⟨hw, fun _ => ⟨rfl, rfl, fun _ => rfl⟩, by simp [State.init], by simp [State.init], .nil⟩

/-! ## Steps -/

theorem Inv.insert {st : State} (hi : Inv st) {sid : ℕ} (c : Context) (a : Allocs)
    (hg : st.started = false ∧ 0 < sid ∧ sid < uintMax) : Inv (exec st (.insert sid c a)) := by
  obtain ⟨hstart, hpos, hmax⟩ := hg
  obtain ⟨hans, hall, hcache⟩ := hi.fresh hstart
  by_cases hrc : (sidtabInsert st.table sid c a).2 = 0
  · have hins := sidtabInsert_ok (hi.wf.sorted _) hrc
    have hmod : (sid + 1) % 2 ^ 32 = sid + 1 := by
      apply Nat.mod_eq_of_lt
      unfold uintMax at hmax
      omega
    rw [hmod] at hins
    have hle := hi.wf.next_le
    have hw : Wf (sidtabInsert st.table sid c a).1 := by
      apply hins.wf hi.wf hpos
      · split_ifs with h
        · exact Nat.lt_succ_self _
        · exact not_le.mp h
      · split_ifs
        · exact hmax
        · exact hle
      · split_ifs with h
        · exact h.trans (Nat.le_succ _)
        · exact le_rfl
      · intro i m hm
        rw [hcache i] at hm
        cases hm
    refine ⟨hw, fun _ => ⟨hans, hall, ?_⟩, ?_, ?_, hi.distinct⟩
    · intro i
      exact (congrFun hins.cache i).trans (hcache i)
    · intro p hp
      rw [exec, hans] at hp
      cases hp
    · intro n hn
      rw [exec, hall] at hn
      cases hn
  · have hst : exec st (.insert sid c a) = st := by rw [exec, sidtabInsert_fail hrc]
    rw [hst]
    exact hi

theorem Inv.found {st : State} (hi : Inv st) {c : Context} {n : Node}
    (h : scan st.table c = some n) (a : Allocs) : Inv (exec st (.contextToSid c a)) := by
  obtain ⟨loc, hcall⟩ := hi.wf.contextToSid_found h a
  have hany : (nodes st.table).any (·.sid = n.sid) = true :=
    List.any_eq_true.mpr ⟨n, mem_of_scan h, by simp⟩
  simp only [exec, hcall, if_true, hany]
  refine ⟨hi.wf.updateCache (scan_self h) loc, by simp, ?_, hi.allocated, hi.distinct⟩
  intro p hp
  obtain rfl | hp := List.mem_cons.mp hp
  · exact ⟨n, h, rfl⟩
  · exact hi.answered p hp

theorem Inserts.scan_mono {s s' : Table} {n m : Node} {next : ℕ} (h : Inserts s n next s')
    (hnew : scan s n.context = none) {c : Context} (hm : scan s c = some m) :
    scan s' c = some m := by
  obtain ⟨k₁, k₂, hk, hk'⟩ := h.nodes_split
  rw [scan_insert hk hk' hnew c, if_neg, hm]
  intro hcmp
  rw [scan_congr hcmp, hm] at hnew
  cases hnew

theorem Inserts.scan_self {s s' : Table} {n : Node} {next : ℕ} (h : Inserts s n next s')
    (hnew : scan s n.context = none) : scan s' n.context = some n := by
  obtain ⟨k₁, k₂, hk, hk'⟩ := h.nodes_split
  rw [scan_insert hk hk' hnew n.context, if_pos ((contextCmp_iff _ _).mpr rfl)]

theorem Inv.allocate {st : State} (hi : Inv st) {c : Context} {s' : Table}
    (hnew : scan st.table c = none) (hmax : st.table.nextSid ≠ uintMax)
    (hins : Inserts st.table ⟨st.table.nextSid, c⟩ (st.table.nextSid + 1) s') :
    Inv ⟨s', true, (c, st.table.nextSid) :: st.answers, ⟨st.table.nextSid, c⟩ :: st.allocated⟩ := by
  have hle : st.table.nextSid + 1 ≤ uintMax := Nat.lt_of_le_of_ne hi.wf.next_le hmax
  refine ⟨?_, by simp, ?_, ?_, ?_⟩
  · exact hins.wf hi.wf hi.wf.next_pos (Nat.lt_succ_self _) hle (Nat.le_succ _)
      fun i m hm => hins.scan_mono hnew (hi.wf.cached i m hm)
  · intro p hp
    obtain rfl | hp := List.mem_cons.mp hp
    · exact ⟨_, hins.scan_self hnew, rfl⟩
    · obtain ⟨n, hn, hsid⟩ := hi.answered p hp
      exact ⟨n, hins.scan_mono hnew hn, hsid⟩
  · intro n hn
    obtain rfl | hn := List.mem_cons.mp hn
    · exact hins.scan_self hnew
    · exact hins.scan_mono hnew (hi.allocated n hn)
  · refine List.pairwise_cons.mpr ⟨?_, hi.distinct⟩
    intro n hn hcmp
    rw [scan_congr hcmp, hi.allocated n hn] at hnew
    cases hnew

theorem Inv.contextToSid {st : State} (hi : Inv st) (c : Context) (a : Allocs) :
    Inv (exec st (.contextToSid c a)) := by
  cases h : scan st.table c with
  | some n => exact hi.found h a
  | none =>
    obtain ⟨rc, hrc, hcall⟩ | ⟨s', hcall, hmax, hins⟩ := hi.wf.contextToSid_new h a
    · simp only [exec, hcall, if_neg hrc]
      exact ⟨hi.wf, by simp, hi.answered, hi.allocated, hi.distinct⟩
    · have hany : ¬ (nodes st.table).any (·.sid = st.table.nextSid) = true := by
        rw [List.any_eq_true]
        rintro ⟨n, hn, hsid⟩
        exact (hi.wf.sid_lt hn).ne (of_decide_eq_true hsid)
      simp only [exec, hcall, if_true, if_neg hany]
      exact hi.allocate h hmax hins

theorem Inv.exec {st : State} (hi : Inv st) {op : Op} (hg : guard st op) : Inv (exec st op) := by
  cases op with
  | insert sid c a => exact hi.insert c a hg
  | contextToSid c a => exact hi.contextToSid c a
  | shutdown =>
    have hw := hi.wf
    exact ⟨⟨hw.sorted, hw.bucket, hw.range, hw.next_pos, hw.next_le, hw.cached⟩, hi.fresh,
      hi.answered, hi.allocated, hi.distinct⟩

/-! ## What the invariant gives -/

theorem Wf.search_eq {s : Table} (hw : Wf s) {n : Node} (hn : n ∈ nodes s)
    (hlen : n.context.len = 0) : sidtabSearch s n.sid = some n.context := by
  simp [sidtabSearch, sidtabSearchCore, chainFind_eq (hw.sorted _) (hw.mem_chain hn), hlen]

theorem Wf.searchForce_eq {s : Table} (hw : Wf s) {n : Node} (hn : n ∈ nodes s) :
    sidtabSearchForce s n.sid = some n.context := by
  by_cases hlen : n.context.len = 0
  · simp [sidtabSearchForce, sidtabSearchCore, chainFind_eq (hw.sorted _) (hw.mem_chain hn), hlen]
  · simp [sidtabSearchForce, sidtabSearchCore, chainFind_eq (hw.sorted _) (hw.mem_chain hn), hlen]

theorem len_eq_zero_of_cmp {c c' : Context} (h : contextCmp c c' = true) (hc : c'.len = 0) :
    c.len = 0 := by
  by_contra hne
  simp [contextCmp, hne, hc] at h

theorem Wf.answers {s : Table} (hw : Wf s) {c : Context} {n : Node} (h : scan s c = some n) :
    Answers s c n.sid := by
  have hcmp := contextCmp_of_scan h
  refine ⟨?_, ?_, ?_, ?_, ?_⟩
  · obtain hc | ⟨loc, m, hm, hc⟩ := hw.searchCache_cases c
    · exact .inl (congrArg Prod.snd hc)
    · rw [h] at hm
      cases hm
      exact .inr (congrArg Prod.snd hc)
  · rw [sidtabSearchContext, h]
  · intro a
    obtain ⟨loc, hcall⟩ := hw.contextToSid_found h a
    rw [hcall]
  · intro hlen
    exact ⟨_, hw.search_eq (mem_of_scan h) (len_eq_zero_of_cmp hcmp hlen), hcmp⟩
  · exact ⟨_, hw.searchForce_eq (mem_of_scan h), hcmp⟩

theorem Wf.call_fail {s : Table} (hw : Wf s) {c : Context} {a : Allocs}
    (h : (sidtabContextToSid s c a).2.1 ≠ 0) : (sidtabContextToSid s c a).1 = s := by
  cases hs : scan s c with
  | some n =>
    obtain ⟨loc, hcall⟩ := hw.contextToSid_found hs a
    rw [hcall] at h
    exact absurd rfl h
  | none =>
    obtain ⟨rc, -, hcall⟩ | ⟨s', hcall, -⟩ := hw.contextToSid_new hs a
    · rw [hcall]
    · rw [hcall] at h
      exact absurd rfl h

theorem Inv.consistent {st : State} (hi : Inv st) : Consistent st := by
  refine ⟨hi.wf.sids_nodup, hi.wf.sorted, fun n hn => hi.wf.sid_lt hn,
    fun n hn => mem_of_scan (hi.allocated n hn), hi.distinct, ?_,
    fun sid c a h => sidtabInsert_fail h, fun c a h => hi.wf.call_fail h⟩
  intro p hp c hc
  obtain ⟨n, hn, hsid⟩ := hi.answered p hp
  rw [← hsid]
  exact hi.wf.answers ((scan_congr hc).trans hn)

/-- In every run of a table, numbers and contexts stay in step. -/
theorem sidtab_of_reach {st : State}
    (h : Reach (fun st op => some (exec st op)) guard State.init st) : Consistent st := by
  apply Inv.consistent
  apply Reach.invariant Inv.init _ h
  intro st st' op hi hg hst
  cases hst
  exact hi.exec hg

def callTwice : List Op :=
  [.insert 1 (plainContext 1 1) ⟨true, true, 0, 0⟩,
    .contextToSid (plainContext 2 1) ⟨false, true, 0, 0⟩,
    .contextToSid (plainContext 2 1) ⟨true, true, 0, 0⟩,
    .contextToSid (plainContext 2 1) ⟨true, true, 0, 0⟩]

theorem sidtab_callTwice :
    ∃ st, Reach (fun st op => some (exec st op)) guard State.init st ∧
      st.answers.map Prod.snd = [2, 2] ∧ Consistent st := by
  have hrun : (runGuarded (fun st op => some (exec st op)) guard State.init callTwice).map
      (fun st => st.answers.map Prod.snd) = some [2, 2] := by
    decide +kernel
  obtain ⟨st, hst, hsids⟩ := Option.map_eq_some_iff.mp hrun
  have hreach := Reach.of_runGuarded callTwice .init hst
  exact ⟨st, hreach, hsids, sidtab_of_reach hreach⟩

end Cupcake.Selinux.Sidtab
