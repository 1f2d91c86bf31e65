import Cupcake.Selinux.Sidtab.Search

/-! The invariant of the SID table, and what `sidtab_insert` and `sidtab_context_to_sid`
make of it. -/

namespace Cupcake.Selinux.Sidtab

open Function Option

/-- The table is sorted and numbered below `next_sid`, and a cached node is the one that a
scan for its context finds. -/
structure Wf (s : Table) : Prop where
  sorted : ∀ b, (s.htable b).Pairwise fun m n => m.sid < n.sid
  bucket : ∀ b, ∀ n ∈ s.htable b, hash n.sid = b
  range : ∀ b, ∀ n ∈ s.htable b, 0 < n.sid ∧ n.sid < s.nextSid
  next_pos : 0 < s.nextSid
  next_le : s.nextSid ≤ uintMax
  cached : ∀ i n, s.cache i = some n → scan s n.context = some n

namespace Wf

variable {s : Table}

section

variable {n : Node} (hw : Wf s) (hn : n ∈ nodes s)

include hw hn

theorem mem_chain : n ∈ s.htable (hash n.sid) := by
  obtain ⟨b, -, hb⟩ : ∃ b < sidtabSize, n ∈ s.htable b := by simpa [nodes] using hn
  rw [hw.bucket b n hb]
  exact hb

theorem sid_pos : 0 < n.sid :=
  (hw.range _ n (hw.mem_chain hn)).1

theorem sid_lt : n.sid < s.nextSid :=
  (hw.range _ n (hw.mem_chain hn)).2

end

theorem eq_of_sid (hw : Wf s) {m n : Node} (hm : m ∈ nodes s) (hn : n ∈ nodes s)
    (h : m.sid = n.sid) : m = n := by
  have hfm := chainFind_eq (hw.sorted _) (hw.mem_chain hm)
  have hfn := chainFind_eq (hw.sorted _) (hw.mem_chain hn)
  rw [h, hfn] at hfm
  exact (some.inj hfm).symm

theorem sids_nodup (hw : Wf s) : ((nodes s).map Node.sid).Nodup := by
  rw [List.nodup_map_iff_inj_on]
  · exact fun m hm n hn h => hw.eq_of_sid hm hn h
  · rw [nodes, List.nodup_flatMap]
    refine ⟨fun b _ => (hw.sorted b).imp fun h => ne_of_apply_ne Node.sid h.ne, ?_⟩
    apply List.nodup_range.imp
    intro a b hab n ha hb
    exact hab ((hw.bucket a n ha).symm.trans (hw.bucket b n hb))

end Wf

/-! ## Inserting -/

structure Inserts (s : Table) (n : Node) (next : ℕ) (s' : Table) : Prop where
  chains : ∃ l₁ l₂ chain, Inserted n (s.htable (hash n.sid)) chain l₁ l₂ ∧
    s'.htable = Function.update s.htable (hash n.sid) chain
  nextSid : s'.nextSid = next
  cache : s'.cache = s.cache

theorem newNode_eq {sid : ℕ} {c : Context} {a : Allocs} {n : Node}
    (h : newNode sid c a = some n) : n = ⟨sid, c⟩ := by
  rw [newNode] at h
  split_ifs at h
  obtain ⟨c', hc', rfl⟩ := map_eq_some_iff.mp h
  rw [contextCpy_eq hc']

theorem sidtabInsert_fail {s : Table} {sid : ℕ} {c : Context} {a : Allocs}
    (h : (sidtabInsert s sid c a).2 ≠ 0) : (sidtabInsert s sid c a).1 = s := by
  simp only [sidtabInsert] at h ⊢
  by_cases hrc : (chainInsert sid (newNode sid c a) (s.htable (hash sid))).2 = 0
  · rw [if_pos hrc] at h
    exact absurd rfl h
  · rw [if_neg hrc]

theorem sidtabInsert_ok {s : Table} {sid : ℕ} {c : Context} {a : Allocs}
    (hs : (s.htable (hash sid)).Pairwise fun m n => m.sid < n.sid)
    (h : (sidtabInsert s sid c a).2 = 0) :
    Inserts s ⟨sid, c⟩ (if sid ≥ s.nextSid then (sid + 1) % 2 ^ 32 else s.nextSid)
      (sidtabInsert s sid c a).1 := by
  simp only [sidtabInsert] at h ⊢
  by_cases hrc : (chainInsert sid (newNode sid c a) (s.htable (hash sid))).2 = 0
  · rw [if_pos hrc]
    cases hn : newNode sid c a with
    | none =>
      rw [hn] at hrc
      exact absurd hrc (chainInsert_none _ _)
    | some n =>
      obtain rfl := newNode_eq hn
      rw [hn] at hrc
      obtain ⟨he, -⟩ | ⟨-, l₁, l₂, hi⟩ := chainInsert_some (n := ⟨sid, c⟩) hs
      · exact absurd (he.symm.trans hrc) (by decide)
      · exact ⟨⟨l₁, l₂, _, hi, rfl⟩, rfl, rfl⟩
  · rw [if_neg hrc] at h
    exact absurd h hrc

theorem Inserts.nodes_split {s s' : Table} {n : Node} {next : ℕ} (h : Inserts s n next s') :
    ∃ k₁ k₂, nodes s = k₁ ++ k₂ ∧ nodes s' = k₁ ++ n :: k₂ := by
  obtain ⟨l₁, l₂, chain, hi, hs'⟩ := h.chains
  exact nodes_update (hash_lt _) hi hs'

theorem Inserts.wf {s s' : Table} {n : Node} {next : ℕ} (hw : Wf s) (h : Inserts s n next s')
    (hpos : 0 < n.sid) (hlt : n.sid < next) (hle : next ≤ uintMax) (hnext : s.nextSid ≤ next)
    (hcached : ∀ i m, s.cache i = some m → scan s' m.context = some m) : Wf s' := by
  obtain ⟨l₁, l₂, chain, hi, hs'⟩ := h.chains
  have hmem : ∀ b, ∀ m ∈ s'.htable b, m ∈ s.htable b ∨ b = hash n.sid ∧ m = n := by
    intro b m hm
    rw [hs'] at hm
    by_cases hb : b = hash n.sid
    · subst hb
      rw [update_self, hi.mem_iff] at hm
      tauto
    · rw [update_of_ne hb] at hm
      exact .inl hm
  refine ⟨?_, ?_, ?_, ?_, ?_, ?_⟩
  · intro b
    rw [hs']
    by_cases hb : b = hash n.sid
    · subst hb
      rw [update_self]
      exact hi.pairwise (hw.sorted _)
    · rw [update_of_ne hb]
      exact hw.sorted b
  · intro b m hm
    obtain hm | ⟨rfl, rfl⟩ := hmem b m hm
    · exact hw.bucket b m hm
    · rfl
  · intro b m hm
    rw [h.nextSid]
    obtain hm | ⟨rfl, rfl⟩ := hmem b m hm
    · exact ⟨(hw.range b m hm).1, (hw.range b m hm).2.trans_le hnext⟩
    · exact ⟨hpos, hlt⟩
  · rw [h.nextSid]
    exact hpos.trans hlt
  · rw [h.nextSid]
    exact hle
  · intro i m hm
    rw [h.cache] at hm
    exact hcached i m hm

/-! ## The cache -/

theorem shiftCache_mem {n m : Node} {loc i : ℕ} {cache : ℕ → Option Node}
    (h : shiftCache n loc cache i = some m) : m = n ∨ ∃ j, cache j = some m := by
  induction loc generalizing cache with
  | zero =>
    rw [shiftCache] at h
    by_cases hi : i = 0
    · subst hi
      rw [update_self] at h
      exact .inl (some.inj h).symm
    · rw [update_of_ne hi] at h
      exact .inr ⟨i, h⟩
  | succ loc ih =>
    rw [shiftCache] at h
    obtain h | ⟨j, hj⟩ := ih h
    · exact .inl h
    · by_cases hl : j = loc + 1
      · subst hl
        rw [update_self] at hj
        exact .inr ⟨loc, hj⟩
      · rw [update_of_ne hl] at hj
        exact .inr ⟨j, hj⟩

theorem Wf.updateCache {s : Table} (hw : Wf s) {n : Node} (hn : scan s n.context = some n)
    (loc : ℕ) : Wf (sidtabUpdateCache s n loc) := by
  refine ⟨hw.sorted, hw.bucket, hw.range, hw.next_pos, hw.next_le, ?_⟩
  intro i m hm
  obtain rfl | ⟨j, hj⟩ := shiftCache_mem hm
  · exact hn
  · exact hw.cached j m hj

theorem searchCacheLoop_cases (s : Table) (c : Context) (slots i : ℕ) :
    searchCacheLoop s c slots i = (s, 0) ∨
    ∃ j n, s.cache j = some n ∧ contextCmp n.context c = true ∧
      searchCacheLoop s c slots i = (sidtabUpdateCache s n j, n.sid) := by
  induction slots generalizing i with
  | zero => exact .inl rfl
  | succ slots ih =>
    rw [searchCacheLoop]
    cases hc : s.cache i with
    | none => exact .inl rfl
    | some n =>
      by_cases hn : contextCmp n.context c = true
      · simp only [hn, if_true]
        exact .inr ⟨i, n, hc, hn, rfl⟩
      · simp only [hn]
        exact ih (i + 1)

theorem Wf.searchCache_cases {s : Table} (hw : Wf s) (c : Context) :
    sidtabSearchCache s c = (s, 0) ∨
    ∃ loc n, scan s c = some n ∧ sidtabSearchCache s c = (sidtabUpdateCache s n loc, n.sid) := by
  obtain h | ⟨loc, n, hn, hcmp, h⟩ := searchCacheLoop_cases s c cacheLen 0
  · exact .inl h
  · exact .inr ⟨loc, n, (scan_congr hcmp).symm.trans (hw.cached loc n hn), h⟩

theorem scan_self {s : Table} {c : Context} {n : Node} (h : scan s c = some n) :
    scan s n.context = some n := (scan_congr (contextCmp_of_scan h)).trans h

/-! ## From contexts to SIDs -/

theorem Wf.contextToSid_found {s : Table} (hw : Wf s) {c : Context} {n : Node}
    (h : scan s c = some n) (a : Allocs) :
    ∃ loc, sidtabContextToSid s c a = (sidtabUpdateCache s n loc, 0, n.sid) := by
  have hne : n.sid ≠ 0 := (hw.sid_pos (mem_of_scan h)).ne'
  obtain hc | ⟨loc, m, hm, hc⟩ := hw.searchCache_cases c
  · refine ⟨cacheLen - 1, ?_⟩
    simp [sidtabContextToSid, hc, sidtabSearchContext, h, hne]
  · obtain rfl : m = n := some.inj (hm.symm.trans h)
    refine ⟨loc, ?_⟩
    simp [sidtabContextToSid, hc, hne]

theorem Wf.contextToSid_new_eq {s : Table} (hw : Wf s) {c : Context} (h : scan s c = none)
    (a : Allocs) : sidtabContextToSid s c a = allocateSid s c a := by
  have hc : sidtabSearchCache s c = (s, 0) := by
    obtain hc | ⟨loc, m, hm, -⟩ := hw.searchCache_cases c
    · exact hc
    · rw [h] at hm
      cases hm
  simp [sidtabContextToSid, hc, sidtabSearchContext, h]

theorem Wf.contextToSid_new {s : Table} (hw : Wf s) {c : Context} (h : scan s c = none)
    (a : Allocs) :
    (∃ rc, rc ≠ 0 ∧ sidtabContextToSid s c a = (s, rc, 0)) ∨
    ∃ s', sidtabContextToSid s c a = (s', 0, s.nextSid) ∧ s.nextSid ≠ uintMax ∧
      Inserts s ⟨s.nextSid, c⟩ (s.nextSid + 1) s' := by
  rw [hw.contextToSid_new_eq h]
  have hsc : sidtabSearchContext s c = (s, 0) := by rw [sidtabSearchContext, h]
  simp only [allocateSid, hsc, ne_eq, not_true_eq_false, if_false]
  by_cases hfull : s.nextSid = uintMax ∨ s.shutdown = true
  · rw [if_pos hfull]
    exact .inl ⟨enomem, by decide, rfl⟩
  · rw [if_neg hfull]
    obtain ⟨hmax, -⟩ := not_or.mp hfull
    have hlt : s.nextSid + 1 < 2 ^ 32 := by
      have hle := hw.next_le
      unfold uintMax at hle hmax
      omega
    rw [Nat.mod_eq_of_lt hlt]
    by_cases hrc : (sidtabInsert { s with nextSid := s.nextSid + 1 } s.nextSid c a).2 = 0
    · rw [if_pos hrc]
      have hi := sidtabInsert_ok (s := { s with nextSid := s.nextSid + 1 }) (hw.sorted _) hrc
      rw [if_neg (by exact Nat.not_succ_le_self _)] at hi
      exact .inr ⟨_, rfl, hmax, hi.chains, hi.nextSid, hi.cache⟩
    · rw [if_neg hrc, sidtabInsert_fail hrc]
      have hback : wsub 32 (s.nextSid + 1) 1 = s.nextSid := wsub_of_le (Nat.le_add_left 1 _) hlt
      simp only [hback]
      exact .inl ⟨_, hrc, rfl⟩

end Cupcake.Selinux.Sidtab
