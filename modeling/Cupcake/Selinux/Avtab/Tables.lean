import Mathlib.Data.Prod.Lex
import Cupcake.Lib.Run
import Cupcake.Selinux.Avtab.Defs

/-! The chains of a table stay in order, so a walk with early exits misses no rule. -/

namespace Cupcake.Selinux

open List Option

def AvtabKey.triple (k : AvtabKey) : ℕ ×ₗ ℕ ×ₗ ℕ :=
  toLex (k.sourceType.toNat, toLex (k.targetType.toNat, k.targetClass.toNat))

theorem triple_eq_iff (k cur : AvtabKey) :
    k.triple = cur.triple ↔ k.sourceType = cur.sourceType ∧ k.targetType = cur.targetType ∧
      k.targetClass = cur.targetClass := by
  simp [AvtabKey.triple, BitVec.toNat_inj]

theorem sameTriple_iff (k cur : AvtabKey) : sameTriple k cur = true ↔ k.triple = cur.triple := by
  rw [triple_eq_iff]
  simp [sameTriple, and_assoc]

theorem pastKey_iff (k cur : AvtabKey) : pastKey k cur = true ↔ k.triple < cur.triple := by
  simp only [pastKey, AvtabKey.triple, Bool.or_eq_true, Bool.and_eq_true, decide_eq_true_eq,
    Prod.Lex.toLex_lt_toLex, BitVec.lt_def, BitVec.toNat_inj]
  tauto

theorem matchesKey_iff (k cur : AvtabKey) (specified : BitVec 16) :
    matchesKey k cur specified = true ↔
      k.triple = cur.triple ∧ specified &&& cur.specified ≠ 0 := by
  simp [matchesKey, sameTriple_iff]

theorem avtabHash_congr {k cur : AvtabKey} (h : k.triple = cur.triple) (mask : BitVec 32) :
    avtabHash k mask = avtabHash cur mask := by
  obtain ⟨hs, ht, hc⟩ := (triple_eq_iff _ _).mp h
  rw [avtabHash, avtabHash, hs, ht, hc]

/-! ## Chains -/

def Sorted (chain : List AvtabNode) : Prop := chain.Pairwise fun m n => m.key.triple ≤ n.key.triple

theorem Sorted.cons_of_le {new cur : AvtabNode} {rest : List AvtabNode} (h : Sorted (cur :: rest))
    (hle : new.key.triple ≤ cur.key.triple) : Sorted (new :: cur :: rest) := by
  refine pairwise_cons.mpr ⟨?_, h⟩
  intro n hn
  obtain rfl | hn := mem_cons.mp hn
  · exact hle
  · exact hle.trans ((pairwise_cons.mp h).1 n hn)

structure Added (new : AvtabNode) (chain chain' : List AvtabNode) : Prop where
  sorted : Sorted chain'
  perm : chain'.Perm (new :: chain)

theorem Added.cons {new cur : AvtabNode} {rest rest' : List AvtabNode}
    (h : Added new rest rest') (hs : Sorted (cur :: rest))
    (hle : cur.key.triple ≤ new.key.triple) : Added new (cur :: rest) (cur :: rest') := by
  refine ⟨pairwise_cons.mpr ⟨?_, h.sorted⟩, (h.perm.cons cur).trans (.swap new cur rest)⟩
  intro n hn
  obtain rfl | hn := mem_cons.mp (h.perm.mem_iff.mp hn)
  · exact hle
  · exact (pairwise_cons.mp hs).1 n hn

theorem insertNonuniqueLoop_added {new : AvtabNode} {specified : BitVec 16}
    {chain : List AvtabNode} (hs : Sorted chain) :
    Added new chain (insertNonuniqueLoop new specified chain) := by
  induction chain with
  | nil => exact ⟨pairwise_singleton _ _, .refl _⟩
  | cons cur rest ih =>
    rw [insertNonuniqueLoop]
    by_cases hm : matchesKey new.key cur.key specified = true
    · rw [if_pos hm]
      exact ⟨hs.cons_of_le ((matchesKey_iff _ _ _).mp hm).1.le, .refl _⟩
    · rw [if_neg hm]
      by_cases hp : pastKey new.key cur.key = true
      · rw [if_pos hp]
        exact ⟨hs.cons_of_le ((pastKey_iff _ _).mp hp).le, .refl _⟩
      · rw [if_neg hp]
        exact (ih (pairwise_cons.mp hs).2).cons hs (not_lt.mp (mt (pastKey_iff _ _).mpr hp))

theorem insertLoop_eq {new : AvtabNode} {specified : BitVec 16} {chain chain' : List AvtabNode}
    (h : insertLoop new specified chain = some chain') :
    chain' = insertNonuniqueLoop new specified chain := by
  induction chain generalizing chain' with
  | nil => exact (some.inj h).symm
  | cons cur rest ih =>
    rw [insertLoop] at h
    rw [insertNonuniqueLoop]
    by_cases hm : matchesKey new.key cur.key specified = true
    · rw [if_pos hm] at h
      split_ifs at h with hx
      rw [if_pos hm]
      exact (some.inj h).symm
    · rw [if_neg hm] at h ⊢
      by_cases hp : pastKey new.key cur.key = true
      · rw [if_pos hp] at h ⊢
        exact (some.inj h).symm
      · rw [if_neg hp] at h ⊢
        obtain ⟨rest', hr, rfl⟩ := map_eq_some_iff.mp h
        rw [ih hr]

/-! ## Walks -/

theorem searchLoop_congr {k cur : AvtabKey} (h : k.triple = cur.triple) (specified : BitVec 16)
    (chain : List AvtabNode) : searchLoop k specified chain = searchLoop cur specified chain := by
  induction chain with
  | nil => rfl
  | cons n rest ih =>
    have hm : matchesKey k n.key specified = matchesKey cur n.key specified := by
      rw [Bool.eq_iff_iff, matchesKey_iff, matchesKey_iff, h]
    have hp : pastKey k n.key = pastKey cur n.key := by
      rw [Bool.eq_iff_iff, pastKey_iff, pastKey_iff, h]
    rw [searchLoop, searchLoop, hm, hp, ih]

theorem length_searchLoop_le (k : AvtabKey) (specified : BitVec 16) (chain : List AvtabNode) :
    (searchLoop k specified chain).length ≤ chain.length := by
  induction chain with
  | nil => exact le_rfl
  | cons n rest ih =>
    rw [searchLoop]
    split_ifs
    · exact le_rfl
    · exact Nat.zero_le _
    · exact ih.trans (Nat.le_succ _)

theorem filter_eq_nil_of_past {k : AvtabKey} {specified : BitVec 16} {chain : List AvtabNode}
    (h : ∀ n ∈ chain, k.triple < n.key.triple) :
    chain.filter (fun n => matchesKey k n.key specified) = [] := by
  rw [filter_eq_nil_iff]
  intro n hn hm
  exact (h n hn).ne ((matchesKey_iff _ _ _).mp hm).1

theorem visitFrom_eq_filter {k : AvtabKey} {specified : BitVec 16} {chain : List AvtabNode}
    (hs : Sorted chain) {fuel : ℕ}
    (hf : (searchLoop k (plainSpecified specified) chain).length ≤ fuel) :
    visitFrom specified fuel (searchLoop k (plainSpecified specified) chain) =
      chain.filter fun n => matchesKey k n.key (plainSpecified specified) := by
  induction chain generalizing fuel with
  | nil => cases fuel <;> rfl
  | cons cur rest ih =>
    obtain ⟨hcur, hrest⟩ := pairwise_cons.mp hs
    rw [searchLoop] at hf ⊢
    by_cases hm : matchesKey k cur.key (plainSpecified specified) = true
    · rw [if_pos hm] at hf ⊢
      obtain ⟨fuel, rfl⟩ : ∃ m, fuel = m + 1 := ⟨fuel - 1, by simp at hf; omega⟩
      have htriple := ((matchesKey_iff _ _ _).mp hm).1
      rw [visitFrom, avtabSearchNodeNext, ← searchLoop_congr htriple, filter_cons, if_pos hm,
        ih hrest ((length_searchLoop_le _ _ _).trans (by simpa using hf))]
    · rw [if_neg hm] at hf ⊢
      rw [filter_cons, if_neg hm]
      by_cases hp : pastKey k cur.key = true
      · rw [if_pos hp]
        have hlt := (pastKey_iff _ _).mp hp
        rw [filter_eq_nil_of_past fun n hn => hlt.trans_le (hcur n hn)]
        cases fuel <;> rfl
      · rw [if_neg hp] at hf ⊢
        exact ih hrest hf

/-! ## Tables -/

def Avtab.Rule (h : Avtab) (n : AvtabNode) : Prop :=
  ∃ table, h.htable = some table ∧ ∃ b, n ∈ table b

def Avtab.Wf (h : Avtab) : Prop :=
  ∀ table, h.htable = some table →
    (∀ b, Sorted (table b)) ∧ ∀ b, ∀ n ∈ table b, avtabHash n.key h.mask = b

inductive AvtabOp where
  | insert (new : AvtabNode) (alloc : Bool)
  | insertNonunique (new : AvtabNode) (alloc : Bool)
  | switch (b : BitVec 32) (i : ℕ) (on : Bool)

def AvtabNode.switch (n : AvtabNode) (on : Bool) : AvtabNode :=
  { n with key := { n.key with specified := setEnabled on n.key.specified } }

def Avtab.exec (h : Avtab) : AvtabOp → Avtab
  | .insert new alloc => (avtabInsert h new alloc).1
  | .insertNonunique new alloc => (avtabInsertNonunique h new alloc).1
  | .switch b i on =>
    { h with htable := h.htable.map fun table =>
        Function.update table b ((table b).modify i (·.switch on)) }

def Avtab.Built (h : Avtab) : Prop :=
  ∃ nrules, Reach (fun h op => some (Avtab.exec h op)) (fun _ _ => True) (avtabAlloc nrules) h

theorem Avtab.Wf.setChain {h : Avtab} (hw : h.Wf) {table : BitVec 32 → List AvtabNode}
    (ht : h.htable = some table) {new : AvtabNode} {chain : List AvtabNode}
    (ha : Added new (table (avtabHash new.key h.mask)) chain) :
    (h.setChain table (avtabHash new.key h.mask) chain).Wf := by
  intro table' ht'
  obtain rfl := some.inj ht'
  obtain ⟨hsort, hhash⟩ := hw table ht
  constructor
  · intro b
    by_cases hb : b = avtabHash new.key h.mask
    · rw [hb, Function.update_self]
      exact ha.sorted
    · rw [Function.update_of_ne hb]
      exact hsort b
  · intro b n hn
    by_cases hb : b = avtabHash new.key h.mask
    · rw [hb, Function.update_self] at hn
      obtain rfl | hn := mem_cons.mp (ha.perm.mem_iff.mp hn)
      · exact hb.symm
      · rw [hb]
        exact hhash _ n hn
    · rw [Function.update_of_ne hb] at hn
      exact hhash b n hn

theorem Avtab.Wf.insert {h : Avtab} (hw : h.Wf) (new : AvtabNode) (alloc : Bool) :
    (avtabInsert h new alloc).1.Wf := by
  rw [avtabInsert]
  cases ht : h.htable with
  | none => exact hw
  | some table =>
    dsimp only
    split
    · exact hw
    · next chain hc =>
      split_ifs
      · apply hw.setChain ht
        rw [insertLoop_eq hc]
        exact insertNonuniqueLoop_added ((hw table ht).1 _)
      · exact hw

theorem Avtab.Wf.insertNonunique {h : Avtab} (hw : h.Wf) (new : AvtabNode) (alloc : Bool) :
    (avtabInsertNonunique h new alloc).1.Wf := by
  rw [avtabInsertNonunique]
  cases ht : h.htable with
  | none => exact hw
  | some table =>
    dsimp only
    split_ifs
    · exact hw.setChain ht (insertNonuniqueLoop_added ((hw table ht).1 _))
    · exact hw

theorem map_triple_modify (chain : List AvtabNode) (i : ℕ) (on : Bool) :
    (chain.modify i (·.switch on)).map (·.key.triple) = chain.map (·.key.triple) := by
  induction chain generalizing i with
  | nil => cases i <;> rfl
  | cons n chain ih =>
    cases i with
    | zero => rfl
    | succ i => simp [ih]

theorem Sorted.of_map {chain chain' : List AvtabNode} (hs : Sorted chain)
    (h : chain'.map (·.key.triple) = chain.map (·.key.triple)) : Sorted chain' := by
  have hmap : ∀ l : List AvtabNode, Sorted l ↔ (l.map (·.key.triple)).Pairwise (· ≤ ·) :=
    fun l => pairwise_map.symm
  rw [hmap, h, ← hmap]
  exact hs

theorem Avtab.Wf.switch {h : Avtab} (hw : h.Wf) (b : BitVec 32) (i : ℕ) (on : Bool) :
    (h.exec (.switch b i on)).Wf := by
  intro table' ht'
  obtain ⟨table, ht, rfl⟩ := map_eq_some_iff.mp ht'
  obtain ⟨hsort, hhash⟩ := hw table ht
  have hmap := map_triple_modify (table b) i on
  constructor
  · intro c
    by_cases hc : c = b
    · rw [hc, Function.update_self]
      exact (hsort b).of_map hmap
    · rw [Function.update_of_ne hc]
      exact hsort c
  · intro c n hn
    by_cases hc : c = b
    · rw [hc, Function.update_self] at hn
      have hmem : n.key.triple ∈ (table b).map (·.key.triple) := by
        rw [← hmap]
        exact mem_map_of_mem hn
      obtain ⟨m, hm, hmn⟩ := mem_map.mp hmem
      rw [hc, ← avtabHash_congr hmn]
      exact hhash b m hm
    · rw [Function.update_of_ne hc] at hn
      exact hhash c n hn

theorem Avtab.Built.wf {h : Avtab} (hb : h.Built) : h.Wf := by
  obtain ⟨nrules, hr⟩ := hb
  apply Reach.invariant _ _ hr
  · intro table ht
    rw [avtabAlloc] at ht
    split_ifs at ht
    obtain rfl := some.inj ht
    exact ⟨fun _ => .nil, fun _ _ hn => absurd hn not_mem_nil⟩
  · intro h h' op hw _ hs
    cases hs
    cases op with
    | insert new alloc => exact hw.insert new alloc
    | insertNonunique new alloc => exact hw.insertNonunique new alloc
    | switch b i on => exact hw.switch b i on

theorem Avtab.Wf.mem_visit {h : Avtab} (hw : h.Wf) (key : AvtabKey) (n : AvtabNode) :
    n ∈ avtabVisit h key ↔ h.Rule n ∧ matchesKey key n.key (plainSpecified key.specified) = true := by
  rw [avtabVisit, avtabSearchNode]
  cases ht : h.htable with
  | none => simp [visitFrom, Avtab.Rule, ht]
  | some table =>
    obtain ⟨hsort, hhash⟩ := hw table ht
    dsimp only
    rw [visitFrom_eq_filter (hsort _) le_rfl, mem_filter]
    refine and_congr_left fun hm => ⟨fun hn => ⟨table, ht, _, hn⟩, ?_⟩
    rintro ⟨table', ht', b, hn⟩
    obtain rfl := some.inj (ht.symm.trans ht')
    rw [avtabHash_congr ((matchesKey_iff _ _ _).mp hm).1, hhash b n hn]
    exact hn

end Cupcake.Selinux
