import Cupcake.Selinux.Sidtab.Defs

/-! What inserting a node does to a chain and to a scan of the whole table. -/

namespace Cupcake.Selinux.Sidtab

open List Function

structure Inserted (n : Node) (chain chain' : List Node) (l₁ l₂ : List Node) : Prop where
  old : chain = l₁ ++ l₂
  new : chain' = l₁ ++ n :: l₂
  below : ∀ m ∈ l₁, m.sid < n.sid
  above : ∀ m ∈ l₂, n.sid < m.sid

theorem chainInsert_none (sid : ℕ) (chain : List Node) :
    (chainInsert sid none chain).2 ≠ 0 := by
  induction chain with
  | nil => simp [chainInsert, enomem]
  | cons cur rest ih =>
    rw [chainInsert]
    split_ifs
    · exact ih
    · simp [eexist]
    · simp [enomem]

theorem chainInsert_some {n : Node} {chain : List Node}
    (hs : chain.Pairwise fun a b => a.sid < b.sid) :
    (chainInsert n.sid (some n) chain).2 = eexist ∧ (∃ m ∈ chain, m.sid = n.sid) ∨
    (chainInsert n.sid (some n) chain).2 = 0 ∧
      ∃ l₁ l₂, Inserted n chain (chainInsert n.sid (some n) chain).1 l₁ l₂ := by
  induction chain with
  | nil => exact .inr ⟨rfl, [], [], ⟨rfl, rfl, by simp, by simp⟩⟩
  | cons cur rest ih =>
    obtain ⟨hcur, hrest⟩ := pairwise_cons.mp hs
    rw [chainInsert]
    by_cases hlt : n.sid > cur.sid
    · rw [if_pos hlt]
      obtain ⟨h, m, hm, he⟩ | ⟨h, l₁, l₂, hi⟩ := ih hrest
      · exact .inl ⟨h, m, mem_cons_of_mem _ hm, he⟩
      · refine .inr ⟨h, cur :: l₁, l₂, ?_, ?_, ?_, hi.above⟩
        · rw [cons_append, ← hi.old]
        · rw [cons_append, ← hi.new]
        · intro m hm
          obtain rfl | hm := List.mem_cons.mp hm
          · exact hlt
          · exact hi.below m hm
    · rw [if_neg hlt]
      by_cases heq : n.sid = cur.sid
      · rw [if_pos heq]
        exact .inl ⟨rfl, cur, mem_cons_self, heq.symm⟩
      · rw [if_neg heq]
        have hcn : n.sid < cur.sid := by omega
        refine .inr ⟨rfl, [], cur :: rest, rfl, rfl, by simp, ?_⟩
        intro m hm
        obtain rfl | hm := List.mem_cons.mp hm
        · exact hcn
        · exact hcn.trans (hcur m hm)

theorem Inserted.mem_iff {n m : Node} {chain chain' l₁ l₂ : List Node}
    (h : Inserted n chain chain' l₁ l₂) : m ∈ chain' ↔ m = n ∨ m ∈ chain := by
  rw [h.old, h.new]
  simp only [List.mem_append, List.mem_cons]
  tauto

theorem Inserted.pairwise {n : Node} {chain chain' l₁ l₂ : List Node}
    (h : Inserted n chain chain' l₁ l₂) (hs : chain.Pairwise fun a b => a.sid < b.sid) :
    chain'.Pairwise fun a b => a.sid < b.sid := by
  rw [h.old, pairwise_append] at hs
  rw [h.new, pairwise_append, pairwise_cons]
  refine ⟨hs.1, ⟨h.above, hs.2.1⟩, ?_⟩
  intro a ha b hb
  obtain rfl | hb := List.mem_cons.mp hb
  · exact h.below a ha
  · exact hs.2.2 a ha b hb

theorem chainFind_eq {n : Node} {chain : List Node}
    (hs : chain.Pairwise fun a b => a.sid < b.sid) (hn : n ∈ chain) :
    chainFind n.sid chain = some n := by
  induction chain with
  | nil => cases hn
  | cons cur rest ih =>
    obtain ⟨hcur, hrest⟩ := pairwise_cons.mp hs
    rw [chainFind]
    obtain rfl | hn := List.mem_cons.mp hn
    · rw [if_neg (lt_irrefl _)]
    · rw [if_pos (hcur n hn)]
      exact ih hrest hn

/-! ## Scans -/

theorem hash_lt (sid : ℕ) : hash sid < sidtabSize := Nat.mod_lt _ (by decide)

theorem scan_congr {s : Table} {c c' : Context} (h : contextCmp c c' = true) :
    scan s c = scan s c' := by
  have hkey := (contextCmp_iff _ _).mp h
  have hcmp : (fun cur : Node => contextCmp cur.context c) =
      fun cur : Node => contextCmp cur.context c' := by
    funext cur
    rw [Bool.eq_iff_iff, contextCmp_iff, contextCmp_iff, hkey]
  rw [scan, scan, hcmp]

theorem contextCmp_of_scan {s : Table} {c : Context} {n : Node} (h : scan s c = some n) :
    contextCmp n.context c = true :=
  find?_some (p := fun cur : Node => contextCmp cur.context c) h

theorem mem_of_scan {s : Table} {c : Context} {n : Node} (h : scan s c = some n) : n ∈ nodes s :=
  mem_of_find?_eq_some h

theorem find?_insert {α : Type*} {p : α → Bool} {n : α} {l₁ l₂ : List α}
    (h : p n = true → ∀ m ∈ l₁, ¬ p m = true) :
    (l₁ ++ n :: l₂).find? p = if p n then some n else (l₁ ++ l₂).find? p := by
  rw [find?_append, find?_append, find?_cons]
  by_cases hp : p n = true
  · rw [find?_eq_none.mpr (h hp), if_pos hp, hp]
    rfl
  · rw [if_neg hp, Bool.eq_false_iff.mpr hp]

theorem flatMap_update {f : ℕ → List Node} {b : ℕ} {l : List ℕ} (hb : b ∉ l) (chain : List Node) :
    l.flatMap (update f b chain) = l.flatMap f := by
  apply flatMap_congr
  intro a ha
  have hab : a ≠ b := by
    rintro rfl
    exact hb ha
  exact update_of_ne hab _ _

theorem nodes_update {s : Table} {n : Node} {b : ℕ} (hb : b < sidtabSize) {chain' : List Node}
    {l₁ l₂ : List Node} (hi : Inserted n (s.htable b) chain' l₁ l₂) {s' : Table}
    (hs' : s'.htable = update s.htable b chain') :
    ∃ k₁ k₂, nodes s = k₁ ++ k₂ ∧ nodes s' = k₁ ++ n :: k₂ := by
  obtain ⟨pre, post, hsplit⟩ := append_of_mem (mem_range.mpr hb)
  have hnodup := nodup_range (n := sidtabSize)
  rw [hsplit, nodup_middle, nodup_cons, mem_append, not_or] at hnodup
  refine ⟨pre.flatMap s.htable ++ l₁, l₂ ++ post.flatMap s.htable, ?_, ?_⟩
  · rw [nodes, hsplit, flatMap_append, flatMap_cons, hi.old]
    simp only [append_assoc]
  · rw [nodes, hsplit, hs', flatMap_append, flatMap_cons, flatMap_update hnodup.1.1,
      flatMap_update hnodup.1.2, update_self, hi.new]
    simp only [append_assoc, cons_append]

theorem scan_insert {s s' : Table} {n : Node} {k₁ k₂ : List Node} (h : nodes s = k₁ ++ k₂)
    (h' : nodes s' = k₁ ++ n :: k₂) (hnew : scan s n.context = none) (c : Context) :
    scan s' c = if contextCmp n.context c then some n else scan s c := by
  rw [scan, scan, h', h]
  apply find?_insert
  intro hn m hm hcm
  rw [contextCmp_iff] at hn hcm
  have hmem : m ∈ nodes s := by
    rw [h]
    exact mem_append_left _ hm
  exact find?_eq_none.mp hnew m hmem ((contextCmp_iff _ _).mpr (hcm.trans hn.symm))

end Cupcake.Selinux.Sidtab
