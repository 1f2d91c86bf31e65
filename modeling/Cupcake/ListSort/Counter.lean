import Cupcake.ListSort.Sorted

/-! The counter of partial lists: `list_sort` sorts, and keeps equivalent entries in order. -/

namespace Cupcake.ListSort

open List Function

variable {N : Type*} [DecidableEq N] {cmp : N → N → ℤ} {fuel lev k n : ℕ} {tmp head : N}
  {m : Links (Option N)} {part : ℕ → Option N} {cur list : Option N} {P P' : ℕ → List N}
  {C L rest l : List N}

/-! ## Partial lists -/

def older (P : ℕ → List N) (lev : ℕ) : ℕ → List N
  | 0 => []
  | k + 1 => older P (lev + 1) k ++ P lev

structure Parts (cmp : N → N → ℤ) (m : Links (Option N)) (part : ℕ → Option N) (P : ℕ → List N) :
    Prop where
  chain : ∀ j, Chain m (part j) (P j)
  sorted : ∀ j, Sorted cmp (P j)
  top : ∀ j ≥ maxListLengthBits, P j = []

section Older

omit [DecidableEq N]

theorem older_congr (h : ∀ j, lev ≤ j → j < lev + k → P' j = P j) : older P' lev k = older P lev k := by
  induction k generalizing lev with
  | zero => rfl
  | succ k ih =>
    rw [older, older, h lev le_rfl (by omega), ih fun j hj hj' => h j (by omega) (by omega)]

theorem older_add (P : ℕ → List N) (lev k n : ℕ) :
    older P lev (k + n) = older P (lev + k) n ++ older P lev k := by
  induction k generalizing lev with
  | zero => rw [Nat.zero_add, Nat.add_zero, older, append_nil]
  | succ k ih =>
    rw [Nat.succ_add, older, older, ih, append_assoc, Nat.add_right_comm]
    rfl

theorem older_eq_nil (h : ∀ j, lev ≤ j → j < lev + k → P j = []) : older P lev k = [] := by
  induction k generalizing lev with
  | zero => rfl
  | succ k ih =>
    rw [older, h lev le_rfl (by omega), ih fun j hj hj' => h j (by omega) (by omega), append_nil]

theorem older_single (hn : n < k) (h : ∀ j < k, j ≠ n → P j = []) : older P 0 k = P n := by
  obtain ⟨d, rfl⟩ : ∃ d, k = n + (1 + d) := ⟨k - n - 1, by omega⟩
  have hlow : older P 0 n = [] := older_eq_nil fun j _ hj => h j (by omega) (by omega)
  have hhigh : older P (0 + n + 1) d = [] := older_eq_nil fun j hj hj' => h j (by omega) (by omega)
  rw [older_add, hlow, append_nil, older_add, hhigh, nil_append]
  simp [older]

theorem mem_older (hlev : lev ≤ n) (hn : n < lev + k) {x : N} (hx : x ∈ P n) : x ∈ older P lev k := by
  obtain ⟨a, rfl⟩ : ∃ a, n = lev + a := ⟨n - lev, by omega⟩
  obtain ⟨b, rfl⟩ : ∃ b, k = a + (b + 1) := ⟨k - a - 1, by omega⟩
  rw [older_add, older]
  exact mem_append_left _ (mem_append_right _ hx)

theorem not_mem_of_nodup_cons_append {x y : N} (hnd : (x :: (l ++ L)).Nodup) (hy : y ∈ l) :
    y ∉ x :: L := by
  intro hy'
  exact (nodup_append.mp (perm_middle.nodup_iff.mpr hnd)).2.2 y hy y hy' rfl

end Older

/-! ## The loops -/

omit [DecidableEq N] in
theorem Parts.congr {m' : Links (Option N)} (h : Parts cmp m part P)
    (hn : ∀ j, ∀ y ∈ P j, m'.next (some y) = m.next (some y)) : Parts cmp m' part P :=
  ⟨fun j => (h.chain j).congr (hn j), h.sorted, h.top⟩

omit [DecidableEq N] in
theorem Parts.store (h : Parts cmp m part P) (hn : n < maxListLengthBits) (hcur : Chain m cur C)
    (hC : Sorted cmp C) : Parts cmp m (update part n cur) (update P n C) := by
  refine ⟨fun j => ?_, fun j => ?_, fun j hj => ?_⟩
  · by_cases hj : j = n
    · rw [hj, update_self, update_self]
      exact hcur
    · rw [update_of_ne hj, update_of_ne hj]
      exact h.chain j
  · by_cases hj : j = n
    · rw [hj, update_self]
      exact hC
    · rw [update_of_ne hj]
      exact h.sorted j
  · rw [update_of_ne (Nat.ne_of_gt (hn.trans_le hj))]
    exact h.top j hj

omit [DecidableEq N] in
theorem older_store (hn : n ≤ lev) (hlev : lev ≤ maxListLengthBits) :
    older (update (fun j => if j ≤ lev then [] else P j) n C) 0 (maxListLengthBits + 1) =
      older P (lev + 1) (maxListLengthBits - lev) ++ C := by
  have hk : maxListLengthBits + 1 = lev + 1 + (maxListLengthBits - lev) := by omega
  rw [hk, older_add, Nat.zero_add]
  congr 1
  · refine older_congr fun j hj _ => ?_
    rw [update_of_ne (by omega), if_neg (by omega)]
  · rw [older_single (Nat.lt_succ_of_le hn), update_self]
    intro j hj hne
    rw [update_of_ne hne, if_pos (Nat.le_of_lt_succ hj)]

variable (hc : TotalPreorder cmp)

include hc

theorem levLoop_spec (hp : Parts cmp m part P) (hlow : ∀ j < lev, P j = []) (hcur : Chain m cur C)
    (hC : Sorted cmp C) (hne : C ≠ []) (hk : lev + k = maxListLengthBits + 1) (hpos : 0 < k)
    (hnd : (tmp :: (older P lev k ++ C)).Nodup) (hf : (older P lev k ++ C).length < fuel) :
    ∃ m' part' cur' lev' C', levLoop cmp tmp fuel k m part cur lev = some (m', part', cur', lev') ∧
      lev ≤ lev' ∧ lev' ≤ maxListLengthBits ∧ P lev' = [] ∧
      Parts cmp m' part' (fun j => if j ≤ lev' then [] else P j) ∧
      Chain m' cur' C' ∧ Sorted cmp C' ∧ C' ≠ [] ∧
      Kept cmp (older P (lev' + 1) (maxListLengthBits - lev') ++ C') (older P lev k ++ C) ∧
      ∀ y ∉ tmp :: (older P lev k ++ C), m'.next (some y) = m.next (some y) := by
  induction k generalizing lev m part cur P C with
  | zero => exact absurd hpos (Nat.lt_irrefl 0)
  | succ k ih =>
    rw [levLoop]
    by_cases hnull : part lev = none
    · have hP := (hp.chain lev).eq_none_iff.mp hnull
      have heq : (fun j => if j ≤ lev then [] else P j) = P := by
        funext j
        split_ifs with hj
        · rcases hj.lt_or_eq with hj | rfl
          · exact (hlow j hj).symm
          · exact hP.symm
        · rfl
      rw [if_pos hnull]
      refine ⟨m, part, cur, lev, C, rfl, le_rfl, by omega, hP, heq.symm ▸ hp, hcur, hC, hne, ?_,
        fun _ _ => rfl⟩
      have hkk : maxListLengthBits - lev = k := by omega
      rw [hkk, older, hP, append_nil]
      exact .refl _ _
    · have hP : P lev ≠ [] := fun h => hnull ((hp.chain lev).eq_none_iff.mpr h)
      have hlt : lev < maxListLengthBits := by
        by_contra hge
        exact hP (hp.top lev (by omega))
      rw [older, append_assoc] at hnd hf
      have hnd₁ : (tmp :: (P lev ++ C)).Nodup :=
        hnd.sublist (Sublist.cons_cons _ (sublist_append_right _ _))
      have hlen : (P lev).length + C.length < fuel := by
        simp only [length_append] at hf
        omega
      obtain ⟨m₁, cur₁, hmerge, hcur₁, hn₁⟩ := merge_spec cmp (hp.chain lev) hcur hnd₁ hlen
      have hdis : ∀ y ∈ older P (lev + 1) k, y ∉ tmp :: (P lev ++ C) := fun y hy =>
        not_mem_of_nodup_cons_append hnd hy
      have hp₁ : Parts cmp m₁ (update part lev none) (update P lev []) := by
        have hnone : Chain m none [] := rfl
        refine (hp.store hlt hnone Pairwise.nil).congr fun j y hy => ?_
        by_cases hj : j = lev
        · simp [hj] at hy
        · rw [update_of_ne hj] at hy
          refine hn₁ y (hdis y (mem_older ?_ ?_ hy))
          · by_contra h
            simp [hlow j (by omega)] at hy
          · by_contra h
            simp [hp.top j (by omega)] at hy
      have holder : older (update P lev []) (lev + 1) k = older P (lev + 1) k :=
        older_congr fun j hj _ => update_of_ne (by omega) _ _
      have hkept : Kept cmp (older P (lev + 1) k ++ (P lev).merge C (le cmp))
          (older P (lev + 1) k ++ (P lev ++ C)) :=
        Kept.append (.refl _ _) (kept_merge hc (hp.sorted lev) hC)
      have hlow₁ : ∀ j < lev + 1, update P lev [] j = [] := by
        intro j hj
        by_cases h : j = lev
        · rw [h, update_self]
        · rw [update_of_ne h]
          exact hlow j (by omega)
      have hne₁ : (P lev).merge C (le cmp) ≠ [] := by
        intro h
        have hlen := (kept_merge hc (hp.sorted lev) hC).perm.length_eq
        rw [h, length_nil, length_append] at hlen
        exact hP (length_eq_zero_iff.mp (by omega))
      obtain ⟨m', part', cur', lev', C', hloop, hle, hle', hnil, hparts, hcur', hC', hne', hk', hn'⟩ :=
        ih hp₁ hlow₁ hcur₁ (Sorted.merge hc (hp.sorted lev) hC) hne₁ (by omega) (by omega)
          (holder ▸ (hkept.perm.cons tmp).nodup_iff.mpr hnd)
          (by rw [holder, hkept.perm.length_eq]; exact hf)
      have hfun : (fun j => if j ≤ lev' then [] else update P lev [] j) =
          fun j => if j ≤ lev' then [] else P j := by
        funext j
        split_ifs with hj
        · rfl
        · rw [update_of_ne (by omega)]
      rw [update_of_ne (by omega)] at hnil
      have holder' : older (update P lev []) (lev' + 1) (maxListLengthBits - lev') =
          older P (lev' + 1) (maxListLengthBits - lev') :=
        older_congr fun j hj _ => update_of_ne (by omega) _ _
      rw [holder, holder'] at hk'
      rw [if_neg hnull, hmerge]
      refine ⟨m', part', cur', lev', C', hloop, by omega, hle', hnil, hfun ▸ hparts, hcur', hC',
        hne', ?_, fun y hy => ?_⟩
      · rw [older, append_assoc]
        exact hk'.trans hkept
      · rw [older, append_assoc] at hy
        rw [hn' y, hn₁ y]
        · exact fun h => hy (cons_subset_cons _ (subset_append_right _ _) h)
        · rw [holder]
          exact fun h => hy ((hkept.perm.cons tmp).subset h)

theorem sortLoop_spec {left maxLev : ℕ} (hp : Parts cmp m part P) (hlist : Chain m list rest)
    (hmax : maxLev < maxListLengthBits) (hhigh : ∀ j > maxLev, P j = [])
    (hinv : P maxLev ≠ [] ∨ maxLev = 0)
    (hnd : (tmp :: (older P 0 (maxListLengthBits + 1) ++ rest)).Nodup)
    (hf : (older P 0 (maxListLengthBits + 1) ++ rest).length < fuel) (hleft : rest.length < left) :
    ∃ m' part' maxLev' P', sortLoop cmp tmp fuel left m part maxLev list = some (m', part', maxLev') ∧
      Parts cmp m' part' P' ∧ maxLev' < maxListLengthBits ∧ (∀ j > maxLev', P' j = []) ∧
      (P maxLev ≠ [] ∨ rest ≠ [] → P' maxLev' ≠ []) ∧
      Kept cmp (older P' 0 (maxListLengthBits + 1)) (older P 0 (maxListLengthBits + 1) ++ rest) := by
  induction rest generalizing left maxLev m part P list with
  | nil =>
    obtain ⟨left, rfl⟩ := Nat.exists_eq_succ_of_ne_zero (Nat.ne_of_gt hleft)
    obtain rfl : list = none := hlist
    refine ⟨m, part, maxLev, P, rfl, hp, hmax, hhigh, fun h => ?_, ?_⟩
    · exact h.resolve_right fun h0 => h0 rfl
    · rw [append_nil]
      exact .refl _ _
  | cons x rest ih =>
    obtain ⟨left, rfl⟩ := Nat.exists_eq_succ_of_ne_zero (Nat.ne_of_gt (Nat.zero_lt_of_lt hleft))
    obtain ⟨rfl, hrest⟩ := hlist
    have hnd' : (tmp :: ((older P 0 (maxListLengthBits + 1) ++ [x]) ++ rest)).Nodup := by
      rwa [append_assoc, singleton_append]
    have hdis : ∀ y ∈ tmp :: (older P 0 (maxListLengthBits + 1) ++ [x]), y ∉ rest := by
      intro y hy hy'
      rw [← cons_append] at hnd'
      exact (nodup_append.mp hnd').2.2 y hy y hy' rfl
    have hx : ∀ y ∈ older P 0 (maxListLengthBits + 1), y ≠ x := by
      intro y hy
      exact (nodup_append.mp (nodup_cons.mp hnd).2).2.2 y hy x mem_cons_self
    have hp₁ : Parts cmp (m.setNext (some x) none) part P := by
      refine hp.congr fun j y hy => setNext_of_ne (hx y (mem_older (Nat.zero_le j) ?_ hy))
      by_contra h
      simp [hp.top j (by omega)] at hy
    have hcur₁ : Chain (m.setNext (some x) none) (some x) [x] := ⟨rfl, setNext_self⟩
    have hlen : (older P 0 (maxListLengthBits + 1) ++ [x]).length < fuel := by
      simp only [length_append, length_cons, length_nil] at hf ⊢
      omega
    obtain ⟨m₂, part₂, cur, lev, C, hloop, -, hle, hnil, hp₂, hcur, hC, hne, hkept, hn⟩ :=
      levLoop_spec hc hp₁ (fun j hj => absurd hj (Nat.not_lt_zero j)) hcur₁ (pairwise_singleton _ _)
        (cons_ne_nil _ _) (Nat.zero_add _) (Nat.succ_pos _)
        (hnd'.sublist (Sublist.cons_cons _ (sublist_append_left _ _))) hlen
    obtain ⟨lev', hlev'⟩ : ∃ lev', lev' =
      if maxLev < lev ∧ maxListLengthBits ≤ lev then lev - 1 else lev := ⟨_, rfl⟩
    obtain ⟨maxLev', hmaxLev'⟩ : ∃ k, k = if maxLev < lev then lev' else maxLev := ⟨_, rfl⟩
    have hlt : lev' < maxListLengthBits ∧ lev' ≤ lev ∧ (lev ≤ maxLev → lev' = lev) := by
      split_ifs at hlev' with h <;> omega
    have hself : update (fun j => if j ≤ lev then [] else P j) lev' C lev' = C :=
      update_self ..
    have hkept₂ : Kept cmp (older P (lev + 1) (maxListLengthBits - lev) ++ C ++ rest)
        (older P 0 (maxListLengthBits + 1) ++ x :: rest) := by
      have h := Kept.append hkept (.refl cmp rest)
      rwa [append_assoc (older P 0 _), singleton_append] at h
    have hrest₂ : Chain m₂ (m.next (some x)) rest := by
      refine hrest.congr fun y hy => ?_
      rw [hn y fun h => hdis y h hy, setNext_of_ne]
      rintro rfl
      exact hdis y (mem_cons_of_mem _ (mem_append_right _ mem_cons_self)) hy
    have hhigh₂ : ∀ j > maxLev', update (fun j => if j ≤ lev then [] else P j) lev' C j = [] := by
      intro j hj
      have hmaxj : j ≠ lev' ∧ (¬ j ≤ lev → j > maxLev) := by
        split_ifs at hmaxLev' <;> omega
      rw [update_of_ne hmaxj.1]
      split_ifs with hle
      · rfl
      · exact hhigh j (hmaxj.2 hle)
    have hmax₂ : update (fun j => if j ≤ lev then [] else P j) lev' C maxLev' ≠ [] := by
      by_cases heq : maxLev' = lev'
      · rw [heq, hself]
        exact hne
      · have hmaxLev : maxLev' = maxLev ∧ lev < maxLev := by
          split_ifs at hmaxLev' <;> omega
        rw [update_of_ne heq, hmaxLev.1, if_neg (by omega)]
        exact hinv.resolve_right (by omega)
    obtain ⟨m', part', maxLev'', P', hrun, hp', hmax', hhigh', hne', hkept'⟩ :=
      ih (hp₂.store hlt.1 hcur hC) hrest₂ (by split_ifs at hmaxLev' <;> omega) hhigh₂ (.inl hmax₂)
        (by rw [older_store hlt.2.1 hle]; exact (hkept₂.perm.cons tmp).nodup_iff.mpr hnd)
        (by rw [older_store hlt.2.1 hle, hkept₂.perm.length_eq]; exact hf)
        (Nat.lt_of_succ_lt_succ hleft)
    rw [older_store hlt.2.1 hle] at hkept'
    refine ⟨m', part', maxLev'', P', ?_, hp', hmax', hhigh', fun _ => hne' (.inl hmax₂),
      hkept'.trans hkept₂⟩
    rw [sortLoop, hloop]
    rw [hmaxLev', hlev'] at hrun
    exact hrun

theorem finalLoop_spec (hp : ∀ j ≥ lev, j ≤ lev + n → Chain m (part j) (P j))
    (hs : ∀ j, Sorted cmp (P j))
    (hlist : Chain m list L) (hL : Sorted cmp L) (hnd : (tmp :: (older P lev (n + 1) ++ L)).Nodup)
    (hf : (older P lev (n + 1) ++ L).length < fuel) :
    ∃ m' list' L', finalLoop cmp tmp fuel part (range' lev n) m list = some (m', list') ∧
      Chain m' (part (lev + n)) (P (lev + n)) ∧ Chain m' list' L' ∧
      Kept cmp (P (lev + n) ++ L') (older P lev (n + 1) ++ L) ∧ Sorted cmp L' := by
  induction n generalizing lev m list L with
  | zero => exact ⟨m, list, L, rfl, hp lev le_rfl le_rfl, hlist, .refl _ _, hL⟩
  | succ n ih =>
    have hadd : lev + (n + 1) = lev + 1 + n := by omega
    have hlev := hp lev le_rfl (Nat.le_add_right _ _)
    rw [older, append_assoc] at hnd hf ⊢
    rw [range'_succ, finalLoop, hadd]
    by_cases hnull : part lev = none
    · rw [hlev.eq_none_iff.mp hnull, nil_append] at hnd hf ⊢
      rw [if_pos hnull]
      exact ih (fun j hj hj' => hp j (Nat.le_of_succ_le hj) (hadd ▸ hj')) hlist hL hnd hf
    · have hnd₁ : (tmp :: (P lev ++ L)).Nodup :=
        hnd.sublist (Sublist.cons_cons _ (sublist_append_right _ _))
      have hlen : (P lev).length + L.length < fuel := by
        simp only [length_append] at hf
        omega
      obtain ⟨m₁, list₁, hmerge, hlist₁, hn₁⟩ := merge_spec cmp hlev hlist hnd₁ hlen
      have hkept : Kept cmp (older P (lev + 1) (n + 1) ++ (P lev).merge L (le cmp))
          (older P (lev + 1) (n + 1) ++ (P lev ++ L)) :=
        Kept.append (.refl _ _) (kept_merge hc (hs lev) hL)
      have hp₁ : ∀ j ≥ lev + 1, j ≤ lev + 1 + n → Chain m₁ (part j) (P j) := by
        intro j hj hj'
        refine (hp j (Nat.le_of_succ_le hj) (hadd ▸ hj')).congr fun y hy => hn₁ y fun hy' => ?_
        have hold : y ∈ older P (lev + 1) (n + 1) := mem_older hj (by omega) hy
        exact not_mem_of_nodup_cons_append hnd hold hy'
      obtain ⟨m', list', L', hrun, hchain, hlist', hkept', hL'⟩ := ih hp₁ hlist₁
        (Sorted.merge hc (hs lev) hL) ((hkept.perm.cons tmp).nodup_iff.mpr hnd)
        (hkept.perm.length_eq ▸ hf)
      rw [if_neg hnull, hmerge]
      exact ⟨m', list', L', hrun, hchain, hlist', hkept'.trans hkept, hL'⟩

omit hc in
theorem Chain.of_path {a : N} {b : Option N} (hp : m.Path (some a) (l.map some) b)
    (hnd : (a :: l).Nodup) :
    Chain (m.setNext (m.prev b) none) ((m.setNext (m.prev b) none).next (some a)) l := by
  induction l generalizing a with
  | nil =>
    have hprev : m.prev b = some a := hp.2
    rw [hprev]
    exact setNext_self
  | cons x l ih =>
    obtain ⟨hnext, -, hpath⟩ := hp
    have hne : some a ≠ m.prev b := by
      intro he
      have hmem := he ▸ hpath.prev_end ▸ getLast_mem (cons_ne_nil (some x) (l.map some))
      rw [← map_cons, mem_map] at hmem
      obtain ⟨y, hy, hya⟩ := hmem
      exact (nodup_cons.mp hnd).1 (Option.some.inj hya ▸ hy)
    exact ⟨(update_of_ne hne _ _).trans hnext, ih hpath (nodup_cons.mp hnd).2⟩

omit [DecidableEq N] hc in
theorem older_of_high {maxLev : ℕ} (hmax : maxLev < maxListLengthBits)
    (hhigh : ∀ j > maxLev, P j = []) :
    older P 0 (maxListLengthBits + 1) = older P 0 (maxLev + 1) := by
  have hk : maxListLengthBits + 1 = maxLev + 1 + (maxListLengthBits - maxLev) := by omega
  rw [hk, older_add, older_eq_nil, nil_append]
  intro j hj _
  exact hhigh j (by omega)

/-- `list_sort` returns, and leaves a ring of the same entries: sorted, and with equivalent entries
in their old order. -/
theorem listSort_sorts (hr : m.Ring (some head) (l.map some)) (htmp : tmp ∉ head :: l)
    (hf : l.length < fuel) :
    ∃ m' l', listSort cmp tmp head fuel m = some m' ∧ m'.Ring (some head) (l'.map some) ∧
      l'.Perm l ∧ Sorted cmp l' ∧ ∀ x, l'.filter (same cmp x) = l.filter (same cmp x) := by
  by_cases hnil : l = []
  · have hempty := hr.isEmpty_iff.mpr (map_eq_nil_iff.mpr hnil)
    subst hnil
    exact ⟨m, [], if_pos hempty, hr, .refl _, Pairwise.nil, fun _ => rfl⟩
  · have hempty : ¬ m.isEmpty (some head) = true := fun h =>
      hnil (map_eq_nil_iff.mp (hr.isEmpty_iff.mp h))
    have hnd : (head :: l).Nodup := Nodup.of_map some hr.nodup
    obtain ⟨hhead, hl⟩ := nodup_cons.mp hnd
    have hndt : (tmp :: l).Nodup := nodup_cons.mpr ⟨fun h => htmp (mem_cons_of_mem _ h), hl⟩
    have hnone : older (fun _ => ([] : List N)) 0 (maxListLengthBits + 1) = [] :=
      older_eq_nil fun _ _ _ => rfl
    have hparts : Parts cmp (m.setNext (m.prev (some head)) none) (fun _ => none) fun _ => [] :=
      ⟨fun _ => rfl, fun _ => Pairwise.nil, fun _ _ => rfl⟩
    have hmax₀ : 0 < maxListLengthBits := Nat.succ_pos _
    obtain ⟨m₁, part, maxLev, P, hsort, hp, hmax, hhigh, hne, hkept⟩ :=
      sortLoop_spec hc hparts (Chain.of_path hr.path hnd) hmax₀ (fun _ _ => rfl) (.inr rfl)
        (by rwa [hnone]) (by rwa [hnone]) hf
    rw [hnone, nil_append, older_of_high hmax hhigh] at hkept
    have hkept' : Kept cmp (older P 0 (maxLev + 1) ++ []) l := by rwa [append_nil]
    have hlist₁ : Chain m₁ none [] := rfl
    obtain ⟨m₂, list, L, hfinal, hmaxLev, hlist, hkept₂, hL⟩ :=
      finalLoop_spec hc (fun j _ _ => hp.chain j) hp.sorted hlist₁ Pairwise.nil
        ((hkept'.perm.cons tmp).nodup_iff.mpr hndt) (hkept'.perm.length_eq ▸ hf)
    rw [Nat.zero_add] at hmaxLev hkept₂
    have hk := hkept₂.trans hkept'
    have hlen : (P maxLev).length + L.length < fuel := by
      rw [← length_append, hk.perm.length_eq]
      exact hf
    obtain ⟨m₃, hrun, hring⟩ := mergeAndRestoreBackLinks_spec cmp hmaxLev hlist
      ((hk.perm.cons head).nodup_iff.mpr hnd)
      (append_ne_nil_of_left_ne_nil (hne (.inr hnil)) _) hlen
    have hmerge := (kept_merge hc (hp.sorted maxLev) hL).trans hk
    refine ⟨m₃, _, ?_, hring, hmerge.perm, Sorted.merge hc (hp.sorted maxLev) hL, hmerge.filter⟩
    rw [listSort, if_neg hempty]
    simp only [Option.bind_eq_bind, hsort, Option.bind_some, range_eq_range', hfinal]
    exact hrun

omit hc in
theorem listSort_sorts_ring_of_three : ∃ m' l',
    listSort (fun a b : ℕ => (b / 2 : ℤ) - a / 2) 9 0 4
        ⟨Option.map fun x => (x + 1) % 4, Option.map fun x => (x + 3) % 4⟩ = some m' ∧
      m'.Ring (some 0) (l'.map some) ∧ l'.Perm [1, 2, 3] ∧
      Sorted (fun a b : ℕ => (b / 2 : ℤ) - a / 2) l' ∧
      ∀ x, l'.filter (same (fun a b : ℕ => (b / 2 : ℤ) - a / 2) x) =
        [1, 2, 3].filter (same (fun a b : ℕ => (b / 2 : ℤ) - a / 2) x) := by
  have hc : TotalPreorder fun a b : ℕ => (b / 2 : ℤ) - a / 2 :=
    ⟨fun a b => by omega, fun a b c hab hbc => by omega⟩
  exact listSort_sorts hc ⟨by decide, rfl, rfl, rfl, rfl, rfl, rfl, rfl, rfl⟩ (by decide) (by decide)

end Cupcake.ListSort
