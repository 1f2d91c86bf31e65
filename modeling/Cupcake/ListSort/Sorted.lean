import Cupcake.ListSort.Defs

/-! Merging chains of nodes, and what it keeps. -/

namespace Cupcake.ListSort

open List Option Function

variable {N : Type*} [DecidableEq N] {cmp : N → N → ℤ} {back : Bool} {fuel : ℕ}
  {m m' : Links (Option N)} {p q : Option N} {t t' x y tmp head : N} {l r la lb C R I : List N}

/-! ## Chains -/

def Chain (m : Links (Option N)) : Option N → List N → Prop
  | p, [] => p = none
  | p, x :: l => p = some x ∧ Chain m (m.next (some x)) l

def Walk (back : Bool) (m : Links (Option N)) : N → List N → N → Prop
  | t, [], t' => t = t'
  | t, x :: l, t' => m.next (some t) = some x ∧ (back = true → m.prev (some x) = some t) ∧
      Walk back m x l t'

section Basic

omit [DecidableEq N]

theorem Chain.congr (h : Chain m p l) (hn : ∀ y ∈ l, m'.next (some y) = m.next (some y)) :
    Chain m' p l := by
  induction l generalizing p with
  | nil => exact h
  | cons x l ih =>
    obtain ⟨hx, hl⟩ := forall_mem_cons.mp hn
    exact ⟨h.1, hx ▸ ih h.2 hl⟩

theorem Chain.eq_none_iff (h : Chain m p l) : p = none ↔ l = [] := by
  cases l with
  | nil => exact iff_of_true h rfl
  | cons x l => simp [h.1]

theorem Walk.last (h : Walk back m t l t') : t' = (t :: l).getLast (cons_ne_nil _ _) := by
  induction l generalizing t with
  | nil => exact h.symm
  | cons x l ih => rw [getLast_cons (cons_ne_nil _ _), ih h.2.2]

theorem Walk.append {u : N} (h : Walk back m t l u) (hr : Walk back m u r t') :
    Walk back m t (l ++ r) t' := by
  induction l generalizing t with
  | nil => exact h ▸ hr
  | cons x l ih => exact ⟨h.1, h.2.1, ih h.2.2⟩

theorem Walk.congr (h : Walk back m t l t')
    (hn : ∀ y ∈ (t :: l).dropLast, m'.next (some y) = m.next (some y))
    (hv : ∀ y ∈ l, m'.prev (some y) = m.prev (some y)) : Walk back m' t l t' := by
  induction l generalizing t with
  | nil => exact h
  | cons x l ih =>
    rw [dropLast_cons_of_ne_nil (cons_ne_nil _ _)] at hn
    obtain ⟨hn₁, hn₂⟩ := forall_mem_cons.mp hn
    obtain ⟨hv₁, hv₂⟩ := forall_mem_cons.mp hv
    exact ⟨hn₁.trans h.1, fun hb => hv₁.trans (h.2.1 hb), ih h.2.2 hn₂ hv₂⟩

end Basic

theorem setNext_of_ne {a : Option N} (h : y ≠ t) :
    (m.setNext (some t) a).next (some y) = m.next (some y) :=
  update_of_ne (fun he => h (some.inj he)) _ _

theorem setNext_self {a : Option N} : (m.setNext (some t) a).next (some t) = a :=
  update_self ..

theorem Walk.chain (h : Walk back m t C t') (hr : Chain m p R) (hnd : (t :: (C ++ R)).Nodup) :
    Chain (m.setNext (some t') p) ((m.setNext (some t') p).next (some t)) (C ++ R) := by
  induction C generalizing t with
  | nil =>
    obtain rfl : t = t' := h
    rw [setNext_self]
    refine hr.congr fun y hy => setNext_of_ne ?_
    exact fun he => (nodup_cons.mp hnd).1 (he ▸ hy)
  | cons x C ih =>
    obtain ⟨ht, hnd'⟩ := nodup_cons.mp hnd
    have hne : t ≠ t' := by
      rintro rfl
      have hmem : t ∈ x :: C := h.2.2.last ▸ getLast_mem _
      exact ht (mem_append_left _ hmem)
    exact ⟨(setNext_of_ne hne).trans h.1, ih h.2.2 hnd'⟩

theorem link_next : (link back m (some t) x).next = (m.setNext (some t) (some x)).next := by
  cases back <;> rfl

theorem link_prev_of_ne (h : y ≠ x) : (link back m (some t) x).prev (some y) = m.prev (some y) := by
  cases back with
  | false => rfl
  | true => exact update_of_ne (fun he => h (some.inj he)) _ _

theorem link_prev_self (h : back = true) : (link back m (some t) x).prev (some x) = some t := by
  subst h
  exact update_self ..

theorem Walk.link (h : Walk back m' x C t')
    (hn : ∀ y ∉ x :: l, m'.next (some y) = (link back m (some t) x).next (some y))
    (hv : ∀ y ∉ l, m'.prev (some y) = (link back m (some t) x).prev (some y))
    (hnd : (t :: x :: l).Nodup) :
    Walk back m' t (x :: C) t' ∧ (∀ y ∉ t :: x :: l, m'.next (some y) = m.next (some y)) ∧
      ∀ y ∉ x :: l, m'.prev (some y) = m.prev (some y) := by
  obtain ⟨ht, hx⟩ := nodup_cons.mp hnd
  refine ⟨⟨?_, fun hb => ?_, h⟩, fun y hy => ?_, fun y hy => ?_⟩
  · rw [hn t ht, link_next, setNext_self]
  · rw [hv x (nodup_cons.mp hx).1, link_prev_self hb]
  · obtain ⟨hyt, hyl⟩ := not_or.mp (mem_cons.not.mp hy)
    rw [hn y hyl, link_next, setNext_of_ne hyt]
  · obtain ⟨hyx, hyl⟩ := not_or.mp (mem_cons.not.mp hy)
    rw [hv y hyl, link_prev_of_ne hyx]

theorem Chain.link (h : Chain m p l) (ht : t ∉ l) : Chain (link back m (some t) x) p l :=
  h.congr fun y hy => by rw [link_next, setNext_of_ne fun he : y = t => ht (he ▸ hy)]

/-! ## Merging -/

def le (cmp : N → N → ℤ) (a b : N) : Bool := cmp a b ≤ 0

theorem mergeLoop_spec (cmp : N → N → ℤ) (back : Bool) (ha : Chain m p la) (hb : Chain m q lb)
    (hnd : (t :: (la ++ lb)).Nodup)
    (hf : la.length + lb.length < fuel) :
    ∃ m' t' p' q' C R, mergeLoop cmp back fuel m (some t) p q = some (m', some t', p', q') ∧
      la.merge lb (le cmp) = C ++ R ∧ (la ++ lb ≠ [] → R ≠ []) ∧
      Walk back m' t C t' ∧ Chain m' (p'.or q') R ∧
      (∀ y ∉ t :: (la ++ lb), m'.next (some y) = m.next (some y)) ∧
      ∀ y ∉ la ++ lb, m'.prev (some y) = m.prev (some y) := by
  induction fuel generalizing m t p q la lb with
  | zero => exact absurd hf (Nat.not_lt_zero _)
  | succ fuel ih =>
    cases la with
    | nil =>
      obtain rfl : p = none := ha
      refine ⟨m, t, none, q, [], lb, ?_, nil_merge lb, fun h => h, rfl, ?_, fun _ _ => rfl,
        fun _ _ => rfl⟩
      · cases q <;> rfl
      · rwa [none_or]
    | cons a la =>
      cases lb with
      | nil =>
        obtain rfl : q = none := hb
        refine ⟨m, t, p, none, [], a :: la, ?_, merge_right _, fun _ => cons_ne_nil _ _, rfl, ?_,
          fun _ _ => rfl, fun _ _ => rfl⟩
        · cases p <;> rfl
        · rwa [or_none]
      | cons b lb =>
        obtain ⟨rfl, ha'⟩ := ha
        obtain ⟨rfl, hb'⟩ := hb
        rw [mergeLoop, cons_merge_cons, le]
        simp only [length_cons] at hf
        obtain ⟨ht, hnd'⟩ := nodup_cons.mp hnd
        simp only [cons_append, mem_cons, mem_append, not_or] at ht
        obtain ⟨hta, htla, htb, htlb⟩ := ht
        have hb : Chain m (some b) (b :: lb) := ⟨rfl, hb'⟩
        have ha : Chain m (some a) (a :: la) := ⟨rfl, ha'⟩
        by_cases hcmp : cmp a b ≤ 0
        · have hnext : (link back m (some t) a).next (some a) = m.next (some a) := by
            rw [link_next, setNext_of_ne (Ne.symm hta)]
          rw [if_pos hcmp, hnext, if_pos (decide_eq_true hcmp)]
          obtain ⟨m', t', p', q', C, R, hloop, hmerge, hne, hwalk, hchain, hn, hv⟩ :=
            ih (ha'.link htla) (hb.link (not_mem_cons_of_ne_of_not_mem htb htlb)) hnd'
              (by simp only [length_cons]; omega)
          obtain ⟨hwalk', hn', hv'⟩ := hwalk.link hn hv hnd
          refine ⟨m', t', p', q', a :: C, R, hloop, ?_, fun _ => hne (by simp), hwalk', hchain,
            hn', hv'⟩
          rw [hmerge, cons_append]
        · have hnext : (link back m (some t) b).next (some b) = m.next (some b) := by
            rw [link_next, setNext_of_ne (Ne.symm htb)]
          have hperm : ((a :: la) ++ b :: lb).Perm (b :: ((a :: la) ++ lb)) := perm_middle
          have hnd₂ : (t :: b :: ((a :: la) ++ lb)).Nodup := (hperm.cons t).nodup_iff.mp hnd
          rw [if_neg hcmp, hnext, if_neg (by simpa using hcmp)]
          obtain ⟨m', t', p', q', C, R, hloop, hmerge, hne, hwalk, hchain, hn, hv⟩ :=
            ih (ha.link (not_mem_cons_of_ne_of_not_mem hta htla)) (hb'.link htlb)
              (nodup_cons.mp hnd₂).2 (by simp only [length_cons]; omega)
          obtain ⟨hwalk', hn', hv'⟩ := hwalk.link hn hv hnd₂
          refine ⟨m', t', p', q', b :: C, R, hloop, ?_, fun _ => hne (by simp), hwalk', hchain,
            fun y hy => hn' y fun h => hy ((hperm.cons t).mem_iff.mpr h),
            fun y hy => hv' y fun h => hy (hperm.mem_iff.mpr h)⟩
          rw [hmerge, cons_append]

theorem merge_spec (cmp : N → N → ℤ) (ha : Chain m p la) (hb : Chain m q lb)
    (hnd : (tmp :: (la ++ lb)).Nodup)
    (hf : la.length + lb.length < fuel) :
    ∃ m' p', merge cmp tmp fuel m p q = some (m', p') ∧ Chain m' p' (la.merge lb (le cmp)) ∧
      ∀ y ∉ tmp :: (la ++ lb), m'.next (some y) = m.next (some y) := by
  obtain ⟨m', t', p', q', C, R, hloop, hmerge, -, hwalk, hchain, hn, -⟩ :=
    mergeLoop_spec cmp false ha hb hnd hf
  have hperm : (C ++ R).Perm (la ++ lb) := hmerge ▸ merge_perm_append (le cmp)
  have hlast : t' ∈ tmp :: (la ++ lb) := by
    have hmem : t' ∈ tmp :: C := hwalk.last ▸ getLast_mem _
    exact (hperm.cons tmp).subset (cons_subset_cons _ (subset_append_left C R) hmem)
  rw [merge, hloop]
  refine ⟨_, _, rfl, ?_, fun y hy => ?_⟩
  · rw [hmerge]
    exact hwalk.chain hchain ((hperm.cons tmp).nodup_iff.mpr hnd)
  · rw [setNext_of_ne fun he : y = t' => hy (he ▸ hlast), hn y hy]

/-! ## The links back -/

theorem backLoop_spec (h : Chain m (m.next (some t)) R) (hne : R ≠ []) (hnd : (t :: R).Nodup)
    (hf : R.length < fuel) :
    ∃ m' t', backLoop fuel m (some t) = some (m', some t') ∧ Walk true m' t R t' ∧
      m'.next = m.next ∧ ∀ y ∉ R, m'.prev (some y) = m.prev (some y) := by
  induction R generalizing m t fuel with
  | nil => exact absurd rfl hne
  | cons x R ih =>
    obtain ⟨fuel, rfl⟩ := Nat.exists_eq_succ_of_ne_zero (Nat.ne_of_gt (Nat.zero_lt_of_lt hf))
    obtain ⟨ht, hnd'⟩ := nodup_cons.mp hnd
    obtain ⟨hx, hR⟩ := h
    have hprev : (m.setPrev (some x) (some t)).prev (some x) = some t := update_self ..
    have hrest : ∀ y ≠ x, (m.setPrev (some x) (some t)).prev (some y) = m.prev (some y) := fun y hy =>
      update_of_ne (fun he => hy (some.inj he)) _ _
    simp only [backLoop, hx]
    by_cases hend : R = []
    · subst hend
      have hnull : (m.setPrev (some x) (some t)).next (some x) = none := hR
      rw [if_pos hnull]
      refine ⟨_, x, rfl, ⟨hx, fun _ => hprev, rfl⟩, rfl, fun y hy => hrest y ?_⟩
      simpa using hy
    · have hnull : ¬ (m.setPrev (some x) (some t)).next (some x) = none := fun h0 =>
        hend (hR.eq_none_iff.mp h0)
      rw [if_neg hnull]
      have hR' : Chain (m.setPrev (some x) (some t))
          ((m.setPrev (some x) (some t)).next (some x)) R := hR.congr fun _ _ => rfl
      obtain ⟨m', t', hloop, hwalk, hn, hv⟩ := ih hR' hend hnd' (Nat.lt_of_succ_lt_succ hf)
      refine ⟨m', t', hloop, ⟨?_, fun _ => ?_, hwalk⟩, hn, fun y hy => ?_⟩
      · rw [hn]
        exact hx
      · rw [hv x (nodup_cons.mp hnd').1, hprev]
      · obtain ⟨hyx, hyR⟩ := not_or.mp (mem_cons.not.mp hy)
        rw [hv y hyR, hrest y hyx]

theorem Walk.path (h : Walk true m x l t) (hnd : (x :: l).Nodup) (hh : head ∉ l) :
    ((m.setNext (some t) (some head)).setPrev (some head) (some t)).Path (some x) (l.map some)
      (some head) := by
  have hprev : ∀ y ≠ head,
      ((m.setNext (some t) (some head)).setPrev (some head) (some t)).prev (some y) =
      m.prev (some y) := fun y hy => update_of_ne (fun he => hy (some.inj he)) _ _
  induction l generalizing x with
  | nil =>
    obtain rfl : x = t := h
    exact ⟨setNext_self, update_self ..⟩
  | cons y l ih =>
    obtain ⟨hx, hnd'⟩ := nodup_cons.mp hnd
    obtain ⟨hy, hl⟩ := not_or.mp (mem_cons.not.mp hh)
    have hne : x ≠ t := by
      rintro rfl
      exact hx (h.2.2.last ▸ getLast_mem _)
    exact ⟨(setNext_of_ne hne).trans h.1, (hprev y (Ne.symm hy)).trans (h.2.1 rfl), ih h.2.2 hnd' hl⟩

theorem mergeAndRestoreBackLinks_spec (cmp : N → N → ℤ) (ha : Chain m p la) (hb : Chain m q lb)
    (hnd : (head :: (la ++ lb)).Nodup) (hne : la ++ lb ≠ []) (hf : la.length + lb.length < fuel) :
    ∃ m', mergeAndRestoreBackLinks cmp head fuel m p q = some m' ∧
      m'.Ring (some head) ((la.merge lb (le cmp)).map some) := by
  obtain ⟨m₁, t, p', q', C, R, hloop, hmerge, hR, hwalk, hchain, -, -⟩ :=
    mergeLoop_spec cmp true ha hb hnd hf
  have hperm : (C ++ R).Perm (la ++ lb) := hmerge ▸ merge_perm_append (le cmp)
  have hnd' : (head :: (C ++ R)).Nodup := (hperm.cons head).nodup_iff.mpr hnd
  have ht : t ∈ head :: C := hwalk.last ▸ getLast_mem _
  have hdis : ∀ y ∈ head :: C, y ∉ R := fun y hy hyR => by
    rw [← cons_append] at hnd'
    exact (nodup_append.mp hnd').2.2 y hy y hyR rfl
  have hndC : (head :: C).Nodup := hnd'.sublist (by simp)
  have hndR : R.Nodup := hnd'.sublist (by simp)
  -- the rest is attached behind what was merged
  obtain ⟨m₂, hm₂⟩ : ∃ m₂, m₂ = m₁.setNext (some t) (p'.or q') := ⟨_, rfl⟩
  have hwalk₂ : Walk true m₂ head C t := by
    refine hwalk.congr (fun y hy => ?_) fun _ _ => hm₂ ▸ rfl
    rw [hm₂, setNext_of_ne]
    rintro rfl
    rw [hwalk.last] at hy
    have hsplit := dropLast_append_getLast (cons_ne_nil head C)
    have hdrop := nodup_append.mp (hsplit.symm ▸ hndC)
    exact hdrop.2.2 _ hy _ (mem_singleton_self _) rfl
  have hchain₂ : Chain m₂ (m₂.next (some t)) R := by
    rw [hm₂, setNext_self]
    exact hchain.congr fun y hy => setNext_of_ne fun he : y = t => hdis t ht (he ▸ hy)
  have hlen : R.length < fuel := by
    have := hperm.length_eq
    simp only [length_append] at this
    omega
  obtain ⟨m₃, t', hback, hwalk₃, hn, hv⟩ := backLoop_spec hchain₂ (hR hne)
    (nodup_cons.mpr ⟨hdis t ht, hndR⟩) hlen
  rw [mergeAndRestoreBackLinks, hloop]
  simp only [bind_eq_bind, bind_some, ← hm₂, hback]
  refine ⟨_, rfl, ?_, ?_⟩
  · rw [hmerge, ← map_cons]
    exact hnd'.map fun _ _ => some.inj
  · have hall : Walk true m₃ head (C ++ R) t' := by
      refine Walk.append (hwalk₂.congr (fun y _ => by rw [hn]) fun y hy => hv y ?_) hwalk₃
      exact hdis y (mem_cons_of_mem _ hy)
    rw [hmerge]
    exact hall.path hnd' (nodup_cons.mp hnd').1

/-! ## Stable sorting -/

def same (cmp : N → N → ℤ) (x y : N) : Bool := le cmp x y && le cmp y x

structure Kept (cmp : N → N → ℤ) (l r : List N) : Prop where
  perm : l.Perm r
  filter : ∀ x, l.filter (same cmp x) = r.filter (same cmp x)

structure TotalPreorder (cmp : N → N → ℤ) : Prop where
  total : ∀ a b, cmp a b ≤ 0 ∨ cmp b a ≤ 0
  trans : ∀ a b c, cmp a b ≤ 0 → cmp b c ≤ 0 → cmp a c ≤ 0

def Sorted (cmp : N → N → ℤ) (l : List N) : Prop := l.Pairwise fun a b => le cmp a b = true

section Stable

omit [DecidableEq N]

theorem Kept.refl (cmp : N → N → ℤ) (l : List N) : Kept cmp l l := ⟨.refl l, fun _ => rfl⟩

theorem Kept.trans {k : List N} (h : Kept cmp l r) (h' : Kept cmp r k) : Kept cmp l k :=
  ⟨h.perm.trans h'.perm, fun x => (h.filter x).trans (h'.filter x)⟩

theorem Kept.append {l' r' : List N} (h : Kept cmp l r) (h' : Kept cmp l' r') :
    Kept cmp (l ++ l') (r ++ r') :=
  ⟨h.perm.append h'.perm, fun x => by rw [filter_append, filter_append, h.filter, h'.filter]⟩

variable (hc : TotalPreorder cmp)

include hc

section

variable (ha : Sorted cmp la) (hb : Sorted cmp lb)

include ha hb

theorem Sorted.merge : Sorted cmp (la.merge lb (le cmp)) := by
  refine pairwise_merge ?_ ?_ la lb ha hb
  · simpa [le] using hc.trans
  · simpa [le] using hc.total

theorem filter_merge (x : N) : (la.merge lb (le cmp)).filter (same cmp x) =
      la.filter (same cmp x) ++ lb.filter (same cmp x) := by
  induction la generalizing lb with
  | nil => rw [nil_merge, filter_nil, nil_append]
  | cons a la iha =>
    induction lb with
    | nil => rw [merge_right, filter_nil, append_nil]
    | cons b lb ihb =>
      obtain ⟨haa, ha'⟩ := pairwise_cons.mp ha
      rw [cons_merge_cons]
      by_cases hab : le cmp a b = true
      · rw [if_pos hab, filter_cons, filter_cons, iha ha' hb]
        split_ifs <;> rfl
      · rw [if_neg hab, filter_cons, ihb (pairwise_cons.mp hb).2, filter_cons (x := b)]
        by_cases hxb : same cmp x b = true
        · -- nothing before `b` in the older list is equivalent to it
          have hnone : (a :: la).filter (same cmp x) = [] := by
            refine filter_eq_nil_iff.mpr fun y hy hxy => hab ?_
            simp only [same, le, Bool.and_eq_true, decide_eq_true_eq] at hxb hxy haa ⊢
            have hyb := hc.trans y x b hxy.2 hxb.1
            obtain rfl | hy := mem_cons.mp hy
            · exact hyb
            · exact hc.trans a y b (haa y hy) hyb
          rw [if_pos hxb, if_pos hxb, hnone, nil_append, nil_append]
        · rw [if_neg hxb, if_neg hxb]

theorem kept_merge : Kept cmp (la.merge lb (le cmp)) (la ++ lb) :=
  ⟨merge_perm_append (le cmp), fun x => by rw [filter_merge hc ha hb, filter_append]⟩

end

end Stable

end Cupcake.ListSort
