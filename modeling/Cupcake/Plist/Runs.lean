import Cupcake.Plist.Defs

/-! The calls keep the members of a list in order and the first of each priority linked. -/

namespace Cupcake.Plist

open List Function

variable {N : Type*} [DecidableEq N] {prio : N → ℤ} {s s' : PlistHead N} {a b n x y : N}
  {l A B C D : List N} {fuel : ℕ}

/-! ## The first of each priority -/

section Firsts

omit [DecidableEq N]

theorem firsts_sublist (prio : N → ℤ) (l : List N) : (firsts prio l).Sublist l := by
  induction l with
  | nil => exact Sublist.refl _
  | cons a l ih => exact (filter_sublist.trans ih).cons_cons a

theorem firsts_append (prio : N → ℤ) (l r : List N) :
    firsts prio (l ++ r) = firsts prio l ++
      (firsts prio r).filter fun b => ∀ a ∈ l, prio b ≠ prio a := by
  induction l with
  | nil => simp [firsts]
  | cons a l ih =>
    simp only [cons_append, firsts, ih, filter_append, filter_filter, forall_mem_cons]
    congr 3
    funext b
    simp

theorem exists_first (h : a ∈ l) : ∃ b ∈ firsts prio l, prio b = prio a := by
  induction l with
  | nil => cases h
  | cons c l ih =>
    by_cases hc : prio c = prio a
    · exact ⟨c, mem_cons_self, hc⟩
    · obtain rfl | h := mem_cons.mp h
      · exact absurd rfl hc
      obtain ⟨b, hb, he⟩ := ih h
      refine ⟨b, mem_cons_of_mem _ (mem_filter.mpr ⟨hb, ?_⟩), he⟩
      simpa [he] using Ne.symm hc

theorem firsts_insert_of_mem (h : ∃ a ∈ A, prio a = prio x) :
    firsts prio (A ++ x :: D) = firsts prio (A ++ D) := by
  obtain ⟨a, ha, he⟩ := h
  have hx : ¬ ∀ a ∈ A, prio x ≠ prio a := fun h => h a ha he.symm
  rw [firsts_append, firsts_append, firsts, filter_cons_of_neg (by simpa using hx), filter_filter]
  congr 1
  refine filter_congr fun b _ => ?_
  rw [Bool.and_eq_left_iff_imp, decide_eq_true_eq, decide_eq_true_eq]
  exact fun h => he ▸ h a ha

theorem firsts_insert_of_notMem (hA : ∀ a ∈ A, prio x ≠ prio a) (hD : ∀ d ∈ D, prio d ≠ prio x) :
    firsts prio (A ++ x :: D) = firsts prio A ++ x ::
      (firsts prio D).filter fun b => ∀ a ∈ A, prio b ≠ prio a := by
  have hfilter : (firsts prio D).filter (fun b => decide (prio b ≠ prio x)) = firsts prio D :=
    filter_eq_self.mpr fun d hd => decide_eq_true (hD d ((firsts_sublist prio D).subset hd))
  rw [firsts_append, firsts, filter_cons_of_pos (by simpa using hA), hfilter]

theorem firsts_replace (hA : ∀ a ∈ A, prio x ≠ prio a) (he : prio y = prio x) :
    ∃ G, firsts prio (A ++ x :: y :: D) = firsts prio A ++ x :: G ∧
      firsts prio (A ++ y :: D) = firsts prio A ++ y :: G ∧ ∀ g ∈ G, prio g ≠ prio x := by
  have hA' : ∀ a ∈ A, prio y ≠ prio a := fun a ha => he ▸ hA a ha
  refine ⟨((firsts prio D).filter fun b => prio b ≠ prio x).filter fun b => ∀ a ∈ A, prio b ≠ prio a,
    ?_, ?_, fun g hg => of_decide_eq_true (mem_filter.mp (mem_filter.mp hg).1).2⟩
  · rw [firsts_append, firsts, filter_cons_of_pos (by simpa using hA), firsts,
      filter_cons_of_neg (by simpa using he), filter_filter (p := fun b => decide (prio b ≠ prio x))]
    simp only [he, Bool.and_self]
  · rw [firsts_append, firsts, filter_cons_of_pos (by simpa using hA')]
    simp only [he]

theorem head?_firsts (prio : N → ℤ) (l : List N) : (firsts prio l).head? = l.head? := by
  cases l with
  | nil => rfl
  | cons a l => rfl

end Firsts

/-! ## Sorted lists -/

def Sorted (prio : N → ℤ) (l : List N) : Prop := l.Pairwise fun a b => prio a ≤ prio b

def place (prio : N → ℤ) (n : N) (l : List N) : List N :=
  l.orderedInsert (fun a b => prio a < prio b) n

omit [DecidableEq N] in
theorem place_append (hA : ∀ a ∈ A, prio a ≤ prio n) (hB : ∀ b ∈ B, prio n < prio b) :
    place prio n (A ++ B) = A ++ n :: B := by
  induction A with
  | nil =>
    cases B with
    | nil => rfl
    | cons b B => rw [nil_append, place, orderedInsert_cons, if_pos (hB b mem_cons_self), nil_append]
  | cons a A ih =>
    obtain ⟨ha, hA⟩ := forall_mem_cons.mp hA
    rw [cons_append, place, orderedInsert_cons, if_neg (not_lt.mpr ha), cons_append]
    exact congrArg (a :: ·) (ih hA)

omit [DecidableEq N] in
theorem Sorted.split (hl : Sorted prio l) (p : ℤ) :
    ∃ A B, l = A ++ B ∧ (∀ a ∈ A, prio a ≤ p) ∧ ∀ b ∈ B, p < prio b := by
  induction l with
  | nil => exact ⟨[], [], rfl, by simp, by simp⟩
  | cons c l ih =>
    obtain ⟨hc, hl⟩ := pairwise_cons.mp hl
    by_cases hp : prio c ≤ p
    · obtain ⟨A, B, rfl, hA, hB⟩ := ih hl
      exact ⟨c :: A, B, rfl, forall_mem_cons.mpr ⟨hp, hA⟩, hB⟩
    · refine ⟨[], c :: l, rfl, by simp, forall_mem_cons.mpr ⟨not_le.mp hp, fun b hb => ?_⟩⟩
      exact (not_le.mp hp).trans_le (hc b hb)

/-! ## `plist_add` -/

theorem addLoop_eq {first : N} {F pre mid post tail : List N} {iter : N}
    (hc : s.prioList.Cycle F) (hF : F = pre ++ (mid ++ post)) (hfirst : F.head? = some first)
    (htail : mid ++ post = iter :: tail) (hmid : ∀ a ∈ mid, s.prio a ≤ s.prio n)
    (hpost : ∀ b ∈ post, s.prio n < s.prio b) (hfuel : mid.length < fuel) :
    addLoop s n first fuel iter pre.getLast? =
      some (post.head?, (pre ++ mid).getLast?, post.head?.getD first) := by
  induction mid generalizing pre iter tail fuel with
  | nil =>
    obtain ⟨fuel, rfl⟩ := Nat.exists_eq_succ_of_ne_zero (Nat.ne_of_gt hfuel)
    subst htail
    rw [addLoop, if_pos (hpost iter mem_cons_self), append_nil]
    rfl
  | cons a mid ih =>
    obtain ⟨fuel, rfl⟩ := Nat.exists_eq_succ_of_ne_zero (Nat.ne_of_gt (Nat.zero_lt_of_lt hfuel))
    obtain ⟨ha, hmid⟩ := forall_mem_cons.mp hmid
    obtain ⟨rfl, rfl⟩ := cons.inj htail
    rw [addLoop, if_neg (not_lt.mpr ha)]
    have hring : s.prioList.Ring a ((mid ++ post) ++ pre) :=
      Links.cycle_append_cons.mp (hF ▸ hc)
    cases hrest : mid ++ post with
    | nil =>
      -- the ring closes
      obtain ⟨rfl, rfl⟩ := append_eq_nil_iff.mp hrest
      have hnext : s.prioList.next a = first := by
        cases pre with
        | nil =>
          rw [hF] at hfirst
          rw [hring.path.1]
          exact Option.some.inj hfirst
        | cons c pre =>
          rw [hF] at hfirst
          rw [hring.path.1]
          exact Option.some.inj hfirst
      rw [if_pos hnext]
      simp
    | cons c rest =>
      rw [hrest] at hring
      have hnext : s.prioList.next a = c := hring.path.1
      have hne : c ≠ first := by
        have hnd := hF ▸ hc.nodup
        rw [cons_append, hrest] at hnd hF
        rintro rfl
        cases pre with
        | nil =>
          rw [hF] at hfirst
          obtain rfl := Option.some.inj hfirst
          simp at hnd
        | cons d pre =>
          rw [hF] at hfirst
          obtain rfl := Option.some.inj hfirst
          simp at hnd
      rw [hnext, if_neg hne]
      have hF' : F = (pre ++ [a]) ++ (mid ++ post) := by simp [hF]
      have hrec := ih hF' hrest hmid (Nat.lt_of_succ_lt_succ hfuel)
      rw [getLast?_concat, append_assoc] at hrec
      exact hrec

omit [DecidableEq N] in
theorem Shape.nodup (h : Shape s l) : l.Nodup :=
  Nodup.of_map _ (nodup_cons.mp h.nodes.nodup).2

omit [DecidableEq N] in
theorem some_notMem (hn : n ∉ l) : some n ∉ none :: l.map some := by
  simpa using hn

theorem Shape.insert (h : Shape s (A ++ B)) (hn : n ∉ A ++ B) :
    (s.nodeList.addTail (some n) B.head?).Ring none ((A ++ n :: B).map some) ∧
      ∀ y ∉ A ++ n :: B, (s.nodeList.addTail (some n) B.head?).Ring (some y) [] := by
  have heq : none :: (A ++ B).map some = (none :: A.map some) ++ B.map some := by
    rw [map_append, cons_append]
  have hc : s.nodeList.Cycle ((none :: A.map some) ++ B.map some) := heq ▸ h.nodes
  have hhead : ((B.map some).head?).getD none = B.head? := by
    cases B with
    | nil => rfl
    | cons b B => rfl
  refine ⟨?_, fun y hy => ?_⟩
  · have hadd := hc.addTail_before rfl (heq ▸ some_notMem hn)
    rw [hhead] at hadd
    simpa [Links.Cycle] using hadd
  · simp only [mem_append, mem_cons, not_or] at hy
    have hyl : y ∉ A ++ B := by simp [hy]
    have hne : some y ≠ some n := by simpa using hy.2.1
    have hrest := hc.addTail_before_rest rfl (heq ▸ some_notMem hyl) (h.nodes_rest y hyl) hne
    rwa [hhead] at hrest

omit [DecidableEq N] in
theorem getLast?_firsts (hA : ∀ a ∈ A, prio a ≤ prio n) (hs : Sorted prio A) :
    (firsts prio A).getLast?.map prio = some (prio n) ↔ ∃ a ∈ A, prio a = prio n := by
  constructor
  · intro h
    obtain ⟨a, ha, he⟩ := Option.map_eq_some_iff.mp h
    exact ⟨a, (firsts_sublist prio A).subset (mem_of_getLast? ha), he⟩
  · rintro ⟨a, ha, he⟩
    obtain ⟨b, hb, hbe⟩ : ∃ b ∈ firsts prio A, prio b = prio a := exists_first ha
    obtain ⟨c, hc⟩ : ∃ c, (firsts prio A).getLast? = some c := by
      rw [← Option.isSome_iff_exists, getLast?_isSome]
      exact ne_nil_of_mem hb
    have hcA := hA c ((firsts_sublist prio A).subset (mem_of_getLast? hc))
    rw [hc, Option.map_some, Option.some.injEq]
    refine le_antisymm hcA ?_
    rw [← he, ← hbe]
    obtain ⟨F, hF⟩ := getLast?_eq_some_iff.mp hc
    have hsF : (firsts prio A).Pairwise fun a b => prio a ≤ prio b := hs.sublist (firsts_sublist prio A)
    rw [hF] at hb hsF
    rcases mem_append.mp hb with hb | hb
    · exact (pairwise_append.mp hsF).2.2 b hb c (mem_singleton_self c)
    · exact (mem_singleton.mp hb ▸ le_rfl)

omit [DecidableEq N] in
theorem firsts_split (hA : ∀ a ∈ A, prio a ≤ prio n) (hB : ∀ b ∈ B, prio n < prio b) :
    firsts prio (A ++ B) = firsts prio A ++ firsts prio B := by
  rw [firsts_append]
  refine congrArg _ (filter_eq_self.mpr fun b hb => decide_eq_true fun a ha => ?_)
  exact ((hA a ha).trans_lt (hB b ((firsts_sublist prio B).subset hb))).ne'

theorem Shape.insertPrio {first : N} (h : Shape s (A ++ B)) (hn : n ∉ A ++ B)
    (hs : Sorted s.prio A) (hA : ∀ a ∈ A, s.prio a ≤ s.prio n) (hB : ∀ b ∈ B, s.prio n < s.prio b)
    (hfirst : (A ++ B).head? = some first) {m : Links N}
    (hm : m = if (firsts s.prio A).getLast?.map s.prio ≠ some (s.prio n) then
      s.prioList.addTail n (B.head?.getD first) else s.prioList) :
    m.Cycle (firsts s.prio (A ++ n :: B)) ∧ ∀ y ∉ firsts s.prio (A ++ n :: B), m.Ring y [] := by
  have hlast := getLast?_firsts hA hs
  by_cases hex : ∃ a ∈ A, s.prio a = s.prio n
  · rw [if_neg (not_not.mpr (hlast.mpr hex))] at hm
    rw [hm, firsts_insert_of_mem hex]
    exact ⟨h.prios, h.prios_rest⟩
  · rw [if_pos fun he => hex (hlast.mp he), ← head?_firsts s.prio B] at hm
    have hF := firsts_split hA hB
    have hc := hF ▸ h.prios
    have hhead : (firsts s.prio A ++ firsts s.prio B).head? = some first := by
      rw [← hF, head?_firsts, hfirst]
    have hnF : n ∉ firsts s.prio A ++ firsts s.prio B :=
      fun hm => hn ((firsts_sublist s.prio (A ++ B)).subset (hF ▸ hm))
    have hnew : firsts s.prio (A ++ n :: B) = firsts s.prio A ++ n :: firsts s.prio B := by
      have hneA : ∀ a ∈ A, s.prio n ≠ s.prio a := fun a ha he => hex ⟨a, ha, he.symm⟩
      rw [firsts_insert_of_notMem hneA fun b hb => (hB b hb).ne']
      exact congrArg (fun l => _ ++ n :: l) ((append_cancel_left ((firsts_append _ _ _).symm.trans hF)))
    rw [hm, hnew]
    refine ⟨hc.addTail_before hhead hnF, fun y hy => ?_⟩
    simp only [mem_append, mem_cons, not_or] at hy
    have hyF : y ∉ firsts s.prio A ++ firsts s.prio B := by simp [hy]
    exact hc.addTail_before_rest hhead hyF (h.prios_rest y (hF ▸ hyF)) hy.2.1

theorem plistAdd_spec (h : Shape s l) (hs : Sorted s.prio l) (hn : n ∉ l) (hfuel : l.length < fuel) :
    ∃ s', plistAdd fuel n s = some s' ∧ Shape s' (place s.prio n l) ∧ s'.prio = s.prio := by
  rw [plistAdd]
  obtain ⟨A, B, rfl, hA, hB⟩ := hs.split (s.prio n)
  have hnodes := h.insert hn
  rw [place_append hA hB]
  cases hl : A ++ B with
  | nil =>
    obtain ⟨rfl, rfl⟩ := append_eq_nil_iff.mp hl
    rw [if_pos (h.nodes.isEmpty_iff.mpr rfl)]
    refine ⟨_, rfl, ⟨hnodes.1, hnodes.2, ?_, ?_⟩, rfl⟩
    · exact h.prios_rest n not_mem_nil
    · exact fun y _ => h.prios_rest y not_mem_nil
  | cons first rest =>
    have hfirst : s.nodeList.next none = some first := (hl ▸ h.nodes).path.1
    have hempty : ¬ s.nodeList.isEmpty none = true := by
      rw [h.nodes.isEmpty_iff, hl]
      simp
    have hF := firsts_split hA hB
    have hhead : (firsts s.prio A ++ firsts s.prio B).head? = some first := by
      rw [← hF, head?_firsts, hl]
      rfl
    obtain ⟨tail, htail⟩ := head?_eq_some_iff.mp hhead
    have hsub := (firsts_sublist s.prio A).length_le
    rw [length_append] at hfuel
    have hlen : (firsts s.prio A).length < fuel := by omega
    have hloop := addLoop_eq (hF ▸ h.prios) (nil_append _).symm hhead htail
      (fun a ha => hA a ((firsts_sublist s.prio A).subset ha))
      (fun b hb => hB b ((firsts_sublist s.prio B).subset hb)) hlen
    rw [if_neg hempty, hfirst]
    simp only [Option.bind_eq_bind, Option.bind_some, getLast?_nil] at hloop ⊢
    rw [hloop, Option.bind_some, head?_firsts, nil_append]
    have hprios := h.insertPrio hn (hs.sublist (sublist_append_left A B)) hA hB
      (by rw [hl]; rfl) rfl
    exact ⟨_, rfl, ⟨hnodes.1, hnodes.2, hprios.1, hprios.2⟩, rfl⟩

/-! ## `plist_del` -/

omit [DecidableEq N] in
theorem next_node (h : Shape s (A ++ x :: B)) : s.nodeList.next (some x) = B.head? := by
  have hc : s.nodeList.Cycle ((none :: A.map some) ++ some x :: B.map some) := by
    simpa [Links.Cycle] using h.nodes
  have hring := Links.cycle_append_cons.mp hc
  cases B with
  | nil => exact hring.path.1
  | cons y B => exact hring.path.1

theorem delPrio_spec (h : Shape s (A ++ x :: B)) (hs : Sorted s.prio (A ++ x :: B)) :
    (delPrio x s).Cycle (firsts s.prio (A ++ B)) ∧
      ∀ y ∉ firsts s.prio (A ++ B), (delPrio x s).Ring y [] := by
  rw [delPrio]
  by_cases hex : ∃ a ∈ A, s.prio a = s.prio x
  · -- the node is not the first of its priority
    have hF := firsts_insert_of_mem (D := B) hex
    have hx : x ∉ firsts s.prio (A ++ x :: B) := by
      rw [hF]
      intro hm
      have hnd := h.nodup
      rw [nodup_middle, nodup_cons] at hnd
      exact hnd.1 ((firsts_sublist s.prio (A ++ B)).subset hm)
    rw [if_pos ((h.prios_rest x hx).isEmpty_iff.mpr rfl), ← hF]
    exact ⟨h.prios, h.prios_rest⟩
  · have hA : ∀ a ∈ A, s.prio x ≠ s.prio a := fun a ha he => hex ⟨a, ha, he.symm⟩
    rw [next_node h]
    -- without another member of its priority behind it, the node just goes
    have hgoes : ∀ {G : List N}, firsts s.prio (A ++ x :: B) = firsts s.prio A ++ x :: G →
        firsts s.prio (A ++ B) = firsts s.prio A ++ G → ∀ {m : Links N},
        m = (if s.prioList.isEmpty x then s.prioList else s.prioList.delInit x) →
        m.Cycle (firsts s.prio (A ++ B)) ∧ ∀ y ∉ firsts s.prio (A ++ B), m.Ring y [] := by
      intro G hold hnew m hm
      have hc := hold ▸ h.prios
      have hrest : ∀ y ∉ firsts s.prio A ++ x :: G, s.prioList.Ring y [] := hold ▸ h.prios_rest
      rw [hnew]
      by_cases he : s.prioList.isEmpty x = true
      · obtain ⟨hP, rfl⟩ := hc.isEmpty_iff.mp he
        rw [if_pos he] at hm
        rw [hP] at hc hrest ⊢
        refine ⟨trivial, fun y _ => hm ▸ ?_⟩
        by_cases hy : y = x
        · exact hy ▸ hc
        · exact hrest y (by simpa using hy)
      · rw [if_neg he] at hm
        exact hm ▸ ⟨hc.delInit, hc.delInit_all hrest⟩
    cases B with
    | nil =>
      refine hgoes (G := []) ?_ (by simp) rfl
      rw [firsts_insert_of_notMem hA (by simp)]
      rfl
    | cons y D =>
      by_cases hy : s.prio y = s.prio x
      · -- the node behind it takes its place
        obtain ⟨G, hold, hnew, hG⟩ := firsts_replace (D := D) hA hy
        have hc := hold ▸ h.prios
        have hrest : ∀ z ∉ firsts s.prio A ++ x :: G, s.prioList.Ring z [] := hold ▸ h.prios_rest
        have hyF : y ∉ firsts s.prio A ++ x :: G := by
          have hnd := h.nodup
          simp only [nodup_append, nodup_cons, mem_cons, not_or] at hnd
          simp only [mem_append, mem_cons, not_or]
          refine ⟨fun hm => ?_, fun he => hnd.2.1.1.1 he.symm, fun hm => hG y hm hy⟩
          exact hnd.2.2 y ((firsts_sublist s.prio A).subset hm) y (.inr (.inl rfl)) rfl
        rw [hnew]
        by_cases he : s.prioList.isEmpty x = true
        · obtain ⟨hP, rfl⟩ := hc.isEmpty_iff.mp he
          rw [if_pos he]
          rw [hP] at hc hrest hyF ⊢
          refine ⟨hrest y hyF, fun z _ => ?_⟩
          by_cases hz : z = x
          · exact hz ▸ hc
          · exact hrest z (by simpa using hz)
        · rw [if_neg he]
          simp only [head?_cons, (hrest y hyF).isEmpty_iff.mpr rfl, if_true]
          have hadd := hc.add hyF
          refine ⟨hadd.delInit, hadd.delInit_all fun z hz => ?_⟩
          simp only [mem_append, mem_cons, not_or] at hz
          have hzF : z ∉ firsts s.prio A ++ x :: G := by simp [hz]
          exact hc.add_rest hzF (hrest z hzF) hz.2.2.1
      · have hsx := (pairwise_append.mp hs).2.1
        have hlt : s.prio x < s.prio y :=
          lt_of_le_of_ne ((pairwise_cons.mp hsx).1 y mem_cons_self) (Ne.symm hy)
        have hD : ∀ d ∈ y :: D, s.prio d ≠ s.prio x := by
          refine forall_mem_cons.mpr ⟨hy, fun d hd => ?_⟩
          exact (hlt.trans_le ((pairwise_cons.mp (pairwise_cons.mp hsx).2).1 d hd)).ne'
        have hyA : ∀ a ∈ A, s.prio y ≠ s.prio a := by
          intro a ha
          exact (((pairwise_append.mp hs).2.2 a ha x mem_cons_self).trans_lt hlt).ne'
        have hold := firsts_insert_of_notMem hA hD
        refine hgoes hold (firsts_append _ _ _) ?_
        have hyc : ¬ s.prioList.isEmpty y = true := by
          have hc := hold ▸ h.prios
          rw [firsts, filter_cons_of_pos (by simpa using hyA), append_cons] at hc
          rw [hc.isEmpty_iff]
          simp
        simp only [head?_cons, hyc]
        rfl

theorem plistDel_spec (h : Shape s (A ++ x :: B)) (hs : Sorted s.prio (A ++ x :: B)) :
    Shape (plistDel x s) (A ++ B) := by
  have hc : s.nodeList.Cycle ((none :: A.map some) ++ some x :: B.map some) := by
    simpa [Links.Cycle] using h.nodes
  have hprio := delPrio_spec h hs
  refine ⟨?_, fun y hy => ?_, hprio.1, hprio.2⟩
  · have hdel := hc.delInit
    simpa [Links.Cycle, plistDel] using hdel
  · by_cases hx : y = x
    · exact hx ▸ Links.ring_delInit _ _
    · simp only [mem_append, not_or] at hy
      have hyl : y ∉ A ++ x :: B := by simp [hy, hx]
      refine hc.delInit_rest ?_ (h.nodes_rest y hyl)
      simpa using hyl

/-! ## `plist_requeue` -/

omit [DecidableEq N] in
theorem requeueLoop_eq (h : Shape s (A ++ x :: (C ++ D))) (hC : ∀ c ∈ C, s.prio c = s.prio n)
    (hD : ∀ d ∈ D.head?, s.prio n ≠ s.prio d) (hfuel : C.length < fuel) :
    requeueLoop s n fuel x = some D.head? := by
  induction C generalizing A x fuel with
  | nil =>
    obtain ⟨fuel, rfl⟩ := Nat.exists_eq_succ_of_ne_zero (Nat.ne_of_gt hfuel)
    rw [requeueLoop, next_node h, nil_append]
    cases D with
    | nil => rfl
    | cons d D => exact if_pos (hD d rfl)
  | cons c C ih =>
    obtain ⟨fuel, rfl⟩ := Nat.exists_eq_succ_of_ne_zero (Nat.ne_of_gt (Nat.zero_lt_of_lt hfuel))
    obtain ⟨hc, hC⟩ := forall_mem_cons.mp hC
    rw [requeueLoop, next_node h, cons_append, head?_cons]
    change (if s.prio n ≠ s.prio c then _ else _) = _
    rw [if_neg (not_not.mpr hc.symm)]
    rw [cons_append, append_cons] at h
    exact ih h hC (Nat.lt_of_succ_lt_succ hfuel)

theorem plistRequeue_spec (h : Shape s (A ++ x :: B)) (hs : Sorted s.prio (A ++ x :: B))
    (hfuel : (A ++ x :: B).length < fuel) :
    ∃ s', plistRequeue fuel x s = some s' ∧ Shape s' (place s.prio x (A ++ B)) ∧
      s'.prio = s.prio := by
  have hc : s.nodeList.Cycle ((none :: A.map some) ++ some x :: B.map some) := by
    simpa [Links.Cycle] using h.nodes
  have hhead : ¬ s.nodeList.isEmpty none = true := by
    rw [h.nodes.isEmpty_iff]
    simp
  have hnode : ¬ s.nodeList.isEmpty (some x) = true := by
    rw [hc.isEmpty_iff]
    simp
  obtain ⟨-, hsx, hsA⟩ := pairwise_append.mp hs
  have hA : ∀ a ∈ A, s.prio a ≤ s.prio x := fun a ha => hsA a ha x mem_cons_self
  obtain ⟨hxB, hsB⟩ := pairwise_cons.mp hsx
  have hlast : s.nodeList.prev none = (none :: (A ++ x :: B).map some).getLast (by simp) :=
    h.nodes.path.prev_end
  rw [plistRequeue, if_neg hhead, if_neg hnode]
  cases B with
  | nil =>
    rw [if_pos (hlast.trans (by simp))]
    refine ⟨s, rfl, ?_, rfl⟩
    rw [place_append hA (by simp)]
    exact h
  | cons y B =>
    have hne : ¬ s.nodeList.prev none = some x := by
      rw [hlast]
      intro he
      have hmem : x ∈ y :: B := by
        have hget : some ((y :: B).getLast (cons_ne_nil _ _)) = some x := by
          rw [← he, ← getLast_map (f := some) (by simp)]
          simp
        exact Option.some.inj hget ▸ getLast_mem _
      have hnd := h.nodup
      rw [nodup_append, nodup_cons] at hnd
      exact hnd.2.1.1 hmem
    rw [if_neg hne, next_node h]
    simp only [head?_cons, Option.bind_eq_bind, Option.bind_some]
    by_cases hy : s.prio x = s.prio y
    · rw [if_neg (not_not.mpr hy)]
      have hdel := plistDel_spec h hs
      obtain ⟨C, D, rfl, hC, hD⟩ := Sorted.split (pairwise_cons.mp hsB).2 (s.prio x)
      have hCx : ∀ c ∈ C, s.prio c = s.prio x := fun c hc =>
        le_antisymm (hC c hc) (hxB c (mem_cons_of_mem _ (mem_append_left _ hc)))
      have hlen : C.length < fuel := by
        simp only [length_append, length_cons] at hfuel
        omega
      have hloop := requeueLoop_eq hdel hCx (fun d hd => (hD d (mem_of_mem_head? hd)).ne) hlen
      have heq : A ++ y :: (C ++ D) = (A ++ y :: C) ++ D := by simp
      have hxl : x ∉ (A ++ y :: C) ++ D := by
        have hnd := h.nodup
        rw [nodup_middle, nodup_cons, heq] at hnd
        exact hnd.1
      have hins := Shape.insert (heq ▸ hdel) hxl
      have hmem : ∃ a ∈ A ++ y :: C, s.prio a = s.prio x := ⟨y, by simp, hy.symm⟩
      have hF := firsts_insert_of_mem (D := D) hmem
      rw [hloop]
      refine ⟨_, rfl, ?_, rfl⟩
      rw [heq, place_append ?_ hD]
      · refine ⟨hins.1, hins.2, ?_, ?_⟩
        · exact hF ▸ heq ▸ hdel.prios
        · exact hF ▸ heq ▸ hdel.prios_rest
      · intro a ha
        rcases mem_append.mp ha with ha | ha
        · exact hA a ha
        · rcases mem_cons.mp ha with rfl | ha
          · exact hy.ge
          · exact hC a ha
    · rw [if_pos hy]
      refine ⟨s, rfl, ?_, rfl⟩
      have hlt : s.prio x < s.prio y := lt_of_le_of_ne (hxB y mem_cons_self) hy
      rw [place_append hA]
      · exact h
      · refine forall_mem_cons.mpr ⟨hlt, fun b hb => ?_⟩
        exact hlt.trans_le ((pairwise_cons.mp hsB).1 b hb)

omit [DecidableEq N] in
theorem Shape.eq (h : Shape s l) (h' : Shape s' l) (hp : s'.prio = s.prio) : s' = s := by
  have hnode : ∀ y, s'.nodeList.next y = s.nodeList.next y ∧
      s'.nodeList.prev y = s.nodeList.prev y := by
    intro y
    by_cases hy : y ∈ none :: l.map some
    · exact h.nodes.eq h'.nodes hy
    · cases y with
      | none => exact absurd mem_cons_self hy
      | some n =>
        have hn : n ∉ l := by simpa using hy
        exact (h.nodes_rest n hn).eq (h'.nodes_rest n hn) mem_cons_self
  have hprio : ∀ y, s'.prioList.next y = s.prioList.next y ∧
      s'.prioList.prev y = s.prioList.prev y := by
    intro y
    have hc' := hp ▸ h'.prios
    by_cases hy : y ∈ firsts s.prio l
    · have hc := h.prios
      cases hF : firsts s.prio l with
      | nil => simp [hF] at hy
      | cons a F =>
        rw [hF] at hc hc' hy
        exact Links.Ring.eq hc hc' hy
    · exact (h.prios_rest y hy).eq (h'.prios_rest y (hp ▸ hy)) mem_cons_self
  refine PlistHead.ext hp (Links.ext ?_ ?_) (Links.ext ?_ ?_)
  · exact funext fun y => (hnode y).1
  · exact funext fun y => (hnode y).2
  · exact funext fun y => (hprio y).1
  · exact funext fun y => (hprio y).2

/-! ## Runs -/

omit [DecidableEq N] in
theorem firsts_congr {prio' : N → ℤ} (h : ∀ a ∈ l, prio' a = prio a) :
    firsts prio' l = firsts prio l := by
  induction l with
  | nil => rfl
  | cons a l ih =>
    obtain ⟨ha, hl⟩ := forall_mem_cons.mp h
    rw [firsts, firsts, ih hl]
    refine congrArg _ (filter_congr fun b hb => ?_)
    rw [ha, hl b ((firsts_sublist prio l).subset hb)]

def Before (prio : N → ℤ) (since : N → Option ℕ) (a b : N) : Prop :=
  prio a < prio b ∨ prio a = prio b ∧ since a < since b

/-- The list has exactly the members, in order. -/
structure Members (s : Sys N) (l : List N) : Prop where
  shape : Shape s.plist l
  mem_iff : ∀ n, n ∈ l ↔ (s.since n).isSome
  order : l.Pairwise (Before s.plist.prio s.since)
  past : ∀ n, s.since n < some s.clock

omit [DecidableEq N] in
theorem Members.sorted {s : Sys N} (h : Members s l) : Sorted s.plist.prio l :=
  h.order.imp fun hab => hab.elim le_of_lt fun he => he.1.le

theorem order_place {since : N → Option ℕ} {t : ℕ} (hl : l.Pairwise (Before prio since))
    (hn : n ∉ l) (ht : ∀ a, since a < some t) :
    (place prio n l).Pairwise (Before prio (update since n (some t))) := by
  have hs : Sorted prio l := hl.imp fun hab => hab.elim le_of_lt fun he => he.1.le
  have hne : ∀ a ∈ l, update since n (some t) a = since a := fun a ha =>
    update_of_ne (fun he : a = n => hn (he ▸ ha)) _ _
  have hl' : l.Pairwise (Before prio (update since n (some t))) := by
    refine hl.imp_of_mem fun ha hb hab => ?_
    rwa [Before, hne _ ha, hne _ hb]
  obtain ⟨A, B, rfl, hA, hB⟩ := hs.split (prio n)
  obtain ⟨h₁, h₂, h₃⟩ := pairwise_append.mp hl'
  rw [place_append hA hB, pairwise_append, pairwise_cons]
  refine ⟨h₁, ⟨fun b hb => .inl (hB b hb), h₂⟩, fun a ha b hb => ?_⟩
  obtain rfl | hb := mem_cons.mp hb
  · rcases (hA a ha).lt_or_eq with hlt | heq
    · exact .inl hlt
    · refine .inr ⟨heq, ?_⟩
      rw [update_self, hne a (mem_append_left _ ha)]
      exact ht a
  · exact h₃ a ha b hb

/-! More fuel does not change a result. -/

theorem addLoop_mono {first iter : N} {prev : Option N} {r : Option N × Option N × N} {fuel' : ℕ}
    (h : addLoop s n first fuel iter prev = some r) (hle : fuel ≤ fuel') :
    addLoop s n first fuel' iter prev = some r := by
  induction fuel generalizing iter prev fuel' with
  | zero => cases h
  | succ fuel ih =>
    obtain ⟨k, rfl⟩ : ∃ k, fuel' = k + 1 := ⟨fuel' - 1, by omega⟩
    rw [addLoop] at h ⊢
    split_ifs at h ⊢
    · exact h
    · exact h
    · exact ih h (by omega)

omit [DecidableEq N] in
theorem requeueLoop_mono {r : Option N} {fuel' : ℕ} (h : requeueLoop s n fuel x = some r)
    (hle : fuel ≤ fuel') : requeueLoop s n fuel' x = some r := by
  induction fuel generalizing x fuel' with
  | zero => cases h
  | succ fuel ih =>
    obtain ⟨k, rfl⟩ : ∃ k, fuel' = k + 1 := ⟨fuel' - 1, by omega⟩
    rw [requeueLoop] at h ⊢
    cases hnext : s.nodeList.next (some x) with
    | none => simpa [hnext] using h
    | some y =>
      simp only [hnext] at h ⊢
      split_ifs at h ⊢
      · exact h
      · exact ih h (by omega)

theorem plistAdd_mono {fuel' : ℕ} (h : plistAdd fuel n s = some s') (hle : fuel ≤ fuel') :
    plistAdd fuel' n s = some s' := by
  rw [plistAdd] at h ⊢
  split_ifs at h ⊢
  · exact h
  · obtain ⟨first, hfirst, h⟩ := Option.bind_eq_some_iff.mp h
    obtain ⟨r, hr, h⟩ := Option.bind_eq_some_iff.mp h
    exact Option.bind_eq_some_iff.mpr ⟨first, hfirst,
      Option.bind_eq_some_iff.mpr ⟨r, addLoop_mono hr hle, h⟩⟩

theorem plistRequeue_mono {fuel' : ℕ} (h : plistRequeue fuel n s = some s') (hle : fuel ≤ fuel') :
    plistRequeue fuel' n s = some s' := by
  rw [plistRequeue] at h ⊢
  split_ifs at h ⊢
  · exact h
  · obtain ⟨iter, hiter, h⟩ := Option.bind_eq_some_iff.mp h
    refine Option.bind_eq_some_iff.mpr ⟨iter, hiter, ?_⟩
    split_ifs at h ⊢
    · exact h
    · obtain ⟨r, hr, h⟩ := Option.bind_eq_some_iff.mp h
      exact Option.bind_eq_some_iff.mpr ⟨r, requeueLoop_mono hr hle, h⟩

theorem exec_mono {op : Op N} {fuel' : ℕ} (h : exec fuel s op = some s') (hle : fuel ≤ fuel') :
    exec fuel' s op = some s' := by
  cases op with
  | add node prio => exact plistAdd_mono h hle
  | del node => exact h
  | requeue node => exact plistRequeue_mono h hle

omit [DecidableEq N] in
theorem Members.mem {s : Sys N} (h : Members s l) (hx : (s.since x).isSome) :
    ∃ A B, l = A ++ x :: B ∧ x ∉ A ++ B := by
  obtain ⟨A, B, rfl⟩ := append_of_mem ((h.mem_iff x).mpr hx)
  refine ⟨A, B, rfl, ?_⟩
  have hnd := h.shape.nodup
  rw [nodup_middle, nodup_cons] at hnd
  exact hnd.1

theorem past_update {since : N → Option ℕ} {t : ℕ} (h : ∀ a, since a < some t) {v : Option ℕ}
    (hv : v < some (t + 1)) (a : N) : update since n v a < some (t + 1) := by
  by_cases ha : a = n
  · rwa [ha, update_self]
  · rw [update_of_ne ha]
    have hlt := h a
    cases hs : since a with
    | none => exact Option.none_lt_some
    | some u =>
      rw [hs, Option.some_lt_some] at hlt
      exact Option.some_lt_some.mpr (hlt.trans (Nat.lt_succ_self t))

theorem mem_place_iff {since : N → Option ℕ} {t : ℕ} (hl : ∀ a ≠ n, a ∈ l ↔ (since a).isSome) (a : N) :
    a ∈ place prio n l ↔ (update since n (some t) a).isSome := by
  rw [place, mem_orderedInsert]
  by_cases ha : a = n
  · simp [ha]
  · rw [update_of_ne ha, or_iff_right ha, hl a ha]

theorem exec_spec {s : Sys N} {op : Op N} (h : Members s l) (hop : allowed s op) :
    ∃ p l', (∀ fuel > l.length, exec fuel s.plist op = some p) ∧
      Members ⟨p, update s.since op.node (op.since s.clock), s.clock + 1⟩ l' := by
  have hclock : some s.clock < some (s.clock + 1) := Option.some_lt_some.mpr (Nat.lt_succ_self _)
  cases op with
  | add n v =>
    have hn : n ∉ l := by
      rw [h.mem_iff, hop]
      simp
    set s₁ : PlistHead N := { s.plist with prio := update s.plist.prio n v } with hs₁
    have hprio : ∀ a ∈ l, s₁.prio a = s.plist.prio a := fun a ha =>
      update_of_ne (fun he : a = n => hn (he ▸ ha)) _ _
    have hF := firsts_congr hprio
    have hshape : Shape s₁ l :=
      ⟨h.shape.nodes, h.shape.nodes_rest, hF ▸ h.shape.prios, hF ▸ h.shape.prios_rest⟩
    have horder : l.Pairwise (Before s₁.prio s.since) := by
      refine h.order.imp_of_mem fun ha hb hab => ?_
      rwa [Before, hprio _ ha, hprio _ hb]
    have hsorted : Sorted s₁.prio l := horder.imp fun hab => hab.elim le_of_lt fun he => he.1.le
    obtain ⟨p, hp, hshape', hprio'⟩ := plistAdd_spec hshape hsorted hn (Nat.lt_succ_self _)
    refine ⟨p, place s₁.prio n l, fun fuel hf => plistAdd_mono hp hf, hshape', ?_, ?_, ?_⟩
    · exact mem_place_iff fun a _ => h.mem_iff a
    · rw [hprio']
      exact order_place horder hn h.past
    · exact past_update h.past hclock
  | del x =>
    obtain ⟨A, B, rfl, hx⟩ := h.mem hop
    have hsub : (A ++ B).Sublist (A ++ x :: B) := (sublist_cons_self x B).append_left A
    refine ⟨_, A ++ B, fun _ _ => rfl, plistDel_spec h.shape h.sorted, fun a => ?_, ?_, ?_⟩
    · by_cases ha : a = x
      · simp [ha, hx, Op.node, Op.since]
      · have hmem := h.mem_iff a
        simp only [mem_append, mem_cons, ha, false_or] at hmem
        simp only [Op.node, update_of_ne ha, mem_append, hmem]
    · refine (h.order.sublist hsub).imp_of_mem fun {a b} ha hb hab => ?_
      have hne : ∀ c ∈ A ++ B, c ≠ x := fun c hc he => hx (he ▸ hc)
      simpa only [Before, plistDel, Op.node, update_of_ne (hne a ha),
        update_of_ne (hne b hb)] using hab
    · exact past_update h.past Option.none_lt_some
  | requeue x =>
    obtain ⟨A, B, rfl, hx⟩ := h.mem hop
    have hsub : (A ++ B).Sublist (A ++ x :: B) := (sublist_cons_self x B).append_left A
    obtain ⟨p, hp, hshape, hprio⟩ := plistRequeue_spec h.shape h.sorted (Nat.lt_succ_self _)
    refine ⟨p, _, fun fuel hf => plistRequeue_mono hp hf, hshape, ?_, ?_, ?_⟩
    · refine mem_place_iff fun a ha => ?_
      rw [← h.mem_iff a]
      simp [ha]
    · rw [hprio]
      exact order_place (h.order.sublist hsub) hx h.past
    · exact past_update h.past hclock

omit [DecidableEq N] in
theorem members_init (prio : N → ℤ) : Members (Sys.init prio) [] where
  shape := by
    have hid : ∀ {α : Type _} (a : α), (⟨id, id⟩ : Links α).Ring a [] := fun a =>
      ⟨nodup_singleton a, rfl, rfl⟩
    exact ⟨hid none, fun n _ => hid (some n), trivial, fun n _ => hid n⟩
  mem_iff n := by simp [Sys.init]
  order := Pairwise.nil
  past n := Option.none_lt_some

/-- After every sequence of calls the list has exactly the members, sorted by priority and within
one by when they came, and requeueing is deleting and adding. -/
theorem members_of_reach {s : Sys N}
    (h : Reach step (fun s i => allowed s i.1) (Sys.init prio) s) :
    (∃ l, Members s l) ∧
    (∀ op, allowed s op → ∃ k p, ∀ fuel ≥ k, exec fuel s.plist op = some p) ∧
    ∀ node, (s.since node).isSome → ∃ k p, ∀ fuel ≥ k,
      plistRequeue fuel node s.plist = some p ∧
        plistAdd fuel node (plistDel node s.plist) = some p := by
  have hinv : ∃ l, Members s l := by
    refine h.invariant (P := fun s => ∃ l, Members s l) ⟨[], members_init prio⟩ ?_
    rintro s s' ⟨op, fuel⟩ ⟨l, hl⟩ hop hstep
    obtain ⟨p, l', hp, hl'⟩ := exec_spec hl hop
    obtain ⟨p', hp', rfl⟩ := Option.map_eq_some_iff.mp hstep
    have heq : p' = p := by
      have h₁ := exec_mono hp' (le_max_left fuel (l.length + 1))
      have h₂ := hp (max fuel (l.length + 1)) (Nat.le_max_right fuel (l.length + 1))
      exact Option.some.inj (h₁.symm.trans h₂)
    exact ⟨l', heq ▸ hl'⟩
  obtain ⟨l, hl⟩ := hinv
  refine ⟨⟨l, hl⟩, fun op hop => ?_, fun x hx => ?_⟩
  · obtain ⟨p, -, hp, -⟩ := exec_spec hl hop
    exact ⟨l.length + 1, p, hp⟩
  · obtain ⟨A, B, rfl, hxl⟩ := hl.mem hx
    have hsub : (A ++ B).Sublist (A ++ x :: B) := (sublist_cons_self x B).append_left A
    obtain ⟨p, hp, hshape, hprio⟩ := plistRequeue_spec hl.shape hl.sorted (Nat.lt_succ_self _)
    have hdel := plistDel_spec hl.shape hl.sorted
    obtain ⟨p', hp', hshape', hprio'⟩ := plistAdd_spec hdel (hl.sorted.sublist hsub) hxl
      (Nat.lt_succ_self _)
    have heq : p' = p := hshape.eq hshape' (hprio'.trans hprio.symm)
    have hlen := hsub.length_le
    refine ⟨(A ++ x :: B).length + 1, p, fun fuel hf => ⟨plistRequeue_mono hp hf, ?_⟩⟩
    exact heq ▸ plistAdd_mono hp' (by omega)

theorem members_requeued :
    ∃ s : Sys ℕ, Reach step (fun s i => allowed s i.1) (Sys.init fun _ => 0) s ∧
      s.since 0 = some 2 ∧ s.since 1 = some 1 ∧ (∃ l, Members s l) ∧
      s.plist.nodeList.next none = some 1 := by
  have hrun : ∃ s : Sys ℕ, Reach step (fun s i => allowed s i.1) (Sys.init fun _ => 0) s ∧
      s.since 0 = some 2 ∧ s.since 1 = some 1 ∧ s.plist.nodeList.next none = some 1 := by
    refine ⟨_, .step (i := (.requeue 0, 2)) (.step (i := (.add 1 5, 2)) (.step (i := (.add 0 5, 2))
      .init rfl rfl) rfl rfl) rfl rfl, rfl, rfl, rfl⟩
  obtain ⟨s, hreach, h0, h1, hnext⟩ := hrun
  exact ⟨s, hreach, h0, h1, (members_of_reach hreach).1, hnext⟩

end Cupcake.Plist
