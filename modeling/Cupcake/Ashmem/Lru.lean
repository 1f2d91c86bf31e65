import Cupcake.Ashmem.Ranges
import Mathlib.Algebra.BigOperators.Group.List.Basic

/-! The LRU list and its page count follow the ranges of all areas. -/

namespace Cupcake.Ashmem

open List

variable {ok : Bool} {s e : ℕ} {rs rs' R R' : List Range} {r : Range} {p p' : Pool}

/-- The LRU list holds the ranges of `R` that are not purged, and `lru_count` counts their pages. -/
structure Tracks (p : Pool) (R : List Range) : Prop where
  perm : p.lru.Perm ((R.filter (·.onLru)).map (·.id))
  count : p.lruCount = ((R.filter (·.onLru)).map (·.size)).sum % 2 ^ 64
  nodup : (R.map (·.id)).Nodup
  fresh : ∀ r ∈ R, r.id < p.nextId

theorem Tracks.of_perm (h : Tracks p R) (hR : R.Perm R') : Tracks p R' where
  perm := h.perm.trans ((hR.filter _).map _)
  count := by rw [h.count, ((hR.filter _).map _).sum_eq]
  nodup := (hR.map _).nodup_iff.mp h.nodup
  fresh := fun r hr => h.fresh r (hR.mem_iff.mpr hr)

theorem Range.size_lt (r : Range) : r.size < 2 ^ 64 := Nat.mod_lt _ (by decide)

theorem Tracks.tail (h : Tracks p (r :: R)) (hr : r.onLru = false) : Tracks p R where
  perm := by simpa [filter_cons, hr] using h.perm
  count := by simpa [filter_cons, hr] using h.count
  nodup := (nodup_cons.mp h.nodup).2
  fresh := fun x hx => h.fresh x (by simp [hx])

theorem Tracks.lruDel (h : Tracks p (r :: R)) (hr : r.onLru = true) : Tracks (lruDel p r) R where
  perm := by
    have hp := h.perm
    simp only [filter_cons, hr, if_true, map_cons] at hp
    exact (hp.erase r.id).trans (by rw [erase_cons_head])
  count := by
    have hc := h.count
    simp only [filter_cons, hr, if_true, map_cons, sum_cons] at hc
    simp only [Ashmem.lruDel, hc, wsub_mod_add r.size_lt]
  nodup := (nodup_cons.mp h.nodup).2
  fresh := fun x hx => h.fresh x (by simp [hx])

theorem Tracks.rangeDel (h : Tracks p (r :: R)) : Tracks (rangeDel p r) R := by
  unfold Ashmem.rangeDel
  split_ifs with hr
  · exact h.lruDel hr
  · exact h.tail (by simpa using hr)

theorem Tracks.rangeShrink (h : Tracks p (r :: R)) (s e : ℕ) :
    Tracks (rangeShrink p r s e).2 ((rangeShrink p r s e).1 :: R) := by
  have hp := h.perm
  have hc := h.count
  have hn := h.nodup
  have hf := h.fresh
  by_cases hr : r.onLru
  · have hr' : (Ashmem.rangeShrink p r s e).1.onLru = true := hr
    have hs := (Ashmem.rangeShrink p r s e).1.size_lt
    simp only [filter_cons, hr, if_true, map_cons, sum_cons] at hp hc
    refine ⟨?_, ?_, ?_, ?_⟩
    · simp only [filter_cons, hr', if_true, map_cons]
      simpa [Ashmem.rangeShrink, hr] using hp
    · simp only [filter_cons, hr', if_true, map_cons, sum_cons]
      simp only [Ashmem.rangeShrink, hr, if_true, hc] at hs ⊢
      exact wsub_wsub hs
    · simpa [Ashmem.rangeShrink] using hn
    · simpa [Ashmem.rangeShrink, hr] using hf
  · have hr' : ¬ (Ashmem.rangeShrink p r s e).1.onLru = true := hr
    simp only [filter_cons, hr, Bool.false_eq_true, if_false] at hp hc
    refine ⟨?_, ?_, ?_, ?_⟩
    · simp only [filter_cons, hr', Bool.false_eq_true, if_false]
      simpa [Ashmem.rangeShrink, hr] using hp
    · simp only [filter_cons, hr', Bool.false_eq_true, if_false]
      simpa [Ashmem.rangeShrink, hr] using hc
    · simpa [Ashmem.rangeShrink] using hn
    · simpa [Ashmem.rangeShrink, hr] using hf

theorem Tracks.cons_fresh (h : Tracks p R) (hid : r.id = p.nextId) :
    ((r :: R).map (·.id)).Nodup ∧ ∀ x ∈ r :: R, x.id < p.nextId + 1 := by
  refine ⟨nodup_cons.mpr ⟨?_, h.nodup⟩, ?_⟩
  · intro hmem
    obtain ⟨x, hx, hxid : x.id = r.id⟩ := mem_map.mp hmem
    have := h.fresh x hx
    omega
  · intro x hx
    rcases mem_cons.mp hx with rfl | hx
    · omega
    · exact Nat.lt_succ_of_lt (h.fresh x hx)

theorem Tracks.rangeAlloc {purged : Bool} (h : Tracks p R)
    (ha : rangeAlloc ok p purged s e = some (r, p')) : Tracks p' (r :: R) := by
  have hr := rangeAlloc_eq_some ha
  obtain ⟨hnodup, hfresh⟩ := h.cons_fresh (r := r) (by rw [hr])
  rw [Ashmem.rangeAlloc, ite_eq_iff] at ha
  simp only [Option.some.injEq, Prod.mk.injEq, reduceCtorEq, and_false, or_false, ← hr] at ha
  obtain ⟨-, -, rfl⟩ := ha
  by_cases hon : r.onLru
  · simp only [hon, if_true]
    refine ⟨?_, ?_, hnodup, hfresh⟩
    · simp only [filter_cons, hon, if_true, map_cons, Ashmem.lruAdd]
      exact (h.perm.append_right _).trans (perm_append_singleton ..)
    · simp only [filter_cons, hon, if_true, map_cons, sum_cons, Ashmem.lruAdd,
        h.count, wadd_mod, add_comm r.size]
  · simp only [hon, Bool.false_eq_true, if_false]
    refine ⟨?_, ?_, hnodup, hfresh⟩
    · simpa [filter_cons, hon] using h.perm
    · simpa [filter_cons, hon] using h.count

theorem Cut.tracks {ps : List Range} {hit : Bool} (hc : Cut ok s e r p ps hit p')
    (h : Tracks p (r :: R)) : Tracks p' (ps ++ R) := by
  cases hc with
  | nuke => exact h.rangeDel
  | front => exact h.rangeShrink _ _
  | rear => exact h.rangeShrink _ _
  | splitFail => exact h.rangeShrink _ _
  | skip => exact h
  | split h₁ h₂ ha =>
    have h' := (h.rangeAlloc ha).of_perm (.swap ..)
    exact (h'.rangeShrink _ _).of_perm (.swap ..)

theorem PinRun.tracks {ret : Bool} (hrun : PinRun ok s e rs p rs' ret p') (h : Tracks p (rs ++ R)) :
    Tracks p' (rs' ++ R) := by
  induction hrun generalizing R with
  | nil => exact h
  | stop => exact h
  | last _ _ hc =>
    rw [append_assoc]
    exact hc.tracks h
  | more _ hc _ ih =>
    -- the pieces join the ranges the rest of the walk does not see
    have h₁ := (hc.tracks h).of_perm (perm_append_comm_assoc ..)
    exact (ih h₁).of_perm ((perm_append_comm_assoc ..).trans (by rw [append_assoc]))

theorem UnpinRun.tracks {purged : Bool} {ret : Int}
    (hrun : UnpinRun ok s e purged rs p rs' ret p') (h : Tracks p (rs ++ R)) :
    Tracks p' (rs' ++ R) := by
  induction hrun with
  | fail => exact h
  | covered => exact h
  | insert _ _ ha =>
    refine (h.rangeAlloc ha).of_perm ?_
    rw [append_assoc, append_assoc, cons_append]
    exact perm_middle.symm
  | merge _ _ _ _ ih =>
    refine ih (Tracks.rangeDel (h.of_perm ?_))
    rw [append_assoc, append_assoc, cons_append]
    exact perm_middle

end Cupcake.Ashmem
