import Cupcake.Ashmem.Invariant

/-! What a failed `range_alloc` does: `ashmem_unpin` has already deleted the ranges it absorbs, and
`ashmem_pin` drops the upper half of a range it splits. -/

namespace Cupcake.Ashmem

open List

variable {s e fuel : ℕ} {rs rs' : List Range} {r : Range} {p p' : Pool} {ret : Bool}

structure Failed (s e : ℕ) (rs rs' : List Range) : Prop where
  not_covered : ∀ r ∈ rs, ¬ r.subsumedByRange s e
  sub : rs'.Sublist rs
  lost : ∀ r ∈ rs, r.pgstart ≤ r.pgend → r.pageRangeInRange s e → ∀ c, ¬ Covers rs' r.pgstart c
  kept : (∀ r ∈ rs, r.pageRangeInRange s e → r.pgend < r.pgstart) →
    ∀ x c, Covers rs x c → Covers rs' x c

theorem Failed.insert {pre post : List Range} (hse : s ≤ e) (hs : Sorted (pre ++ post))
    (hpre : ∀ x ∈ pre, s ≤ x.pgend ∧ ¬ x.pageRangeInRange s e)
    (hpost : ∀ x ∈ post.head?, x.pgend < s) : Failed s e (pre ++ post) (pre ++ post) := by
  have hpost : ∀ x ∈ post, x.pgend < s := by
    cases post with
    | nil => simp
    | cons y ys =>
      obtain ⟨hlt, hwf, -⟩ := sorted_cons.mp (hs.sublist (sublist_append_right ..))
      have hy : y.pgend < s := hpost y rfl
      exact forall_mem_cons.mpr ⟨hy, fun x hx => by have := hlt x hx; omega⟩
  have hout : ∀ r ∈ pre ++ post, r.pgstart ≤ r.pgend → ¬ r.pageRangeInRange s e := by
    intro r hr hne
    rcases mem_append.mp hr with hr | hr
    · exact (hpre r hr).2
    · have := hpost r hr
      simp only [Range.pageRangeInRange, Range.pageInRange, Range.subsumesRange]
      omega
  refine ⟨fun r hr hcov => ?_, .refl _, fun r hr hne hin => absurd hin (hout r hr hne),
    fun _ _ _ h => h⟩
  have hcov : r.pgstart ≤ s ∧ e ≤ r.pgend := hcov
  exact hout r hr (by omega) (.inl ⟨by omega, by omega⟩)

theorem Failed.merge {pre post : List Range} (hs : Sorted (pre ++ r :: post)) (hse : s ≤ e)
    (hn : s ≤ r.pgend) (hin : r.pageRangeInRange s e) (hout : ¬ r.subsumedByRange s e)
    (h : Failed (min r.pgstart s) (max r.pgend e) (pre ++ post) rs') :
    Failed s e (pre ++ r :: post) rs' := by
  have hsub : (pre ++ post).Sublist (pre ++ r :: post) := by simp
  have hwf := hs.wf r (by simp)
  obtain ⟨-, hpost, hpre⟩ := pairwise_append.mp hs.desc
  have hapart : ∀ y ∈ pre ++ post, r.pgend < y.pgstart ∨ y.pgend < r.pgstart := by
    intro y hy
    rcases mem_append.mp hy with hy | hy
    · exact .inl (hpre y hy r (by simp))
    · exact .inr ((pairwise_cons.mp hpost).1 y hy)
  simp only [Range.pageRangeInRange, Range.pageInRange, Range.subsumesRange] at hin
  have hmem : ∀ y, y ∈ pre ++ r :: post ↔ y = r ∨ y ∈ pre ++ post := by
    intro y
    simp only [mem_append, mem_cons]
    tauto
  refine ⟨fun y hy hcov => ?_, h.sub.trans hsub, fun y hy hne hy' c => ?_, fun hempty x c hx => ?_⟩
  · obtain rfl | hy := (hmem y).mp hy
    · exact hout hcov
    · -- a range over the request does not meet `r`, so `r` is empty and adds nothing
      have := hapart y hy
      have hcov : y.pgstart ≤ s ∧ e ≤ y.pgend := hcov
      exact h.not_covered y hy ⟨by omega, by omega⟩
  · obtain rfl | hy := (hmem y).mp hy
    · rintro ⟨z, hz, -, hzy⟩
      have := hapart z (h.sub.subset hz)
      omega
    · refine h.lost y hy hne ?_ c
      simp only [Range.pageRangeInRange, Range.pageInRange, Range.subsumesRange] at hy' ⊢
      omega
  · have hr := hempty r (by simp) hin
    have hhull : min r.pgstart s = s ∧ max r.pgend e = e := by omega
    rw [hhull.1, hhull.2] at h
    refine h.kept (fun y hy => hempty y (hsub.subset hy)) x c ?_
    rw [covers_append, covers_cons] at hx
    rw [covers_append]
    exact hx.imp_right fun hx => hx.resolve_left (by omega)

end Cupcake.Ashmem
