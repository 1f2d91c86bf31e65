import Cupcake.Binder.Alloc.Tiling

/-! What `binder_update_page_range` does to the page map, and which pages the callers
ask it for. -/

namespace Cupcake.Binder.Alloc

open Option Function

variable {m : Mapping} {pages pages' : PageMap} {i k j start last x : ℕ} {env : PageEnv}

def Mapping.page (m : Mapping) (j : ℕ) : ℕ := m.buffer + j * pageSize

def Mapping.stop (m : Mapping) : ℕ := m.buffer + m.bufferSize

theorem Mapping.page_aligned (m : Mapping) (j : ℕ) : m.page j % pageSize = 0 := by
  have := m.buffer_aligned
  unfold Mapping.page pageSize at *
  omega

theorem Mapping.stop_aligned (m : Mapping) : m.stop % pageSize = 0 := by
  have := m.buffer_aligned
  have := m.bufferSize_aligned
  unfold Mapping.stop pageSize at *
  omega

theorem freePages_spec (pages : PageMap) (hlim : i + k ≤ m.bufferSize / pageSize)
    (hp : ∀ j, i ≤ j → j < i + k → pages j = true) :
    ∃ pages', freePages m i k pages = .ok pages' ∧
      ∀ j, pages' j = true ↔ pages j = true ∧ ¬ (i ≤ j ∧ j < i + k) := by
  induction k generalizing pages with
  | zero => exact ⟨pages, rfl, fun j => ⟨fun h => ⟨h, by omega⟩, fun h => h.1⟩⟩
  | succ k ih =>
    have hk : pages (i + k) = true := hp _ (by omega) (by omega)
    obtain ⟨pages', heq, hspec⟩ := ih (update pages (i + k) false) (by omega) (by
      intro j h₁ h₂
      rw [update_of_ne (by omega)]
      exact hp j h₁ (by omega))
    refine ⟨pages', ?_, ?_⟩
    · rw [freePages, bugOn, if_neg (by omega), bugOn, if_neg (by simp [hk])]
      exact heq
    · intro j
      rw [hspec]
      by_cases hj : j = i + k
      · subst hj
        simp
      · rw [update_of_ne hj]
        refine and_congr_right fun _ => ?_
        omega

theorem allocPages_spec (fail : Option ℕ) (pages : PageMap) (hlim : i + k ≤ m.bufferSize / pageSize)
    (hp : ∀ j, i ≤ j → j < i + k → pages j = false) :
    ∃ pages' o, allocPages m fail k i pages = .ok (pages', o) ∧
      (∀ e ∈ o, i ≤ e ∧ e < i + k) ∧
      ∀ j, pages' j = true ↔ pages j = true ∨ (i ≤ j ∧ j < o.getD (i + k)) := by
  induction k generalizing i pages with
  | zero => exact ⟨pages, none, rfl, by simp, fun j => ⟨.inl, fun h => h.elim id (by simp)⟩⟩
  | succ k ih =>
    have hi : pages i = false := hp i le_rfl (by omega)
    rw [allocPages, bugOn, if_neg (by omega), bugOn, if_neg (by simp [hi])]
    by_cases hf : fail = some i
    · refine ⟨pages, some i, by simp [hf], by simp, fun j => ?_⟩
      simp only [getD_some]
      exact ⟨.inl, fun h => h.elim id (by omega)⟩
    · obtain ⟨pages', o, heq, ho, hspec⟩ := ih (i := i + 1)
        (update pages i true) (by omega) (by
          intro j h₁ h₂
          rw [update_of_ne (by omega)]
          exact hp j (by omega) (by omega))
      refine ⟨pages', o, by simp only [hf, if_false]; exact heq, ?_, ?_⟩
      · intro e he
        have := ho e he
        omega
      · intro j
        have hend : i < o.getD (i + (k + 1)) := by
          cases o with
          | none => simp
          | some e =>
            have := ho e rfl
            simp only [getD_some]
            omega
        rw [hspec, show i + 1 + k = i + (k + 1) by omega]
        by_cases hj : j = i
        · subst hj
          simp [hend]
        · rw [update_of_ne hj]
          refine or_congr_right ?_
          omega

section

variable (hs : start % pageSize = 0) (hl : last % pageSize = 0) (hlo : m.buffer ≤ start)
  (hlt : start < last)

include hs hl hlo hlt

theorem page_range_iff :
    (start ≤ m.page j ∧ m.page j < last) ↔
      ((start - m.buffer) / pageSize ≤ j ∧
        j < (start - m.buffer) / pageSize + (last - start) / pageSize) := by
  have := m.buffer_aligned
  unfold Mapping.page pageSize at *
  omega

theorem page_range_le (hhi : last ≤ m.stop) :
    (start - m.buffer) / pageSize + (last - start) / pageSize ≤ m.bufferSize / pageSize := by
  have := m.buffer_aligned
  have := m.bufferSize_aligned
  unfold Mapping.stop pageSize at *
  omega

end

theorem update_free_spec (pages : PageMap) (start last : ℕ) (env : PageEnv)
    (hs : start % pageSize = 0) (hl : last % pageSize = 0)
    (hlo : m.buffer ≤ start) (hhi : last ≤ m.stop)
    (hp : ∀ j, start ≤ m.page j → m.page j < last → pages j = true) :
    ∃ pages' r, binderUpdatePageRange m pages false start last env = .ok (pages', r) ∧
      ∀ j, pages' j = true ↔ pages j = true ∧ ¬ (start ≤ m.page j ∧ m.page j < last) := by
  unfold binderUpdatePageRange
  by_cases hle : last ≤ start
  · exact ⟨pages, true, by simp [hle], fun j => ⟨fun h => ⟨h, by omega⟩, fun h => h.1⟩⟩
  · have hidx := fun j => page_range_iff (j := j) hs hl hlo (not_le.mp hle)
    obtain ⟨pages', heq, hspec⟩ := freePages_spec (m := m) pages
      (page_range_le hs hl hlo (not_le.mp hle) hhi)
      fun j h₁ h₂ => hp j ((hidx j).mpr ⟨h₁, h₂⟩).1 ((hidx j).mpr ⟨h₁, h₂⟩).2
    refine ⟨pages', false, ?_, fun j => by rw [hspec, hidx]⟩
    simp only [hle, if_false, Bool.false_eq_true, heq]
    rfl

theorem update_alloc_spec (pages : PageMap) (start last : ℕ) (env : PageEnv)
    (hs : start % pageSize = 0) (hl : last % pageSize = 0)
    (hlo : m.buffer ≤ start) (hhi : last ≤ m.stop)
    (hp : ∀ j, start ≤ m.page j → m.page j < last → pages j = false) :
    (∃ pages', binderUpdatePageRange m pages true start last env = .ok (pages', true) ∧
      ∀ j, pages' j = true ↔ pages j = true ∨ (start ≤ m.page j ∧ m.page j < last)) ∨
    binderUpdatePageRange m pages true start last env = .ok (pages, false) := by
  unfold binderUpdatePageRange
  by_cases hle : last ≤ start
  · exact .inl ⟨pages, by simp [hle], fun j => ⟨.inl, fun h => h.elim id (by omega)⟩⟩
  by_cases hmm : env.mm = false
  · exact .inr (by simp [hle, hmm])
  have hidx := fun j => page_range_iff (j := j) hs hl hlo (not_le.mp hle)
  have hlim := page_range_le hs hl hlo (not_le.mp hle) hhi
  generalize (start - m.buffer) / pageSize = i at *
  generalize (last - start) / pageSize = k at *
  have hp' : ∀ j, i ≤ j → j < i + k → pages j = false :=
    fun j h₁ h₂ => hp j ((hidx j).mpr ⟨h₁, h₂⟩).1 ((hidx j).mpr ⟨h₁, h₂⟩).2
  obtain ⟨pages', o, heq, ho, hspec⟩ := allocPages_spec env.fail pages hlim hp'
  simp only [hle, hmm, if_false, if_true, heq]
  cases o with
  | none => exact .inl ⟨pages', rfl, fun j => by rw [hspec, hidx, getD_none]⟩
  | some e =>
    obtain ⟨h₁, h₂⟩ := ho e rfl
    obtain ⟨pages₂, heq₂, hspec₂⟩ := freePages_spec (m := m) (i := i) (k := e - i) pages'
      (by omega) fun j h₃ h₄ => (hspec j).mpr (.inr ⟨h₃, by simp only [getD_some]; omega⟩)
    -- the rollback leaves exactly the old pages
    obtain rfl : pages₂ = pages := by
      funext j
      rw [Bool.eq_iff_iff, hspec₂, hspec, getD_some]
      by_cases hj : i ≤ j ∧ j < e
      · have := hp' j hj.1 (by omega)
        simp only [this, Bool.false_eq_true, false_or, iff_false]
        omega
      · have : ¬ (i ≤ j ∧ j < i + (e - i)) := by omega
        simp [hj, this]
    refine .inr ?_
    show (freePages m i (e - i) pages' >>= _) = _
    rw [heq₂]
    rfl

end Cupcake.Binder.Alloc
