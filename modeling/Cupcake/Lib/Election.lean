import Mathlib.Data.Set.Function

/-! Electing one member of a set of ranked candidates by contests between two of them: the
higher rank wins if it is good, and otherwise the lower one does. -/

namespace Cupcake.Election

variable {α : Type*} (good : α → Prop) [DecidablePred good] (rank : α → ℕ)

def contest (a b : α) : α :=
  if rank a < rank b then if good b then b else a else if good a then a else b

omit [DecidablePred good] in
/-- The good member of highest rank, or the member of lowest rank if no member is good. -/
structure Elected (s : Set α) (a : α) : Prop where
  mem : a ∈ s
  highest : ∀ b ∈ s, good b → good a ∧ rank b ≤ rank a
  lowest : ¬good a → ∀ b ∈ s, rank a ≤ rank b

variable {good rank} {s : Set α} {a b : α}

omit [DecidablePred good] in
theorem elected_singleton (a : α) : Elected good rank {a} a where
  mem := rfl
  highest := by
    rintro b rfl hb
    exact ⟨hb, le_rfl⟩
  lowest := by
    rintro - b rfl
    exact le_rfl

omit [DecidablePred good] in
theorem Elected.unique (hrank : Set.InjOn rank s) (ha : Elected good rank s a)
    (hb : Elected good rank s b) : a = b := by
  refine hrank ha.mem hb.mem ?_
  by_cases hga : good a
  · obtain ⟨hgb, hle⟩ := hb.highest a ha.mem hga
    exact le_antisymm hle (ha.highest b hb.mem hgb).2
  · have hgb : ¬good b := fun hgb => hga (ha.highest b hb.mem hgb).1
    exact le_antisymm (ha.lowest hga b hb.mem) (hb.lowest hgb a ha.mem)

theorem Elected.insert (h : Elected good rank s a) (b : α) :
    Elected good rank (insert b s) (contest good rank a b) := by
  have hnew (hb : ∀ c ∈ s, good c → good b ∧ rank c ≤ rank b) (hl : ¬good b → ∀ c ∈ s,
      rank b ≤ rank c) : Elected good rank (Insert.insert b s) b := by
    refine ⟨Set.mem_insert b s, ?_, ?_⟩
    · rintro c (rfl | hc) hg
      · exact ⟨hg, le_rfl⟩
      · exact hb c hc hg
    · rintro hg c (rfl | hc)
      · exact le_rfl
      · exact hl hg c hc
  have hkeep (hb : good b → good a ∧ rank b ≤ rank a) (hl : ¬good a → rank a ≤ rank b) :
      Elected good rank (Insert.insert b s) a := by
    refine ⟨Set.mem_insert_of_mem b h.mem, ?_, ?_⟩
    · rintro c (rfl | hc) hg
      · exact hb hg
      · exact h.highest c hc hg
    · rintro hg c (rfl | hc)
      · exact hl hg
      · exact h.lowest hg c hc
  unfold contest
  by_cases hr : rank a < rank b
  · rw [if_pos hr]
    by_cases hb : good b
    · rw [if_pos hb]
      exact hnew (fun c hc hg => ⟨hb, ((h.highest c hc hg).2.trans hr.le)⟩) fun hn => absurd hb hn
    · rw [if_neg hb]
      exact hkeep (fun hg => absurd hg hb) fun _ => hr.le
  · rw [if_neg hr]
    rw [not_lt] at hr
    by_cases ha : good a
    · rw [if_pos ha]
      exact hkeep (fun _ => ⟨ha, hr⟩) fun hn => absurd ha hn
    · rw [if_neg ha]
      -- no member of the set is good, and its lowest rank is above the newcomer's
      refine hnew (fun c hc hg => absurd (h.highest c hc hg).1 ha) fun _ c hc => ?_
      exact hr.trans (h.lowest ha c hc)

end Cupcake.Election
