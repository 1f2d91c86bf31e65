import Cupcake.Net.Iptables.Layout

/-! `mark_source_chains` writes nothing but `comefrom` and the packet counters of entries. -/

namespace Cupcake.Iptables

open Bytes Option

variable {m m' m₁ : Mem} {size e pos fuel hook : ℕ}

/-- The table while `mark_source_chains` works on it: the counters are back pointers. -/
structure Marked (m : Mem) (size : ℕ) (m' : Mem) : Prop where
  kept : Kept m size m'
  back : ∀ e, IsEntry m size e → IsEntry m size (pcnt m' e % 2 ^ 32)

theorem wadd_next (hs : Shape m size) (hsize : size < 2 ^ 32) (hk : Kept m size m')
    (he : IsEntry m size e) : wadd 32 e (nextOffset m' e) = e + nextOffset m e := by
  have hle := he.next_le_size hs
  rw [hk.nextOffset_eq hs he]
  exact wadd_of_lt (by omega)

theorem IsEntry.next (he : IsEntry m size e) (hlt : e + nextOffset m e < size) :
    IsEntry m size (e + nextOffset m e) := ⟨he.1.next, hlt⟩

theorem Marked.setComefrom {v : ℕ} (hs : Shape m size) (hm : Marked m size m')
    (he : IsEntry m size e) : Marked m size (setComefrom m' e v) := by
  refine ⟨hm.kept.setComefrom he, fun e' he' => ?_⟩
  rcases eq_or_ne e' e with rfl | hne
  · rw [pcnt_setComefrom_self]
    exact hm.back e' he'
  · rw [pcnt_setComefrom_of_ne (he.apart hs he' hne.symm)]
    exact hm.back e' he'

theorem Marked.setPcnt (hs : Shape m size) (hsize : size < 2 ^ 32) (hm : Marked m size m')
    (he : IsEntry m size e) (hpos : IsEntry m size pos) : Marked m size (setPcnt m' e pos) := by
  refine ⟨hm.kept.setPcnt he, fun e' he' => ?_⟩
  rcases eq_or_ne e' e with rfl | hne
  · rw [pcnt_setPcnt, Nat.mod_mod_of_dvd _ (Nat.pow_dvd_pow 2 (by decide)),
      Nat.mod_eq_of_lt (hpos.2.trans hsize)]
    exact hpos
  · rw [pcnt_setPcnt_of_ne (he.apart hs he' hne.symm)]
    exact hm.back e' he'

theorem IsEntry.zero (he : IsEntry m size e) : IsEntry m size 0 :=
  ⟨.zero, (Nat.zero_le e).trans_lt he.2⟩

theorem isEntry_of_findJumpTarget {target : ℕ} (hs : Shape m size) (hk : Kept m size m')
    (hb : Boundary m e) (h : findJumpTarget size m' target fuel e = some true) :
    IsEntry m size target := by
  induction fuel generalizing e with
  | zero => cases h
  | succ fuel ih =>
    rw [findJumpTarget] at h
    split_ifs at h with hlt heq
    · exact heq ▸ ⟨hb, hlt⟩
    · rw [hk.nextOffset_eq hs ⟨hb, hlt⟩] at h
      exact ih hb.next h
    · cases h

section

variable (hs : Shape m size) (hsize : size < 2 ^ 32) (hm : Marked m size m')
  (he : IsEntry m size e)

include hs hsize hm he

theorem backtrack_marked {back : Option ℕ} (h : backtrack fuel m' e = some (m₁, back)) :
    Marked m size m₁ ∧ ∀ pos, back = some pos → IsEntry m size pos := by
  induction fuel generalizing m' e with
  | zero => cases h
  | succ fuel ih =>
    have hm₁ := hm.setComefrom (v := comefrom m' e ^^^ 2 ^ loopBit) hs he
    have hm₂ := hm₁.setPcnt hs hsize he he.zero
    have hback := hm₁.back e he
    rw [backtrack] at h
    split_ifs at h
    · cases h
      exact ⟨hm₂, nofun⟩
    · exact ih hm₂ hback h
    · cases h
      exact ⟨hm₂, fun pos hpos => some.inj hpos ▸ hback⟩

theorem leave_marked {t : Turn} (h : leave size fuel m' e = some t) :
    (∀ m₁, t = .done m₁ → Marked m size m₁) ∧
      ∀ m₁ pos, t = .go m₁ pos → Marked m size m₁ ∧ IsEntry m size pos := by
  rw [leave] at h
  cases hb : backtrack fuel m' e with
  | none => simp [hb] at h
  | some r =>
    obtain ⟨m₂, back⟩ := r
    obtain ⟨hm₂, hpos⟩ := backtrack_marked hs hsize hm he hb
    cases back with
    | none =>
      simp only [hb, some.injEq] at h
      subst h
      exact ⟨fun m₁ heq => Turn.done.inj heq ▸ hm₂, nofun⟩
    | some pos =>
      have hp := hpos pos rfl
      simp only [hb, wadd_next hs hsize hm₂.kept hp] at h
      split_ifs at h with hend
      · cases h
        exact ⟨nofun, nofun⟩
      · cases h
        have hnext := hp.next (not_le.mp hend)
        refine ⟨nofun, fun m₁ pos' heq => ?_⟩
        cases heq
        exact ⟨hm₂.setPcnt hs hsize hnext hp, hnext⟩

theorem enter_marked {t : Turn} (h : enter size fuel m' e = some t) :
    (∀ m₁, t ≠ .done m₁) ∧ ∀ m₁ pos, t = .go m₁ pos → Marked m size m₁ ∧ IsEntry m size pos := by
  have hgo (target : ℕ) (hentry : IsEntry m size target)
      (ht : t = .go (setPcnt m' target e) target) :
      (∀ m₁, t ≠ .done m₁) ∧ ∀ m₁ pos, t = .go m₁ pos → Marked m size m₁ ∧ IsEntry m size pos := by
    subst ht
    refine ⟨nofun, fun m₁ pos heq => ?_⟩
    cases heq
    exact ⟨hm.setPcnt hs hsize hentry he, hentry⟩
  rw [enter] at h
  split_ifs at h with hstd
  · dsimp only at h
    split_ifs at h with hfar
    · cases h
      exact ⟨nofun, nofun⟩
    · cases hfind : findJumpTarget size m' (verdict m' (getTarget m' e)).toNat fuel 0 with
      | none => simp [hfind] at h
      | some found =>
        cases found with
        | false =>
          simp only [hfind, some.injEq] at h
          subst h
          exact ⟨nofun, nofun⟩
        | true =>
          simp only [hfind, some.injEq] at h
          exact hgo _ (isEntry_of_findJumpTarget hs hm.kept .zero hfind) h.symm
  · rw [wadd_next hs hsize hm.kept he] at h
    dsimp only at h
    split_ifs at h with hend
    · cases h
      exact ⟨nofun, nofun⟩
    · exact hgo _ (he.next (not_le.mp hend)) (some.inj h).symm

theorem turn_marked {t : Turn} (h : turn size hook fuel m' e = some t) :
    (∀ m₁, t = .done m₁ → Marked m size m₁) ∧
      ∀ m₁ pos, t = .go m₁ pos → Marked m size m₁ ∧ IsEntry m size pos := by
  have hm₁ := hm.setComefrom (v := comefrom m' e ||| (2 ^ hook ||| 2 ^ loopBit)) hs he
  rw [turn] at h
  dsimp only at h
  split_ifs at h
  · cases h
    exact ⟨nofun, nofun⟩
  · cases h
    exact ⟨nofun, nofun⟩
  · exact leave_marked hs hsize hm₁ he h
  · obtain ⟨hdone, hgo⟩ := enter_marked hs hsize hm₁ he h
    exact ⟨fun m₁ heq => absurd heq (hdone m₁), hgo⟩

theorem walkHook_marked (h : walkHook size hook fuel m' e = some (some m₁)) : Marked m size m₁ := by
  induction fuel generalizing m' e with
  | zero => cases h
  | succ fuel ih =>
    rw [walkHook] at h
    cases ht : turn size hook fuel m' e with
    | none => simp [ht] at h
    | some t =>
      obtain ⟨hdone, hgo⟩ := turn_marked hs hsize hm he ht
      cases t with
      | fail => simp [ht] at h
      | done m₂ =>
        simp only [ht, some.injEq] at h
        exact h ▸ hdone m₂ rfl
      | go m₂ pos =>
        simp only [ht] at h
        obtain ⟨hm₂, hpos⟩ := hgo m₂ pos rfl
        exact ih hm₂ hpos h

end

theorem markHooks_marked {info : Info} {validHooks : ℕ} {hooks : List ℕ} (hs : Shape m info.size)
    (hsize : info.size < 2 ^ 32)
    (hvalid : ∀ h ∈ hooks, validHooks.testBit h → IsEntry m info.size (info.hookEntry h))
    (hm : Marked m info.size m') (h : markHooks info validHooks fuel hooks m' = some (some m₁)) :
    Marked m info.size m₁ := by
  induction hooks generalizing m' with
  | nil =>
    cases h
    exact hm
  | cons hook hooks ih =>
    have hrest (h : ℕ) (hmem : h ∈ hooks) := hvalid h (List.mem_cons_of_mem _ hmem)
    rw [markHooks] at h
    split_ifs at h with hbit
    · dsimp only at h
      have hentry := hvalid hook (List.mem_cons_self ..) hbit
      cases hw : walkHook info.size hook fuel (setPcnt m' (info.hookEntry hook) (info.hookEntry hook))
          (info.hookEntry hook) with
      | none => simp [hw] at h
      | some r =>
        cases r with
        | none => simp [hw] at h
        | some m₂ =>
          simp only [hw] at h
          exact ih hrest (walkHook_marked hs hsize (hm.setPcnt hs hsize hentry hentry) hentry hw) h
    · exact ih hrest hm h

end Cupcake.Iptables
