import Cupcake.Mlog.Queue

/-! The columns: what the writer logs is what the reader expects to print next. -/

namespace Cupcake.Mlog

open List

variable {u : List Entry} {e : Entry} {f w : ℕ}

def nextIdx (f : ℕ) : ℕ := if strfmtLen ≤ f + 1 then strfmtProc else f + 1

/-- Numbers that a reader who expects column `f` prints in their own formats; column `w` is
expected behind them. -/
def Follows (f : ℕ) : List Entry → ℕ → Prop
  | [], w => f = w
  | e :: u, w => (e = (.cr, mlogId) ∧ Follows 1 u w) ∨
      (e.1 ≠ .cr ∧ e.2 ≠ mlogId ∧ strfmtList[f]? = some e.1 ∧ Follows (nextIdx f) u w)

theorem Follows.append {u' : List Entry} {w' : ℕ} (h : Follows f u w) (h' : Follows w u' w') :
    Follows f (u ++ u') w' := by
  induction u generalizing f with
  | nil => exact h ▸ h'
  | cons e u ih =>
    obtain ⟨he, hu⟩ | ⟨hcr, hid, hfmt, hu⟩ := h
    · exact .inl ⟨he, ih hu⟩
    · exact .inr ⟨hcr, hid, hfmt, ih hu⟩

theorem Follows.tail (h : Follows f (e :: u) w) : ∃ f', Follows f' u w := by
  obtain ⟨-, hu⟩ | ⟨-, -, -, hu⟩ := h
  · exact ⟨1, hu⟩
  · exact ⟨_, hu⟩

theorem Follows.drop (h : Follows f u w) (k : ℕ) : ∃ f', Follows f' (u.drop k) w := by
  induction k generalizing f u with
  | zero => exact ⟨f, h⟩
  | succ k ih =>
    cases u with
    | nil => exact ⟨f, h⟩
    | cons e u =>
      obtain ⟨f', h'⟩ := h.tail
      exact ih h'

theorem Follows.mark_iff (h : Follows f u w) : ∀ e ∈ u, e.2 = mlogId ↔ e.1 = .cr := by
  induction u generalizing f with
  | nil => simp
  | cons x u ih =>
    obtain ⟨rfl, hu⟩ | ⟨hcr, hid, -, hu⟩ := h
    · intro e he
      obtain rfl | he := mem_cons.mp he
      · simp
      · exact ih hu e he
    · intro e he
      obtain rfl | he := mem_cons.mp he
      · simp [hcr, hid]
      · exact ih hu e he

theorem Follows.of_append {l : List Entry} (h : Follows f (l ++ e :: u) w) (he : e.1 = .cr) :
    Follows 1 u w := by
  induction l generalizing f with
  | nil =>
    obtain ⟨-, hu⟩ | ⟨hcr, -⟩ := h
    · exact hu
    · exact absurd he hcr
  | cons x l ih =>
    obtain ⟨-, hu⟩ | ⟨-, -, -, hu⟩ := h
    · exact ih hu
    · exact ih hu

theorem follows_of_slice (hcr : ∀ e ∈ u, e.1 ≠ .cr) (hid : ∀ e ∈ u, e.2 ≠ mlogId)
    (hf : u.map Prod.fst = (strfmtList.drop f).take u.length) :
    Follows f u (nextIdx^[u.length] f) := by
  induction u generalizing f with
  | nil => rfl
  | cons e u ih =>
    have hlt : f < strfmtList.length := by
      by_contra hge
      rw [drop_of_length_le (by omega)] at hf
      simp at hf
    rw [drop_eq_getElem_cons hlt, length_cons, take_succ_cons, map_cons,
      cons.injEq] at hf
    refine .inr ⟨hcr e mem_cons_self, hid e mem_cons_self, ?_, ?_⟩
    · rw [getElem?_eq_getElem hlt, hf.1]
    · have hcr' : ∀ e ∈ u, e.1 ≠ .cr := fun x hx => hcr x (mem_cons_of_mem e hx)
      have hid' : ∀ e ∈ u, e.2 ≠ mlogId := fun x hx => hid x (mem_cons_of_mem e hx)
      cases u with
      | nil => rfl
      | cons x u =>
        have hnext : nextIdx f = f + 1 := by
          refine if_neg fun hge => ?_
          have := hf.2
          rw [drop_of_length_le hge] at this
          simp at this
        refine ih hcr' hid' ?_
        rw [hnext]
        exact hf.2

theorem follows_of_fmts (fmts : List Fmt) (hmap : u.map Prod.fst = fmts)
    (hid : ∀ e ∈ u, e.2 = mlogId → e.1 = .cr)
    (hf : .cr ∉ fmts ∧ fmts = (strfmtList.drop f).take fmts.length ∧ nextIdx^[fmts.length] f = w) :
    Follows f u w := by
  subst hmap
  obtain ⟨hcr, hslice, rfl⟩ := hf
  rw [length_map] at hslice ⊢
  have hcr' : ∀ e ∈ u, e.1 ≠ .cr := fun e he h => hcr (h ▸ mem_map_of_mem he)
  exact follows_of_slice hcr' (fun e he h => hcr' e he (hid e he h)) hslice

def Phase.column : Phase → ℕ
  | .meminfo => 4
  | .vmstat => 18
  | .buddyinfo => 21
  | .procinfo => strfmtProc

theorem zoneEntries_fst (nrFree : Fin 11 → ℕ) :
    (zoneEntries nrFree).map Prod.fst = ofFn zoneFmt := by
  rw [zoneEntries, map_ofFn]
  rfl

theorem Group.follows (g : Group) (hg : ∀ e ∈ g.entries, e.2 = mlogId → e.1 = .cr) :
    Follows g.phases.1.column g.entries g.phases.2.column := by
  cases g with
  | header type sec usec =>
    refine .inl ⟨rfl, ?_⟩
    show Follows 1 _ 4
    exact follows_of_fmts [.type, .timeSec, .timeNanosec] rfl (fun e he => hg e (.tail _ he))
      (by decide)
  | meminfo v =>
    show Follows 4 _ 18
    refine follows_of_fmts (ofFn fun _ : Fin 14 => Fmt.memSize) ?_ hg (by decide)
    exact map_ofFn
  | vmstat v =>
    show Follows 18 _ 21
    refine follows_of_fmts (ofFn fun _ : Fin 3 => Fmt.accCount) ?_ hg (by decide)
    exact map_ofFn
  | buddyinfo normal high =>
    show Follows 21 _ 43
    refine follows_of_fmts (ofFn zoneFmt ++ ofFn zoneFmt) ?_ hg (by decide)
    rw [Group.entries, map_append, zoneEntries_fst, zoneEntries_fst]
  | proc pid adj rss rswap swapIn swapOut fmFlt =>
    show Follows 43 _ 43
    exact follows_of_fmts procFmts rfl hg (by decide)

end Cupcake.Mlog
