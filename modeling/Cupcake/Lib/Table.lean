import Mathlib.Data.List.Perm.Basic
import Mathlib.Data.List.Sort
import Mathlib.Tactic.Linarith

/-! Tables: lists of rows, each of which is found by its key. -/

namespace Cupcake.Table

open List

variable {α κ β : Type*} [DecidableEq κ] (key : α → κ)

def find (k : κ) (l : List α) : Option α := l.find? fun a => key a = k

def update (k : κ) (f : α → α) (l : List α) : List α := l.map fun a => if key a = k then f a else a

def remove (k : κ) (l : List α) : List α := l.filter fun a => key a ≠ k

def insert [LE κ] [DecidableLE κ] (a : α) (l : List α) : List α :=
  l.orderedInsert (fun a b => key a ≤ key b) a

variable {key} {k : κ} {f : α → α} {l : List α} {a b : α}

theorem find_some (h : find key k l = some a) : a ∈ l ∧ key a = k := by
  have hk := find?_some h
  rw [decide_eq_true_eq] at hk
  exact ⟨mem_of_find?_eq_some h, hk⟩

theorem find_eq_none : find key k l = none ↔ ∀ a ∈ l, key a ≠ k := by
  simp [find]

theorem mem_remove : a ∈ remove key k l ↔ a ∈ l ∧ key a ≠ k := by
  simp [remove]

theorem mem_update : b ∈ update key k f l ↔
    (∃ a ∈ l, key a = k ∧ b = f a) ∨ b ∈ l ∧ key b ≠ k := by
  rw [update, mem_map]
  constructor
  · rintro ⟨a, ha, rfl⟩
    by_cases hk : key a = k
    · exact .inl ⟨a, ha, hk, if_pos hk⟩
    · rw [if_neg hk]
      exact .inr ⟨ha, hk⟩
  · rintro (⟨a, ha, hk, rfl⟩ | ⟨hb, hk⟩)
    · exact ⟨a, ha, if_pos hk⟩
    · exact ⟨b, hb, if_neg hk⟩

theorem nodup_remove {g : α → β} (hn : (l.map g).Nodup) : ((remove key k l).map g).Nodup :=
  hn.sublist (filter_sublist.map g)

theorem map_update {g : α → β} (hg : ∀ a ∈ l, g (f a) = g a) :
    (update key k f l).map g = l.map g := by
  rw [update, map_map]
  refine map_congr_left fun a ha => ?_
  show g (if _ then _ else _) = g a
  split_ifs
  · exact hg a ha
  · rfl

theorem find_update (hf : ∀ a, key a = k → key (f a) = k) (k' : κ) :
    find key k' (update key k f l) = if k' = k then (find key k l).map f else find key k' l := by
  have hkey (a : α) : key (if key a = k then f a else a) = key a := by
    split_ifs with h
    · rw [hf a h, h]
    · rfl
  have hfind : find key k' (update key k f l) =
      (find key k' l).map fun a => if key a = k then f a else a := by
    rw [find, update, find?_map]
    simp only [Function.comp_def, hkey, find]
  rw [hfind]
  split_ifs with h
  · subst h
    cases hk : find key k' l with
    | none => rfl
    | some a => rw [Option.map_some, if_pos (find_some hk).2, Option.map_some]
  · cases hk : find key k' l with
    | none => rfl
    | some a =>
      obtain ⟨-, rfl⟩ := find_some hk
      rw [Option.map_some, if_neg h]

theorem find_insert [LE κ] [DecidableLE κ] (ha : find key (key a) l = none) (k : κ) :
    find key k (insert key a l) = if k = key a then some a else find key k l := by
  induction l with
  | nil =>
    by_cases h : key a = k
    · simp [insert, find, h]
    · simp [insert, find, h, Ne.symm h]
  | cons b l ih =>
    have hb : key b ≠ key a := find_eq_none.mp ha b mem_cons_self
    have hl : find key (key a) l = none :=
      find_eq_none.mpr fun c hc => find_eq_none.mp ha c (mem_cons_of_mem b hc)
    rw [insert, orderedInsert_cons]
    by_cases h : key a ≤ key b
    · rw [if_pos h, find, find?_cons]
      by_cases hk : key a = k
      · simp [hk]
      · simp [hk, Ne.symm hk, find]
    · rw [if_neg h, find, find?_cons, find, find?_cons]
      by_cases hk : key b = k
      · have hne : k ≠ key a := fun h => hb (hk.trans h)
        simp [hk, hne]
      · simp only [hk, decide_false]
        exact ih hl

end Cupcake.Table
