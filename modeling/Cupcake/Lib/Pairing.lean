import Mathlib.Data.List.Basic

/-! Two lists walked in lockstep: what every pair gives, row by row. -/

namespace Cupcake

open List

variable {α β γ : Type*} {f : α → β → Option γ} {a : α} {b : β} {c : γ} {as : List α} {bs : List β}

def pairs (f : α → β → Option γ) (as : List α) (bs : List β) : List γ :=
  as.flatMap fun a => bs.filterMap (f a)

theorem pairs_cons : pairs f (a :: as) bs = bs.filterMap (f a) ++ pairs f as bs := rfl

theorem mem_pairs : c ∈ pairs f as bs ↔ ∃ a ∈ as, ∃ b ∈ bs, f a b = some c := by
  simp [pairs]

theorem pairs_cons_of_none (h : ∀ b ∈ bs, f a b = none) : pairs f (a :: as) bs = pairs f as bs := by
  rw [pairs_cons, filterMap_eq_nil_iff.mpr h, nil_append]

theorem pairs_drop (h : ∀ a ∈ as, f a b = none) : pairs f as (b :: bs) = pairs f as bs := by
  induction as with
  | nil => rfl
  | cons a as ih =>
    rw [pairs_cons, pairs_cons, ih fun a' ha' => h a' (mem_cons_of_mem a ha'),
      filterMap_cons_none (h a (mem_cons_self ..))]

theorem pairs_next_row (hc : f a b = some c) (h : ∀ b' ∈ bs, f a b' = none) :
    pairs f (a :: as) (b :: bs) = c :: pairs f as (b :: bs) := by
  rw [pairs_cons, filterMap_cons_some hc, filterMap_eq_nil_iff.mpr h]
  rfl

theorem pairs_next_column (hc : f a b = some c) (h : ∀ a' ∈ as, f a' b = none) :
    pairs f (a :: as) (b :: bs) = c :: pairs f (a :: as) bs := by
  rw [pairs_cons, filterMap_cons_some hc, pairs_drop h]
  rfl

theorem pairs_reverse : pairs f as.reverse bs.reverse = (pairs f as bs).reverse := by
  rw [pairs, pairs, reverse_flatMap]
  simp only [filterMap_reverse]
  rfl

theorem pairwise_pairs {R : γ → γ → Prop} {S : α → α → Prop} {T : β → β → Prop}
    (has : as.Pairwise S) (hbs : bs.Pairwise T)
    (hrow : ∀ a b b' c c', T b b' → f a b = some c → f a b' = some c' → R c c')
    (hcol : ∀ a a' b b' c c', S a a' → f a b = some c → f a' b' = some c' → R c c') :
    (pairs f as bs).Pairwise R := by
  rw [pairs, pairwise_flatMap]
  constructor
  · intro a _
    rw [pairwise_filterMap]
    exact hbs.imp fun hT c hc c' hc' => hrow a _ _ c c' hT hc hc'
  · apply has.imp
    intro a a' hS c hc c' hc'
    obtain ⟨b, -, hb⟩ := mem_filterMap.mp hc
    obtain ⟨b', -, hb'⟩ := mem_filterMap.mp hc'
    exact hcol a a' b b' c c' hS hb hb'

end Cupcake
