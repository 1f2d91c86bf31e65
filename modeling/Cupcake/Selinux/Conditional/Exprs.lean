import Cupcake.Lib.Except
import Cupcake.Selinux.Conditional.Defs

/-! What the value of a conditional expression is. -/

namespace Cupcake.Selinux.Cond

open List

/-! ## Expressions that have a value -/

structure Valued (bools : List (Option Bool)) (expr : List CondExpr) : Prop where
  ne_nil : expr ≠ []
  bools : ∀ num, .bool num ∈ expr → (boolState bools num).isSome

theorem condStep_ne_nil {bools : List (Option Bool)} {e : CondExpr} {stack stack' : List Bool}
    (h : condStep bools e stack = .ok stack') : stack' ≠ [] := by
  have hbin : ∀ f, binary f stack = .ok stack' → stack' ≠ [] := by
    intro f hf
    unfold binary at hf
    split at hf
    · cases hf
      exact cons_ne_nil _ _
    · cases hf
  cases e with
  | bool num =>
    simp only [condStep] at h
    split_ifs at h
    split at h
    · cases h
      exact cons_ne_nil _ _
    · cases h
  | not =>
    simp only [condStep] at h
    split at h
    · cases h
      exact cons_ne_nil _ _
    · cases h
  | or => exact hbin _ h
  | and => exact hbin _ h
  | xor => exact hbin _ h
  | eq => exact hbin _ h
  | neq => exact hbin _ h
  | other => cases h

theorem condStep_ne_wild {bools : List (Option Bool)} {e : CondExpr} (stack : List Bool)
    (he : ∀ num, e = .bool num → (boolState bools num).isSome) :
    condStep bools e stack ≠ .error .wild := by
  have hbin : ∀ f, binary f stack ≠ .error .wild := by
    intro f
    unfold binary
    split <;> simp
  cases e with
  | bool num =>
    obtain ⟨state, hstate⟩ := Option.isSome_iff_exists.mp (he num rfl)
    simp only [condStep, hstate]
    split_ifs <;> simp
  | not =>
    simp only [condStep]
    split <;> simp
  | or => exact hbin _
  | and => exact hbin _
  | xor => exact hbin _
  | eq => exact hbin _
  | neq => exact hbin _
  | other => simp [condStep]

theorem condLoop_cons (bools : List (Option Bool)) (e : CondExpr) (expr : List CondExpr)
    (stack : List Bool) :
    condLoop bools (e :: expr) stack = condStep bools e stack >>= condLoop bools expr :=
  foldlM_cons ..

theorem condLoop_ne_wild {bools : List (Option Bool)} {expr : List CondExpr} (stack : List Bool)
    (h : ∀ num, .bool num ∈ expr → (boolState bools num).isSome) :
    condLoop bools expr stack ≠ .error .wild := by
  induction expr generalizing stack with
  | nil => simp [condLoop, pure, Except.pure]
  | cons e expr ih =>
    rw [condLoop_cons]
    have he := condStep_ne_wild stack fun num hnum => h num (hnum ▸ mem_cons_self)
    cases hs : condStep bools e stack with
    | error stop =>
      rw [hs] at he
      simpa [bind, Except.bind] using he
    | ok stack' => exact ih stack' fun num hnum => h num (mem_cons_of_mem _ hnum)

theorem condLoop_ne_nil {bools : List (Option Bool)} {expr : List CondExpr}
    {stack stack' : List Bool} (hne : expr ≠ []) (h : condLoop bools expr stack = .ok stack') :
    stack' ≠ [] := by
  induction expr generalizing stack with
  | nil => exact absurd rfl hne
  | cons e expr ih =>
    rw [condLoop_cons] at h
    obtain ⟨stack₁, h₁, h₂⟩ := bind_ok h
    by_cases hexpr : expr = []
    · subst hexpr
      cases h₂
      exact condStep_ne_nil h₁
    · exact ih hexpr h₂

def condValue (bools : List (Option Bool)) (expr : List CondExpr) : Int :=
  match condLoop bools expr [] with
  | .error _ => -1
  | .ok stack => if stack.getLast? = some true then 1 else 0

theorem condValue_cases (bools : List (Option Bool)) (expr : List CondExpr) :
    condValue bools expr = -1 ∨ condValue bools expr = 0 ∨ condValue bools expr = 1 := by
  unfold condValue
  split
  · exact .inl rfl
  · split_ifs
    · exact .inr (.inr rfl)
    · exact .inr (.inl rfl)

theorem condEvaluateExpr_eq {bools : List (Option Bool)} {expr : List CondExpr}
    (h : Valued bools expr) (s0 : Int) :
    condEvaluateExpr bools expr s0 = some (condValue bools expr) := by
  have hwild := condLoop_ne_wild [] h.bools
  unfold condEvaluateExpr condValue
  cases hl : condLoop bools expr [] with
  | error stop =>
    cases stop with
    | wild => exact absurd hl hwild
    | undefined => rfl
  | ok stack =>
    have hne := condLoop_ne_nil h.ne_nil hl
    obtain ⟨x, hx⟩ : ∃ x, stack.getLast? = some x := ⟨_, List.getLast?_eq_some_getLast hne⟩
    cases x <;> simp [hx]

end Cupcake.Selinux.Cond
