import Mathlib.Logic.Relation
import Mathlib.Tactic.Common

/-! Runs of a machine whose steps are guarded by a condition on the state and the step's input. -/

namespace Cupcake

variable {σ ι : Type*}

/-- The states that guarded steps reach from `init`. A step may fault, in which
case it gives no next state. -/
inductive Reach (step : σ → ι → Option σ) (guard : σ → ι → Prop) (init : σ) : σ → Prop
  | init : Reach step guard init init
  | step {s s' : σ} {i : ι} : Reach step guard init s → guard s i → step s i = some s' →
      Reach step guard init s'

namespace Reach

variable {step : σ → ι → Option σ} {guard guard' : σ → ι → Prop} {init s : σ}

theorem invariant {P : σ → Prop} (h₀ : P init)
    (hstep : ∀ s s' i, P s → guard s i → step s i = some s' → P s') (h : Reach step guard init s) :
    P s := by
  induction h with
  | init => exact h₀
  | step _ hg hs ih => exact hstep _ _ _ ih hg hs

end Reach

def runList (step : σ → ι → Option σ) (s : σ) : List ι → Option σ
  | [] => some s
  | i :: is => (step s i).bind fun s' => runList step s' is

def runGuarded (step : σ → ι → Option σ) (guard : σ → ι → Prop) [∀ s i, Decidable (guard s i)]
    (s : σ) : List ι → Option σ
  | [] => some s
  | i :: is => if guard s i then (step s i).bind fun s' => runGuarded step guard s' is else none

theorem Reach.of_runGuarded {step : σ → ι → Option σ} {guard : σ → ι → Prop}
    [∀ s i, Decidable (guard s i)] {init s s' : σ} (is : List ι) (h : Reach step guard init s)
    (hr : runGuarded step guard s is = some s') : Reach step guard init s' := by
  induction is generalizing s with
  | nil => exact Option.some.inj hr ▸ h
  | cons i is ih =>
    rw [runGuarded] at hr
    split_ifs at hr with hg
    obtain ⟨s₁, h₁, h₂⟩ := Option.bind_eq_some_iff.mp hr
    exact ih (.step h hg h₁) h₂

end Cupcake
