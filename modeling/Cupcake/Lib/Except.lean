import Mathlib.Tactic.Common

/-! Computations that may stop with an error. -/

namespace Cupcake

variable {ε α β : Type}

@[simp] theorem ok_bind (a : α) (f : α → Except ε β) : (Except.ok a >>= f) = f a := rfl

@[simp] theorem pure_eq_ok (a : α) : (pure a : Except ε α) = .ok a := rfl

theorem bind_ok {x : Except ε α} {f : α → Except ε β} {b : β} (h : x >>= f = .ok b) :
    ∃ a, x = .ok a ∧ f a = .ok b := by
  cases x with
  | error e => cases h
  | ok a => exact ⟨a, rfl, h⟩

theorem foldlM_invariant {P : β → Prop} {f : β → α → Except ε β}
    (hf : ∀ b a b', P b → f b a = .ok b' → P b') (l : List α) {b b' : β} (hb : P b)
    (h : l.foldlM f b = .ok b') : P b' := by
  induction l generalizing b with
  | nil => exact Except.ok.inj h ▸ hb
  | cons a l ih =>
    obtain ⟨c, hc, h⟩ := bind_ok h
    exact ih (hf b a c hb hc) h

theorem exists_foldlM {P : β → Prop} {f : β → α → Except ε β}
    (hf : ∀ b a, P b → ∃ b', f b a = .ok b' ∧ P b') (l : List α) {b : β} (hb : P b) :
    ∃ b', l.foldlM f b = .ok b' ∧ P b' := by
  induction l generalizing b with
  | nil => exact ⟨b, rfl, hb⟩
  | cons a l ih =>
    obtain ⟨c, hc, hPc⟩ := hf b a hb
    obtain ⟨b', hb', hPb'⟩ := ih hPc
    exact ⟨b', by rw [List.foldlM_cons, hc]; exact hb', hPb'⟩

end Cupcake
