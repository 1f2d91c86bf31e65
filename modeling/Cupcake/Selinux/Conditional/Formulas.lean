import Cupcake.Selinux.Conditional.Exprs

/-! Which lists that `cond_read_node` accepts are evaluated as formulas. -/

namespace Cupcake.Selinux.Cond

open List

/-! ## Lists from a policy file -/

/-- `expr_isvalid`, for an `expr_type` and a `bool` of the file. -/
def exprIsvalid (nprim : ℕ) (e : ℕ × ℕ) : Bool :=
  !(decide (e.1 ≤ 0) || decide (7 < e.1)) && !decide (nprim < e.2)

def toCondExpr : ℕ × ℕ → CondExpr
  | (1, num) => .bool num
  | (2, _) => .not
  | (3, _) => .or
  | (4, _) => .and
  | (5, _) => .xor
  | (6, _) => .eq
  | (7, _) => .neq
  | _ => .other

/-- A list that `cond_read_node` accepts in a policy with these booleans. -/
structure CondList (bools : List (Option Bool)) where
  entries : List (ℕ × ℕ)
  valid : ∀ e ∈ entries, exprIsvalid bools.length e

def CondList.expr {bools : List (Option Bool)} (l : CondList bools) : List CondExpr :=
  l.entries.map toCondExpr

/-! ## Formulas -/

inductive Op where
  | or
  | and
  | xor
  | eq
  | neq

namespace Op

def expr : Op → CondExpr
  | .or => .or
  | .and => .and
  | .xor => .xor
  | .eq => .eq
  | .neq => .neq

def apply : Op → Bool → Bool → Bool
  | .or => (· || ·)
  | .and => (· && ·)
  | .xor => Bool.xor
  | .eq => (· == ·)
  | .neq => (· != ·)

end Op

inductive Formula where
  | bool (num : ℕ)
  | not (f : Formula)
  | bin (op : Op) (f g : Formula)

namespace Formula

def rpn : Formula → List CondExpr
  | .bool num => [.bool num]
  | .not f => f.rpn ++ [.not]
  | .bin op f g => f.rpn ++ g.rpn ++ [op.expr]

def eval (state : ℕ → Bool) : Formula → Bool
  | .bool num => state num
  | .not f => !f.eval state
  | .bin op f g => op.apply (f.eval state) (g.eval state)

def depth : Formula → ℕ
  | .bool _ => 1
  | .not f => f.depth
  | .bin _ f g => max f.depth (g.depth + 1)

end Formula

def assignment (bools : List (Option Bool)) (num : ℕ) : Bool := (boolState bools num).getD false

def Denotes (expr : List CondExpr) (f : Formula) : Prop := expr = f.rpn ∧ f.depth ≤ maxDepth

/-- The evaluation reads nothing that is not there, and its result is the truth value of the
list, or -1 if it is no formula of the right depth. -/
def Evaluates (bools : List (Option Bool)) (expr : List CondExpr) : Prop :=
  ∃ v, (∀ s0, condEvaluateExpr bools expr s0 = some v) ∧
    ((¬ ∃ f, Denotes expr f) ∧ v = -1 ∨
      ∃ f, Denotes expr f ∧ v = if f.eval (assignment bools) then 1 else 0)

/-- From a stack of `h` cells on: the booleans that are read exist, and a walk that comes to the
end of the list leaves one cell. -/
def Answers (bools : List (Option Bool)) : ℕ → List CondExpr → Prop
  | h, [] => h = 1
  | h, .bool num :: expr =>
    h = maxDepth ∨ (boolState bools num).isSome ∧ Answers bools (h + 1) expr
  | h, .not :: expr => h = 0 ∨ Answers bools h expr
  | _, .other :: _ => True
  | h, .or :: expr | h, .and :: expr | h, .xor :: expr | h, .eq :: expr | h, .neq :: expr =>
    h < 2 ∨ Answers bools (h - 1) expr

variable {bools : List (Option Bool)} {expr : List CondExpr}

/-! ## The walk over a formula -/

theorem CondExpr.eq_cases (e : CondExpr) :
    (∃ num, e = .bool num) ∨ e = .not ∨ (∃ op : Op, e = op.expr) ∨ e = .other := by
  cases e with
  | bool num => exact .inl ⟨num, rfl⟩
  | not => exact .inr (.inl rfl)
  | or => exact .inr (.inr (.inl ⟨.or, rfl⟩))
  | and => exact .inr (.inr (.inl ⟨.and, rfl⟩))
  | xor => exact .inr (.inr (.inl ⟨.xor, rfl⟩))
  | eq => exact .inr (.inr (.inl ⟨.eq, rfl⟩))
  | neq => exact .inr (.inr (.inl ⟨.neq, rfl⟩))
  | other => exact .inr (.inr (.inr rfl))

theorem condStep_op (op : Op) (stack : List Bool) :
    condStep bools op.expr stack = binary op.apply stack := by
  cases op <;> rfl

theorem answers_op (op : Op) (h : ℕ) :
    Answers bools h (op.expr :: expr) ↔ h < 2 ∨ Answers bools (h - 1) expr := by
  cases op <;> exact Iff.rfl

theorem condLoop_append (expr₁ expr₂ : List CondExpr) (stack : List Bool) :
    condLoop bools (expr₁ ++ expr₂) stack = condLoop bools expr₁ stack >>= condLoop bools expr₂ :=
  foldlM_append ..

variable (bools) in
theorem condLoop_rpn (f : Formula) (stack : List Bool) (h : stack.length + f.depth ≤ maxDepth) :
    condLoop bools f.rpn stack = .ok (f.eval (assignment bools) :: stack) ∨
      condLoop bools f.rpn stack = .error .wild := by
  induction f generalizing stack with
  | bool num =>
    have hlen : stack.length ≠ maxDepth := Nat.ne_of_lt h
    rw [Formula.rpn, condLoop_cons, condStep, if_neg hlen, Formula.eval, assignment]
    cases boolState bools num with
    | none => exact .inr rfl
    | some state => exact .inl rfl
  | not f ih =>
    rw [Formula.rpn, condLoop_append]
    obtain hf | hf := ih stack h
    · rw [hf]
      exact .inl rfl
    · rw [hf]
      exact .inr rfl
  | bin op f g ihf ihg =>
    obtain ⟨hf, hg⟩ : stack.length + f.depth ≤ maxDepth ∧ stack.length + 1 + g.depth ≤ maxDepth := by
      rw [Formula.depth] at h
      omega
    rw [Formula.rpn, append_assoc, condLoop_append]
    obtain hf | hf := ihf stack hf
    · rw [hf, ok_bind, condLoop_append]
      obtain hg | hg := ihg (f.eval (assignment bools) :: stack) hg
      · rw [hg, ok_bind, condLoop_cons, condStep_op]
        exact .inl rfl
      · rw [hg]
        exact .inr rfl
    · rw [hf]
      exact .inr rfl

/-! ## The formulas of a walk -/

/-- The cells of the stack as formulas, the top first, each with the cells that it needed. -/
def Fits : List Formula → Prop
  | [] => True
  | f :: fs => f.depth + fs.length ≤ maxDepth ∧ Fits fs

/-- The list that has been read when the cells are these formulas. -/
def written : List Formula → List CondExpr
  | [] => []
  | f :: fs => written fs ++ f.rpn

theorem Fits.length_le {fs : List Formula} (h : Fits fs) : fs.length ≤ maxDepth := by
  cases fs with
  | nil => exact Nat.zero_le _
  | cons f fs =>
    have hpos : 0 < f.depth := by
      induction f with
      | bool num => exact one_pos
      | not f ih => exact ih h
      | bin op f g _ _ => exact lt_max_of_lt_right (Nat.succ_pos _)
    obtain ⟨h, -⟩ := h
    rw [length_cons]
    omega

theorem condStep_formulas {e : CondExpr} {fs : List Formula} {stack : List Bool} (hfs : Fits fs)
    (h : condStep bools e (fs.map (Formula.eval (assignment bools))) = .ok stack) :
    ∃ gs, Fits gs ∧ stack = gs.map (Formula.eval (assignment bools)) ∧
      written gs = written fs ++ [e] := by
  obtain ⟨num, rfl⟩ | rfl | ⟨op, rfl⟩ | rfl := e.eq_cases
  · rw [condStep, length_map] at h
    split_ifs at h with hfull
    cases hstate : boolState bools num with
    | none =>
      rw [hstate] at h
      cases h
    | some state =>
      rw [hstate] at h
      cases h
      have hlen := hfs.length_le
      refine ⟨.bool num :: fs, ⟨?_, hfs⟩, ?_, rfl⟩
      · rw [Formula.depth]
        omega
      · rw [map_cons, Formula.eval, assignment, hstate]
        rfl
  · cases fs with
    | nil => cases h
    | cons f fs =>
      cases h
      exact ⟨.not f :: fs, hfs, rfl, (append_assoc ..).symm⟩
  · rw [condStep_op] at h
    rcases fs with _ | ⟨g, _ | ⟨f, fs⟩⟩
    · cases h
    · cases h
    · cases h
      obtain ⟨hg, hf, hfs⟩ := hfs
      refine ⟨.bin op f g :: fs, ⟨?_, hfs⟩, rfl, ?_⟩
      · rw [length_cons] at hg
        rw [Formula.depth]
        omega
      · simp only [written, Formula.rpn, append_assoc]
  · cases h

theorem condLoop_formulas {fs : List Formula} {stack : List Bool} (hfs : Fits fs)
    (h : condLoop bools expr (fs.map (Formula.eval (assignment bools))) = .ok stack) :
    ∃ gs, Fits gs ∧ stack = gs.map (Formula.eval (assignment bools)) ∧
      written gs = written fs ++ expr := by
  induction expr generalizing fs with
  | nil =>
    cases h
    exact ⟨fs, hfs, rfl, (append_nil _).symm⟩
  | cons e expr ih =>
    rw [condLoop_cons] at h
    obtain ⟨stack₁, h₁, h₂⟩ := bind_ok h
    obtain ⟨gs, hgs, rfl, hw⟩ := condStep_formulas hfs h₁
    obtain ⟨ks, hks, hstack, hw'⟩ := ih hgs h₂
    refine ⟨ks, hks, hstack, ?_⟩
    rw [hw', hw, append_assoc, singleton_append]

theorem denotes_of_condLoop {x : Bool} (h : condLoop bools expr [] = .ok [x]) :
    ∃ f, Denotes expr f ∧ x = f.eval (assignment bools) := by
  have hnil : Fits [] := trivial
  obtain ⟨gs, hgs, hstack, hw⟩ := condLoop_formulas hnil h
  rcases gs with _ | ⟨g, _ | ⟨k, gs⟩⟩
  · cases hstack
  · exact ⟨g, ⟨hw.symm, hgs.1⟩, (cons.inj hstack).1⟩
  · cases hstack

/-! ## The condition -/

def EndsWell (x : Except Stop (List Bool)) : Prop :=
  x ≠ .error .wild ∧ ∀ stack, x = .ok stack → stack.length = 1

theorem endsWell_ok {stack : List Bool} : EndsWell (.ok stack) ↔ stack.length = 1 := by
  refine ⟨fun h => h.2 stack rfl, fun h => ⟨by simp, ?_⟩⟩
  intro stack' h'
  cases h'
  exact h

theorem endsWell_undefined : EndsWell (.error .undefined) := ⟨by simp, by simp⟩

theorem not_endsWell_wild : ¬ EndsWell (.error .wild) := fun h => h.1 rfl

theorem answers_iff (stack : List Bool) :
    Answers bools stack.length expr ↔ EndsWell (condLoop bools expr stack) := by
  induction expr generalizing stack with
  | nil => exact endsWell_ok.symm
  | cons e expr ih =>
    rw [condLoop_cons]
    obtain ⟨num, rfl⟩ | rfl | ⟨op, rfl⟩ | rfl := e.eq_cases
    · rw [Answers, condStep]
      split_ifs with hfull
      · exact iff_of_true (.inl hfull) endsWell_undefined
      · cases boolState bools num with
        | none => exact iff_of_false (by simp [hfull]) not_endsWell_wild
        | some state => simpa [hfull] using ih (state :: stack)
    · cases stack with
      | nil => exact iff_of_true (.inl rfl) endsWell_undefined
      | cons x stack =>
        rw [Answers, or_iff_right (by simp)]
        exact ih ((!x) :: stack)
    · rw [answers_op, condStep_op]
      rcases stack with _ | ⟨y, _ | ⟨x, stack⟩⟩
      · exact iff_of_true (.inl Nat.two_pos) endsWell_undefined
      · exact iff_of_true (.inl Nat.one_lt_two) endsWell_undefined
      · rw [or_iff_right (by simp)]
        exact ih (op.apply x y :: stack)
    · exact iff_of_true trivial endsWell_undefined

theorem evaluates_of_answers (h : Answers bools 0 expr) : Evaluates bools expr := by
  have hends := (answers_iff []).mp h
  cases hloop : condLoop bools expr [] with
  | error stop =>
    rw [hloop] at hends
    cases stop with
    | wild => exact absurd hends not_endsWell_wild
    | undefined =>
      refine ⟨-1, fun s0 => by rw [condEvaluateExpr, hloop], .inl ⟨?_, rfl⟩⟩
      rintro ⟨f, rfl, hdepth⟩
      obtain hrpn | hrpn := condLoop_rpn bools f [] (by simpa using hdepth)
      · simp [hrpn] at hloop
      · simp [hrpn] at hloop
  | ok stack =>
    rw [hloop, endsWell_ok] at hends
    obtain ⟨x, rfl⟩ := length_eq_one_iff.mp hends
    obtain ⟨f, hf, rfl⟩ := denotes_of_condLoop hloop
    exact ⟨_, fun s0 => by rw [condEvaluateExpr, hloop]; rfl, .inr ⟨f, hf, rfl⟩⟩

theorem answers_of_evaluates (h : Evaluates bools expr) : Answers bools 0 expr := by
  refine (answers_iff []).mpr ⟨?_, ?_⟩
  · intro hloop
    obtain ⟨v, hv, -⟩ := h
    have hv := hv 0
    rw [condEvaluateExpr, hloop] at hv
    cases hv
  · intro stack hloop
    obtain ⟨v, hv, ⟨-, rfl⟩ | ⟨f, ⟨rfl, hdepth⟩, -⟩⟩ := h
    · have hv := hv 0
      rw [condEvaluateExpr, hloop] at hv
      cases hlast : stack.getLast? with
      | none => simp [hlast] at hv
      | some x => cases x <;> simp [hlast] at hv
    · obtain hrpn | hrpn := condLoop_rpn bools f [] (by simpa using hdepth)
      · rw [hrpn] at hloop
        cases hloop
        rfl
      · simp [hrpn] at hloop

/-- The evaluator is right about a list exactly if the list answers. -/
theorem evaluates_iff_answers (l : CondList bools) :
    Evaluates bools l.expr ↔ Answers bools 0 l.expr :=
  ⟨answers_of_evaluates, evaluates_of_answers⟩

theorem not_evaluates_short :
    ¬ Evaluates [some true] (⟨[], by decide⟩ : CondList [some true]).expr ∧
    ¬ Evaluates [some true] (⟨[(1, 1), (1, 1)], by decide⟩ : CondList [some true]).expr ∧
    ¬ Evaluates [some true] (⟨[(1, 0)], by decide⟩ : CondList [some true]).expr := by
  refine ⟨fun h => ?_, fun h => ?_, fun h => ?_⟩
  · simpa [Answers, CondList.expr] using answers_of_evaluates h
  · simpa [Answers, CondList.expr, toCondExpr, maxDepth, boolState] using answers_of_evaluates h
  · simpa [Answers, CondList.expr, toCondExpr, maxDepth, boolState] using answers_of_evaluates h

end Cupcake.Selinux.Cond
