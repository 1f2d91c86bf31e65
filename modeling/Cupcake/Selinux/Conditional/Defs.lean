import Cupcake.Selinux.Avtab.Defs

/-! Conditional expressions and the rules that they switch, from `conditional.c` and
`security_set_bools`. -/

namespace Cupcake.Selinux.Cond

/-! ## Expressions -/

/-- `struct cond_expr`; `other` is an `expr_type` out of range. -/
inductive CondExpr where
  | bool (num : ℕ)
  | not
  | or
  | and
  | xor
  | eq
  | neq
  | other

def maxDepth : ℕ := 10

/-- Why an evaluation ends early: the result is undefined, or a boolean is read that the
policy does not have. -/
inductive Stop where
  | undefined
  | wild

/-- `bool_val_to_struct[num - 1]->state` in a policy with these booleans. -/
def boolState (bools : List (Option Bool)) (num : ℕ) : Option Bool :=
  if num = 0 then none else (bools[num - 1]?).join

def binary (f : Bool → Bool → Bool) : List Bool → Except Stop (List Bool)
  | y :: x :: stack => .ok (f x y :: stack)
  | _ => .error .undefined

/-- One turn of the loop of `cond_evaluate_expr`; the top of the stack comes first. -/
def condStep (bools : List (Option Bool)) (e : CondExpr) (stack : List Bool) :
    Except Stop (List Bool) :=
  match e with
  | .bool num =>
    if stack.length = maxDepth then .error .undefined
    else
      match boolState bools num with
      | some state => .ok (state :: stack)
      | none => .error .wild
  | .not =>
    match stack with
    | x :: stack => .ok ((!x) :: stack)
    | [] => .error .undefined
  | .or => binary (· || ·) stack
  | .and => binary (· && ·) stack
  | .xor => binary Bool.xor stack
  | .eq => binary (· == ·) stack
  | .neq => binary (· != ·) stack
  | .other => .error .undefined

def condLoop (bools : List (Option Bool)) (expr : List CondExpr) (stack : List Bool) :
    Except Stop (List Bool) := expr.foldlM (fun stack e => condStep bools e stack) stack

/-- `cond_evaluate_expr`: -1, 0 or 1. `s0` is what the first cell of the array `s` holds
before anything is written to it. -/
def condEvaluateExpr (bools : List (Option Bool)) (expr : List CondExpr) (s0 : Int) : Option Int :=
  match condLoop bools expr [] with
  | .error .wild => none
  | .error .undefined => some (-1)
  | .ok stack => some ((stack.getLast?.map fun x => if x then 1 else 0).getD s0)

/-! ## Rules -/

/-- `struct cond_node`; the lists name nodes of `te_cond_avtab`. -/
structure CondNode where
  curState : Int
  expr : List CondExpr
  trueList : List ℕ
  falseList : List ℕ

def CondNode.rules (node : CondNode) : List ℕ := node.trueList ++ node.falseList

/-- `key.specified` of the nodes of `te_cond_avtab`. -/
abbrev Specified := ℕ → BitVec 16

/-- One of the loops of `evaluate_cond_node`. -/
def switchRules (on : Bool) (list : List ℕ) (specified : Specified) : Specified :=
  list.foldl (fun specified rule =>
    Function.update specified rule (setEnabled on (specified rule))) specified

def evaluateCondNode (bools : List (Option Bool)) (s0 : Int) (node : CondNode)
    (specified : Specified) : Option (CondNode × Specified) :=
  (condEvaluateExpr bools node.expr s0).map fun newState =>
    if newState ≠ node.curState then
      ({ node with curState := newState },
        switchRules (!decide (newState ≠ 0)) node.falseList
          (switchRules (!decide (newState ≤ 0)) node.trueList specified))
    else (node, specified)

/-- The loop of `security_set_bools` over the conditional nodes; `s0 i` is what the stack of
the `i`-th evaluation starts with. -/
def evaluateAll (bools : List (Option Bool)) (s0 : ℕ → Int) :
    List CondNode → Specified → Option (List CondNode × Specified)
  | [], specified => some ([], specified)
  | node :: nodes, specified => do
    let (node, specified) ← evaluateCondNode bools (s0 0) node specified
    let (nodes, specified) ← evaluateAll bools (fun i => s0 (i + 1)) nodes specified
    return (node :: nodes, specified)

theorem evaluateCondNode_rules {bools : List (Option Bool)} {s0 : Int} {node node' : CondNode}
    {sp sp' : Specified} (h : evaluateCondNode bools s0 node sp = some (node', sp')) :
    node'.rules = node.rules := by
  obtain ⟨v, -, hv⟩ := Option.map_eq_some_iff.mp h
  split_ifs at hv
  · obtain ⟨rfl, -⟩ := Prod.mk.inj hv
    rfl
  · obtain ⟨rfl, -⟩ := Prod.mk.inj hv
    rfl

theorem evaluateAll_rules {bools : List (Option Bool)} {s0 : ℕ → Int} {nodes nodes' : List CondNode}
    {sp sp' : Specified} (h : evaluateAll bools s0 nodes sp = some (nodes', sp')) :
    nodes'.flatMap CondNode.rules = nodes.flatMap CondNode.rules := by
  induction nodes generalizing s0 sp nodes' with
  | nil =>
    cases h
    rfl
  | cons node nodes ih =>
    obtain ⟨⟨n, sp₁⟩, hn, h⟩ := Option.bind_eq_some_iff.mp h
    obtain ⟨⟨ns, sp₂⟩, hns, h⟩ := Option.bind_eq_some_iff.mp h
    cases h
    rw [List.flatMap_cons, List.flatMap_cons, evaluateCondNode_rules hn, ih hns]

/-- The conditional part of the policy database; no node of `te_cond_avtab` is on two lists, and a
number below `nprim` may have no boolean. -/
structure CondDb where
  bools : List (Option Bool)
  condList : List CondNode
  specified : Specified
  latestGranting : ℕ
  nodup : (condList.flatMap CondNode.rules).Nodup

def efault : Int := -14

/-- `security_set_bools`: nothing comes back when it reads a boolean that is not there. -/
def securitySetBools (p : CondDb) (values : List Int) (s0 : ℕ → Int) : Option (CondDb × Int) :=
  if values.length ≠ p.bools.length then some (p, efault)
  else if p.bools.any Option.isNone then none
  else
    let bools := values.map fun v => some (decide (v ≠ 0))
    match h : evaluateAll bools s0 p.condList p.specified with
    | none => none
    | some (nodes, specified) =>
      some (⟨bools, nodes, specified, (p.latestGranting + 1) % 2 ^ 32,
        evaluateAll_rules h ▸ p.nodup⟩, 0)

end Cupcake.Selinux.Cond
