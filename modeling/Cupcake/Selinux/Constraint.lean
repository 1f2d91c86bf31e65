import Cupcake.Lib.Except
import Cupcake.Selinux.Context

/-! The constraints of `constraint.h`, the check of `read_cons_helper` and the stack machine of
`constraint_expr_eval`. -/

namespace Cupcake.Selinux

open List Option

inductive CexprType where
  | not
  | and
  | or
  | attr
  | names
  | other

inductive CexprOp where
  | eq
  | neq
  | dom
  | domby
  | incomp
  | other
  deriving DecidableEq, Repr

/-- `CEXPR_USER` to `CEXPR_L2H2` -/
def cexprUser : BitVec 32 := 1#32
def cexprRole : BitVec 32 := 2#32
def cexprType : BitVec 32 := 4#32
def cexprTarget : BitVec 32 := 8#32
def cexprXtarget : BitVec 32 := 16#32
def cexprL1l2 : BitVec 32 := 32#32
def cexprL1h2 : BitVec 32 := 64#32
def cexprH1l2 : BitVec 32 := 128#32
def cexprH1h2 : BitVec 32 := 256#32
def cexprL1h1 : BitVec 32 := 512#32
def cexprL2h2 : BitVec 32 := 1024#32

def cexprMaxdepth : ℕ := 5

structure ConstraintExpr where
  exprType : CexprType
  attr : BitVec 32
  op : CexprOp
  names : Ebitmap

structure ConstraintNode where
  permissions : BitVec 32
  expr : List ConstraintExpr

/-! ## Reading -/

/-- One turn of the loop of `read_cons_helper` without extra targets; the count is `depth + 1`. -/
def readStep (e : ConstraintExpr) (depth : ℕ) : Option ℕ :=
  match e.exprType with
  | .not => if depth = 0 then none else some depth
  | .and | .or => if depth < 2 then none else some (depth - 1)
  | .attr => if depth = cexprMaxdepth then none else some (depth + 1)
  | .names =>
    if e.attr &&& cexprXtarget ≠ 0 then none
    else if depth = cexprMaxdepth then none
    else some (depth + 1)
  | .other => none

def readCons (expr : List ConstraintExpr) : Bool :=
  expr.foldlM (fun depth e => readStep e depth) 0 = some 1

/-! ## Evaluating -/

inductive CexprStop where
  | deny
  | bug

def mlsLevels (attr : BitVec 32) (s t : Context) : Option (MlsLevel × MlsLevel) :=
  if attr = cexprL1l2 then some (s.range.low, t.range.low)
  else if attr = cexprL1h2 then some (s.range.low, t.range.high)
  else if attr = cexprH1l2 then some (s.range.high, t.range.low)
  else if attr = cexprH1h2 then some (s.range.high, t.range.high)
  else if attr = cexprL1h1 then some (s.range.low, s.range.high)
  else if attr = cexprL2h2 then some (t.range.low, t.range.high)
  else none

/-- The switch at `mls_ops`. -/
def mlsOp (op : CexprOp) (l₁ l₂ : MlsLevel) : Option Bool :=
  match op with
  | .eq => some (mlsLevelEq l₁ l₂)
  | .neq => some (!mlsLevelEq l₁ l₂)
  | .dom => some (mlsLevelDom l₁ l₂)
  | .domby => some (mlsLevelDom l₂ l₁)
  | .incomp => some (mlsLevelIncomp l₂ l₁)
  | .other => none

/-- The last switch of the case `CEXPR_ATTR`. -/
def valueOp (op : CexprOp) (val₁ val₂ : ℕ) : Option Bool :=
  match op with
  | .eq => some (val₁ = val₂)
  | .neq => some (val₁ ≠ val₂)
  | _ => none

/-- `role_val_to_struct[val - 1]`; `roles` are the `dominates` bitmaps of the roles. -/
def roleDominates (roles : List Ebitmap) (val : ℕ) : Option Ebitmap := roles[wsub 32 val 1]?

def getNumber (e : Ebitmap) (val : ℕ) : Option Bool := ebitmapGetBit e (wsub 32 val 1)

/-- The case `CEXPR_ROLE`. -/
def roleOp (roles : List Ebitmap) (op : CexprOp) (val₁ val₂ : ℕ) : Option Bool := do
  let r₁ ← roleDominates roles val₁
  let r₂ ← roleDominates roles val₂
  match op with
  | .dom => getNumber r₁ val₂
  | .domby => getNumber r₂ val₁
  | .incomp =>
    let b₁ ← getNumber r₁ val₂
    let b₂ ← getNumber r₂ val₁
    return !b₁ && !b₂
  | op => valueOp op val₁ val₂

/-- What the case `CEXPR_ATTR` pushes; nothing for a `BUG`. -/
def attrValue (roles : List Ebitmap) (e : ConstraintExpr) (s t : Context) : Option Bool :=
  if e.attr = cexprUser then valueOp e.op s.user t.user
  else if e.attr = cexprType then valueOp e.op s.type t.type
  else if e.attr = cexprRole then roleOp roles e.op s.role t.role
  else
    match mlsLevels e.attr s t with
    | some (l₁, l₂) => mlsOp e.op l₁ l₂
    | none => none

/-- The context that a `CEXPR_NAMES` is about. -/
def namesContext (e : ConstraintExpr) (s t : Context) (x : Option Context) : Option Context :=
  if e.attr &&& cexprTarget ≠ 0 then some t
  else if e.attr &&& cexprXtarget ≠ 0 then x
  else some s

def namesField (e : ConstraintExpr) (c : Context) : Option ℕ :=
  if e.attr &&& cexprUser ≠ 0 then some c.user
  else if e.attr &&& cexprRole ≠ 0 then some c.role
  else if e.attr &&& cexprType ≠ 0 then some c.type
  else none

/-- What the case `CEXPR_NAMES` pushes. -/
def namesValue (e : ConstraintExpr) (s t : Context) (x : Option Context) : Option Bool := do
  let c ← namesContext e s t x
  let val ← namesField e c
  match e.op with
  | .eq => getNumber e.names val
  | .neq => (getNumber e.names val).map not
  | _ => none

def pushValue (value : Option Bool) (stack : List Bool) : Except CexprStop (List Bool) :=
  if stack.length = cexprMaxdepth then .error .deny
  else
    match value with
    | some v => .ok (v :: stack)
    | none => .error .bug

/-- One turn of the loop of `constraint_expr_eval`. -/
def evalStep (roles : List Ebitmap) (s t : Context) (x : Option Context) (e : ConstraintExpr)
    (stack : List Bool) : Except CexprStop (List Bool) :=
  match e.exprType, stack with
  | .not, v :: stack => .ok ((!v) :: stack)
  | .and, v :: w :: stack => .ok ((w && v) :: stack)
  | .or, v :: w :: stack => .ok ((w || v) :: stack)
  | .attr, stack => pushValue (attrValue roles e s t) stack
  | .names, stack => pushValue (namesValue e s t x) stack
  | _, _ => .error .bug

def constraintExprEval (roles : List Ebitmap) (s t : Context) (x : Option Context)
    (expr : List ConstraintExpr) : Option Bool :=
  match expr.foldlM (fun stack e => evalStep roles s t x e stack) [] with
  | .ok [v] => some v
  | .ok _ => none
  | .error .deny => some false
  | .error .bug => none

/-! ## What an expression means -/

def Compares (op : CexprOp) (val₁ val₂ : ℕ) : Prop :=
  op = .eq ∧ val₁ = val₂ ∨ op = .neq ∧ val₁ ≠ val₂

def RoleDom (roles : List Ebitmap) (val₁ val₂ : ℕ) : Prop :=
  ∃ r, roleDominates roles val₁ = some r ∧ Mem r.node (wsub 32 val₂ 1)

def RolesRelated (roles : List Ebitmap) (op : CexprOp) (val₁ val₂ : ℕ) : Prop :=
  match op with
  | .dom => RoleDom roles val₁ val₂
  | .domby => RoleDom roles val₂ val₁
  | .incomp => ¬ RoleDom roles val₁ val₂ ∧ ¬ RoleDom roles val₂ val₁
  | op => Compares op val₁ val₂

def LevelsRelated (op : CexprOp) (l₁ l₂ : MlsLevel) : Prop :=
  match op with
  | .eq => l₁ = l₂
  | .neq => l₁ ≠ l₂
  | .dom => mlsLevelDom l₁ l₂ = true
  | .domby => mlsLevelDom l₂ l₁ = true
  | .incomp => ¬ mlsLevelDom l₁ l₂ = true ∧ ¬ mlsLevelDom l₂ l₁ = true
  | .other => False

def AttrHolds (roles : List Ebitmap) (s t : Context) (e : ConstraintExpr) : Prop :=
  if e.attr = cexprUser then Compares e.op s.user t.user
  else if e.attr = cexprType then Compares e.op s.type t.type
  else if e.attr = cexprRole then RolesRelated roles e.op s.role t.role
  else ∃ l₁ l₂, mlsLevels e.attr s t = some (l₁, l₂) ∧ LevelsRelated e.op l₁ l₂

/-- The user, the role or the type of a context is among the names, or is not. -/
def NamesHold (s t : Context) (e : ConstraintExpr) : Prop :=
  ∃ val, namesField e (if e.attr &&& cexprTarget ≠ 0 then t else s) = some val ∧
    (e.op = .eq ∧ Mem e.names.node (wsub 32 val 1) ∨
      e.op = .neq ∧ ¬ Mem e.names.node (wsub 32 val 1))

/-- The statement that a list in postfix order makes about two contexts. -/
inductive Means (roles : List Ebitmap) (s t : Context) : List ConstraintExpr → Prop → Prop
  | attr {e : ConstraintExpr} (he : e.exprType = .attr) :
      Means roles s t [e] (AttrHolds roles s t e)
  | names {e : ConstraintExpr} (he : e.exprType = .names) : Means roles s t [e] (NamesHold s t e)
  | not {e : ConstraintExpr} {l : List ConstraintExpr} {P : Prop} (he : e.exprType = .not)
      (h : Means roles s t l P) : Means roles s t (l ++ [e]) (¬ P)
  | and {e : ConstraintExpr} {l₁ l₂ : List ConstraintExpr} {P Q : Prop} (he : e.exprType = .and)
      (h₁ : Means roles s t l₁ P) (h₂ : Means roles s t l₂ Q) :
      Means roles s t (l₁ ++ l₂ ++ [e]) (P ∧ Q)
  | or {e : ConstraintExpr} {l₁ l₂ : List ConstraintExpr} {P Q : Prop} (he : e.exprType = .or)
      (h₁ : Means roles s t l₁ P) (h₂ : Means roles s t l₂ Q) :
      Means roles s t (l₁ ++ l₂ ++ [e]) (P ∨ Q)

/-- The statement that the expression makes is true. -/
def Satisfied (roles : List Ebitmap) (s t : Context) (expr : List ConstraintExpr) : Prop :=
  ∃ P, Means roles s t expr P ∧ P

/-! ## Expressions without a `BUG` -/

/-- The attribute and the operator are ones that the evaluation knows; reading does not check
this. -/
def codesOk (e : ConstraintExpr) : Bool :=
  match e.exprType with
  | .attr =>
    if e.attr = cexprUser ∨ e.attr = cexprType then e.op = .eq || e.op = .neq
    else if e.attr ∈ [cexprRole, cexprL1l2, cexprL1h2, cexprH1l2, cexprH1h2, cexprL1h1,
      cexprL2h2] then e.op ≠ .other
    else false
  | .names =>
    (e.attr &&& cexprUser ≠ 0 || e.attr &&& cexprRole ≠ 0 || e.attr &&& cexprType ≠ 0) &&
      (e.op = .eq || e.op = .neq)
  | _ => true

theorem Ebitmap.Readable.getNumber {e : Ebitmap} (h : e.Readable) (val : ℕ) :
    ∃ v, getNumber e val = some v ∧ (v = true ↔ Mem e.node (wsub 32 val 1)) := by
  rw [Selinux.getNumber, ebitmapGetBit]
  split_ifs with hlt
  · have hno : ¬ Mem e.node (wsub 32 val 1) := fun hm => absurd (h.2.lt_of_mem hm) (by omega)
    exact ⟨false, rfl, by simp [hno]⟩
  · exact getBitLoop_eq h.2 h.1 (wsub 32 val 1)

def RoleIn (roles : List Ebitmap) (c : Context) : Prop := 1 ≤ c.role ∧ c.role ≤ roles.length

theorem RoleIn.dominates {roles : List Ebitmap} {c : Context} (hr : ∀ r ∈ roles, r.Readable)
    (hlen : roles.length < 2 ^ 32) (hc : RoleIn roles c) :
    ∃ r, roleDominates roles c.role = some r ∧ r.Readable := by
  obtain ⟨h1, hle⟩ := hc
  have hlt : wsub 32 c.role 1 < roles.length := by
    rw [wsub_of_le h1 (hle.trans_lt hlen)]
    omega
  exact ⟨_, getElem?_eq_getElem hlt, hr _ (getElem_mem hlt)⟩

theorem valueOp_iff {op : CexprOp} (h : op = .eq ∨ op = .neq) (val₁ val₂ : ℕ) :
    ∃ v, valueOp op val₁ val₂ = some v ∧ (v = true ↔ Compares op val₁ val₂) := by
  rcases h with rfl | rfl
  · exact ⟨_, rfl, by simp [Compares]⟩
  · exact ⟨_, rfl, by simp [Compares]⟩

theorem mlsOp_iff {op : CexprOp} (h : op ≠ .other) (l₁ l₂ : MlsLevel) :
    ∃ v, mlsOp op l₁ l₂ = some v ∧ (v = true ↔ LevelsRelated op l₁ l₂) := by
  have heq : mlsLevelEq l₁ l₂ = true ↔ l₁ = l₂ := by
    simp [mlsLevelEq, ebitmapCmp_iff, MlsLevel.ext_iff]
  cases op with
  | eq => exact ⟨_, rfl, heq⟩
  | neq => exact ⟨_, rfl, by simp [LevelsRelated, ← heq]⟩
  | dom | domby => exact ⟨_, rfl, Iff.rfl⟩
  | incomp => exact ⟨_, rfl, by simp [LevelsRelated, mlsLevelIncomp, and_comm]⟩
  | other => exact absurd rfl h

section

variable {roles : List Ebitmap} {s t : Context} {x : Option Context} {e : ConstraintExpr}

section

variable (hr : ∀ r ∈ roles, r.Readable) (hlen : roles.length < 2 ^ 32) (hs : RoleIn roles s)
  (ht : RoleIn roles t)

include hr hlen hs ht

theorem roleOp_iff {op : CexprOp} (hop : op ≠ .other) :
    ∃ v, roleOp roles op s.role t.role = some v ∧
      (v = true ↔ RolesRelated roles op s.role t.role) := by
  obtain ⟨r₁, h₁, hr₁⟩ := hs.dominates hr hlen
  obtain ⟨r₂, h₂, hr₂⟩ := ht.dominates hr hlen
  obtain ⟨b₁, hb₁, hd₁⟩ := hr₁.getNumber t.role
  obtain ⟨b₂, hb₂, hd₂⟩ := hr₂.getNumber s.role
  have hdom₁ : b₁ = true ↔ RoleDom roles s.role t.role := by simp [RoleDom, h₁, hd₁]
  have hdom₂ : b₂ = true ↔ RoleDom roles t.role s.role := by simp [RoleDom, h₂, hd₂]
  simp only [roleOp, h₁, h₂, bind_eq_bind, bind_some]
  cases op with
  | eq => exact valueOp_iff (.inl rfl) ..
  | neq => exact valueOp_iff (.inr rfl) ..
  | dom => exact ⟨b₁, hb₁, hdom₁⟩
  | domby => exact ⟨b₂, hb₂, hdom₂⟩
  | incomp =>
    refine ⟨!b₁ && !b₂, ?_, by simp [RolesRelated, ← hdom₁, ← hdom₂]⟩
    simp only [hb₁, hb₂, bind_some]
    rfl
  | other => exact absurd rfl hop

theorem attrValue_iff (he : e.exprType = .attr) (hok : codesOk e = true) :
    ∃ v, attrValue roles e s t = some v ∧ (v = true ↔ AttrHolds roles s t e) := by
  simp only [codesOk, he] at hok
  rw [attrValue, AttrHolds]
  by_cases huser : e.attr = cexprUser
  · rw [if_pos huser, if_pos huser]
    exact valueOp_iff (by simpa [huser] using hok) ..
  · rw [if_neg huser, if_neg huser]
    by_cases htype : e.attr = cexprType
    · rw [if_pos htype, if_pos htype]
      exact valueOp_iff (by simpa [htype] using hok) ..
    · rw [if_neg htype, if_neg htype]
      rw [if_neg (by tauto)] at hok
      split_ifs at hok with hmem
      have hop : e.op ≠ .other := by simpa using hok
      by_cases hrole : e.attr = cexprRole
      · rw [if_pos hrole, if_pos hrole]
        exact roleOp_iff hr hlen hs ht hop
      · rw [if_neg hrole, if_neg hrole]
        simp only [List.mem_cons, List.not_mem_nil, or_false, hrole, false_or] at hmem
        obtain ⟨⟨l₁, l₂⟩, hl⟩ : ∃ l, mlsLevels e.attr s t = some l := by
          rcases hmem with h | h | h | h | h | h <;> rw [h] <;> exact ⟨_, rfl⟩
        simpa [hl] using mlsOp_iff hop l₁ l₂

end

theorem namesValue_iff (hn : e.names.Readable) (he : e.exprType = .names)
    (hx : e.attr &&& cexprXtarget = 0) (hok : codesOk e = true) :
    ∃ v, namesValue e s t x = some v ∧ (v = true ↔ NamesHold s t e) := by
  simp only [codesOk, he, Bool.and_eq_true, Bool.or_eq_true, decide_eq_true_eq] at hok
  obtain ⟨hattr, hop⟩ := hok
  have hc : namesContext e s t x = some (if e.attr &&& cexprTarget ≠ 0 then t else s) := by
    rw [namesContext, if_neg (not_not.mpr hx)]
    split_ifs <;> rfl
  have hfield : ∀ c, ∃ val, namesField e c = some val := by
    intro c
    rw [namesField]
    split_ifs with h₁ h₂ h₃
    · exact ⟨_, rfl⟩
    · exact ⟨_, rfl⟩
    · exact ⟨_, rfl⟩
    · tauto
  obtain ⟨val, hval⟩ := hfield (if e.attr &&& cexprTarget ≠ 0 then t else s)
  obtain ⟨b, hb, hmem⟩ := hn.getNumber val
  unfold namesValue
  rw [NamesHold, hc, bind_eq_bind, bind_some, hval, bind_eq_bind, bind_some]
  rcases hop with h | h
  · exact ⟨b, by rw [h, hb], by simp [h, hmem]⟩
  · exact ⟨!b, by rw [h, hb]; rfl, by simp [h, ← hmem]⟩

/-! ## What is read is a formula -/

/-- A list that is made of the lists of so many statements. -/
inductive Segments (roles : List Ebitmap) (s t : Context) : List ConstraintExpr → ℕ → Prop
  | nil : Segments roles s t [] 0
  | push {l m : List ConstraintExpr} {n : ℕ} {P : Prop} (h : Segments roles s t l n)
      (hm : Means roles s t m P) : Segments roles s t (l ++ m) (n + 1)

theorem Segments.binary {l : List ConstraintExpr} {n n' : ℕ} (h : Segments roles s t l n)
    (he : (if n < 2 then none else some (n - 1)) = some n')
    (hop : ∀ {l₁ l₂ P Q}, Means roles s t l₁ P → Means roles s t l₂ Q →
      ∃ R, Means roles s t (l₁ ++ l₂ ++ [e]) R) : Segments roles s t (l ++ [e]) n' := by
  split_ifs at he with hlt
  rcases h with _ | ⟨_ | ⟨h, h₁⟩, h₂⟩
  · exact absurd Nat.two_pos hlt
  · exact absurd Nat.one_lt_two hlt
  · obtain ⟨R, hR⟩ := hop h₁ h₂
    rw [← some.inj he, append_assoc _ _ [e], append_assoc, ← append_assoc _ _ [e]]
    exact h.push hR

theorem Segments.readStep {l : List ConstraintExpr} {n n' : ℕ} (h : Segments roles s t l n)
    (he : readStep e n = some n') : Segments roles s t (l ++ [e]) n' := by
  rw [Selinux.readStep] at he
  split at he
  · next hty =>
    split_ifs at he with h0
    cases h with
    | nil => exact absurd rfl h0
    | push h hm =>
      rw [append_assoc, ← some.inj he]
      exact h.push (hm.not hty)
  · next hty => exact h.binary he fun h₁ h₂ => ⟨_, h₁.and hty h₂⟩
  · next hty => exact h.binary he fun h₁ h₂ => ⟨_, h₁.or hty h₂⟩
  · next hty =>
    split_ifs at he
    exact some.inj he ▸ h.push (.attr hty)
  · next hty =>
    split_ifs at he
    exact some.inj he ▸ h.push (.names hty)
  · cases he

theorem exists_means {expr : List ConstraintExpr} (h : readCons expr = true) :
    ∃ P, Means roles s t expr P := by
  have hloop : ∀ (expr l : List ConstraintExpr) (n n' : ℕ), Segments roles s t l n →
      expr.foldlM (fun depth e => Selinux.readStep e depth) n = some n' →
      Segments roles s t (l ++ expr) n' := by
    intro expr
    induction expr with
    | nil => exact fun l n n' hl h => by rwa [append_nil, ← some.inj h]
    | cons e expr ih =>
      intro l n n' hl h
      obtain ⟨n₁, h₁, h⟩ := bind_eq_some_iff.mp h
      rw [append_cons]
      exact ih _ n₁ n' (hl.readStep h₁) h
  have hone := hloop expr [] 0 1 .nil (of_decide_eq_true h)
  rcases hone with _ | ⟨_ | _, hm⟩
  exact ⟨_, hm⟩

/-! ## Evaluating a formula -/

/-- The list is evaluated to a truth value of the statement, on top of what was there. -/
def Pushes (roles : List Ebitmap) (s t : Context) (x : Option Context) (l : List ConstraintExpr)
    (P : Prop) : Prop :=
  ∀ (stack : List Bool) {depth : ℕ},
    l.foldlM (fun depth e => readStep e depth) stack.length = some depth →
    depth = stack.length + 1 ∧ ∃ v, (v = true ↔ P) ∧
      l.foldlM (fun stack e => evalStep roles s t x e stack) stack = .ok (v :: stack)

theorem Pushes.two {l₁ l₂ : List ConstraintExpr} {P Q : Prop} (h₁ : Pushes roles s t x l₁ P)
    (h₂ : Pushes roles s t x l₂ Q) (stack : List Bool) {depth : ℕ}
    (hread : (l₁ ++ l₂ ++ [e]).foldlM (fun depth e => readStep e depth) stack.length = some depth) :
    readStep e (stack.length + 2) = some depth ∧ ∃ v w, (v = true ↔ P) ∧ (w = true ↔ Q) ∧
      (l₁ ++ l₂ ++ [e]).foldlM (fun stack e => evalStep roles s t x e stack) stack =
        evalStep roles s t x e (w :: v :: stack) := by
  rw [foldlM_append, foldlM_append] at hread
  obtain ⟨d₂, hd, hread⟩ := bind_eq_some_iff.mp hread
  obtain ⟨d₁, hd₁, hd₂⟩ := bind_eq_some_iff.mp hd
  obtain ⟨rfl, v, hv, hrun₁⟩ := h₁ stack hd₁
  obtain ⟨rfl, w, hw, hrun₂⟩ := h₂ (v :: stack) hd₂
  refine ⟨by simpa using hread, v, w, hv, hw, ?_⟩
  rw [foldlM_append, foldlM_append, hrun₁, ok_bind, hrun₂, ok_bind, foldlM_cons]
  exact bind_pure _

variable (hr : ∀ r ∈ roles, r.Readable) (hlen : roles.length < 2 ^ 32) (hs : RoleIn roles s)
  (ht : RoleIn roles t)

include hr hlen hs ht

/-- The evaluation of a list that was read pushes the truth value of what the list means. -/
theorem Means.pushes {l : List ConstraintExpr} {P : Prop} (h : Means roles s t l P)
    (hl : ∀ e ∈ l, e.names.Readable ∧ codesOk e = true) : Pushes roles s t x l P := by
  intro stack depth hread
  induction h generalizing stack depth with
  | @attr e he =>
    obtain ⟨v, hv, hiff⟩ := attrValue_iff hr hlen hs ht he (hl e mem_cons_self).2
    simp only [foldlM_cons, foldlM_nil, bind_pure, readStep, he] at hread
    split_ifs at hread with hmax
    refine ⟨(some.inj hread).symm, v, hiff, ?_⟩
    simp only [foldlM_cons, foldlM_nil, bind_pure, evalStep, he, hv, pushValue, if_neg hmax]
  | @names e he =>
    simp only [foldlM_cons, foldlM_nil, bind_pure, readStep, he] at hread
    split_ifs at hread with hx hmax
    obtain ⟨v, hv, hiff⟩ := namesValue_iff (s := s) (t := t) (x := x) (hl e mem_cons_self).1 he
      (not_not.mp hx) (hl e mem_cons_self).2
    refine ⟨(some.inj hread).symm, v, hiff, ?_⟩
    simp only [foldlM_cons, foldlM_nil, bind_pure, evalStep, he, hv, pushValue, if_neg hmax]
  | @not e l P he h ih =>
    rw [foldlM_append] at hread
    obtain ⟨d, hd, hread⟩ := bind_eq_some_iff.mp hread
    obtain ⟨rfl, v, hv, hrun⟩ := ih (fun e he => hl e (mem_append_left _ he)) stack hd
    refine ⟨?_, !v, by simp [← hv], ?_⟩
    · simpa [readStep, he] using hread.symm
    · rw [foldlM_append, hrun]
      simp [evalStep, he]
  | @and e l₁ l₂ P Q he h₁ h₂ ih₁ ih₂ =>
    obtain ⟨hd, v, w, hv, hw, hrun⟩ := Pushes.two (ih₁ fun e he => hl e (by simp [he]))
      (ih₂ fun e he => hl e (by simp [he])) stack hread
    refine ⟨?_, v && w, by simp [← hv, ← hw], ?_⟩
    · simpa [readStep, he] using hd.symm
    · rw [hrun]
      simp only [evalStep, he]
  | @or e l₁ l₂ P Q he h₁ h₂ ih₁ ih₂ =>
    obtain ⟨hd, v, w, hv, hw, hrun⟩ := Pushes.two (ih₁ fun e he => hl e (by simp [he]))
      (ih₂ fun e he => hl e (by simp [he])) stack hread
    refine ⟨?_, v || w, by simp [← hv, ← hw], ?_⟩
    · simpa [readStep, he] using hd.symm
    · rw [hrun]
      simp only [evalStep, he]

theorem constraintExprEval_iff {expr : List ConstraintExpr}
    (hn : ∀ e ∈ expr, e.names.Readable) (hok : ∀ e ∈ expr, codesOk e = true)
    (hread : readCons expr = true) :
    ∃ v, constraintExprEval roles s t x expr = some v ∧
      (v = true ↔ Satisfied roles s t expr) := by
  have heval : ∀ P, Means roles s t expr P → ∃ v, (v = true ↔ P) ∧
      expr.foldlM (fun stack e => evalStep roles s t x e stack) [] = .ok [v] := fun P hP =>
    (hP.pushes hr hlen hs ht (fun e he => ⟨hn e he, hok e he⟩) [] (of_decide_eq_true hread)).2
  obtain ⟨P, hP⟩ := exists_means (s := s) (t := t) hread
  obtain ⟨v, hv, hrun⟩ := heval P hP
  refine ⟨v, by rw [constraintExprEval, hrun], fun h => ⟨P, hP, hv.mp h⟩, ?_⟩
  rintro ⟨Q, hQ, hq⟩
  obtain ⟨w, hw, hrun'⟩ := heval Q hQ
  rw [hrun] at hrun'
  cases hrun'
  exact hw.mpr hq

end

end Cupcake.Selinux
