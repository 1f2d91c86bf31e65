import Cupcake.Selinux.Avtab.Tables
import Cupcake.Selinux.Constraint
import Cupcake.Selinux.Ebitmap.Runs

/-! `context_struct_compute_av`: which permissions a pair of contexts has for a class. -/

namespace Cupcake.Selinux

open List

/-! ## The policy -/

structure RoleAllow where
  role : ℕ
  newRole : ℕ

/-- The part of `struct policydb` that a decision reads, in the form that `policydb_read` leaves
it in. -/
structure PolicyDb where
  typeAttrMap : List Ebitmap
  typeBounds : List ℕ
  classes : List (List ConstraintNode)
  roles : List Ebitmap
  roleAllow : List RoleAllow
  teAvtab : Avtab
  teCondAvtab : Avtab
  processClass : BitVec 16
  processTransPerms : BitVec 32
  types_lt : typeAttrMap.length < 2 ^ 32
  roles_lt : roles.length < 2 ^ 32
  bounds_length : typeBounds.length = typeAttrMap.length
  attr_readable : ∀ e ∈ typeAttrMap, e.Readable
  roles_readable : ∀ e ∈ roles, e.Readable
  constraints_read : ∀ c ∈ classes, ∀ k ∈ c, readCons k.expr = true
  names_readable : ∀ c ∈ classes, ∀ k ∈ c, ∀ e ∈ k.expr, e.names.Readable
  te_built : teAvtab.Built
  cond_built : teCondAvtab.Built

/-- `flex_array_get(policydb.type_attr_map_array, type - 1)` -/
def PolicyDb.attrMap (p : PolicyDb) (type : ℕ) : Option Ebitmap := p.typeAttrMap[wsub 32 type 1]?

/-- `bounds` of the type. -/
def PolicyDb.bounds (p : PolicyDb) (type : ℕ) : Option ℕ := p.typeBounds[wsub 32 type 1]?

/-! ## The decision -/

structure AvDecision where
  allowed : BitVec 32
  auditallow : BitVec 32
  auditdeny : BitVec 32

/-- `struct extended_perms` -/
structure XpermsResult where
  len : ℕ
  drivers : Fin 8 → BitVec 32

/-- What the walks over the rules fill in; without `xperms` the caller passed `NULL`. -/
structure AvState where
  avd : AvDecision
  xperms : Option XpermsResult

def AvState.init (wantXperms : Bool) : AvState :=
  ⟨⟨0, 0, 0xffffffff#32⟩, if wantXperms then some ⟨0, fun _ => 0⟩ else none⟩

/-- `datum.u.data`; `avtab_insert_node` stores no data only for extended permissions. -/
def AvtabDatum.value : AvtabDatum → BitVec 32
  | .data d => d
  | .xperms _ => 0

def computeXpermsDrivers (x : XpermsResult) (node : AvtabNode) : XpermsResult :=
  match node.datum with
  | .data _ => x
  | .xperms perms =>
    let drivers :=
      if perms.specified = 2 then fun i => x.drivers i ||| perms.perms i
      else if perms.specified = 1 then fun i =>
        if i.val = perms.driver / 32 then x.drivers i ||| BitVec.twoPow 32 (perms.driver % 32)
        else x.drivers i
      else x.drivers
    ⟨if node.key.specified &&& avtabXpermsAllowed ≠ 0 then 1 else x.len, drivers⟩

/-- What one rule of `te_avtab` adds. -/
def addRule (st : AvState) (node : AvtabNode) : AvState :=
  if node.key.specified = avtabAllowed then
    { st with avd.allowed := st.avd.allowed ||| node.datum.value }
  else if node.key.specified = avtabAuditallow then
    { st with avd.auditallow := st.avd.auditallow ||| node.datum.value }
  else if node.key.specified = avtabAuditdeny then
    { st with avd.auditdeny := st.avd.auditdeny &&& node.datum.value }
  else if node.key.specified &&& avtabXperms ≠ 0 then
    { st with xperms := st.xperms.map (computeXpermsDrivers · node) }
  else st

/-- A rule of `te_cond_avtab` that has both the flag and `AVTAB_ENABLED`. -/
def enabledWith (flag specified : BitVec 16) : Bool :=
  flag ||| avtabEnabled = specified &&& (flag ||| avtabEnabled)

/-- What one rule of `te_cond_avtab` adds: the body of the loop of `cond_compute_av`. -/
def addCondRule (st : AvState) (node : AvtabNode) : AvState :=
  let avd := st.avd
  let avd := if enabledWith avtabAllowed node.key.specified then
    { avd with allowed := avd.allowed ||| node.datum.value } else avd
  let avd := if enabledWith avtabAuditdeny node.key.specified then
    { avd with auditdeny := avd.auditdeny &&& node.datum.value } else avd
  let avd := if enabledWith avtabAuditallow node.key.specified then
    { avd with auditallow := avd.auditallow ||| node.datum.value } else avd
  ⟨avd, if node.key.specified &&& avtabEnabled ≠ 0 ∧ node.key.specified &&& avtabXperms ≠ 0 then
    st.xperms.map (computeXpermsDrivers · node) else st.xperms⟩

def condComputeAv (ctab : Avtab) (key : AvtabKey) (st : AvState) : AvState :=
  (avtabVisit ctab key).foldl addCondRule st

def avKey (i j : ℕ) (tclass : BitVec 16) : AvtabKey :=
  ⟨BitVec.ofNat 16 (i + 1), BitVec.ofNat 16 (j + 1), tclass, avtabAv ||| avtabXperms⟩

def addPair (p : PolicyDb) (tclass : BitVec 16) (i : ℕ) (st : AvState) (j : ℕ) : AvState :=
  let key := avKey i j tclass
  condComputeAv p.teCondAvtab key ((avtabVisit p.teAvtab key).foldl addRule st)

def applyConstraint (p : PolicyDb) (s t : Context) (allowed : BitVec 32) (c : ConstraintNode) :
    Option (BitVec 32) :=
  if c.permissions &&& allowed ≠ 0 then
    (constraintExprEval p.roles s t none c.expr).map fun v =>
      if v then allowed else allowed &&& ~~~ c.permissions
  else some allowed

def applyRoleAllow (p : PolicyDb) (s t : Context) (tclass : BitVec 16) (allowed : BitVec 32) :
    BitVec 32 :=
  if tclass = p.processClass ∧ allowed &&& p.processTransPerms ≠ 0 ∧ s.role ≠ t.role then
    if p.roleAllow.any fun ra => s.role = ra.role && t.role = ra.newRole then allowed
    else allowed &&& ~~~ p.processTransPerms
  else allowed

/-- The checks of `type_attribute_bounds_av` for the bounded pairs: the permissions to mask. -/
def boundsMask (lo : Context → Context → Option (BitVec 32)) (allowed : BitVec 32) :
    List (Context × Context) → BitVec 32 → Option (BitVec 32)
  | [], masked => some masked
  | (s, t) :: rest, _ => do
    let loAllowed ← lo s t
    if loAllowed &&& allowed = allowed then some 0
    else boundsMask lo allowed rest (~~~ loAllowed &&& allowed)

def typeAttributeBoundsAv (p : PolicyDb) (lo : Context → Context → Option (BitVec 32))
    (s t : Context) (allowed : BitVec 32) : Option (BitVec 32) := do
  let source ← p.bounds s.type
  let target ← p.bounds t.type
  let loS := { s with type := source }
  let loT := { t with type := target }
  let pairs := (if source ≠ 0 then [(loS, t)] else []) ++
    (if target ≠ 0 then [(s, loT)] else []) ++
    (if source ≠ 0 ∧ target ≠ 0 then [(loS, loT)] else [])
  let masked ← boundsMask lo allowed pairs 0
  return allowed &&& ~~~ masked

/-- `context_struct_compute_av`; bounded types make it call itself, and `fuel` bounds how deep.
Nothing comes back for a `BUG`. -/
def contextStructComputeAv (p : PolicyDb) : ℕ → Context → Context → BitVec 16 → Bool → Option AvState
  | 0, _, _, _, _ => none
  | fuel + 1, s, t, tclass, wantXperms =>
    let init := AvState.init wantXperms
    if tclass = 0 ∨ tclass.toNat > p.classes.length then some init
    else do
      let constraints ← p.classes[tclass.toNat - 1]?
      let sattr ← p.attrMap s.type
      let tattr ← p.attrMap t.type
      let sbits ← forEachPositiveBit sattr
      let tbits ← forEachPositiveBit tattr
      let st := sbits.foldl (fun st i => tbits.foldl (addPair p tclass i) st) init
      let allowed ← constraints.foldlM (applyConstraint p s t) st.avd.allowed
      let allowed := applyRoleAllow p s t tclass allowed
      let lo := fun s t => (contextStructComputeAv p fuel s t tclass false).map (·.avd.allowed)
      let allowed ← typeAttributeBoundsAv p lo s t allowed
      return { st with avd.allowed := allowed }

/-! ## What the rules grant -/

/-- An allow rule of `te_avtab` for a pair of attributes grants the permission. -/
def Allows (h : Avtab) (i j : ℕ) (tclass : BitVec 16) (perm : ℕ) : Prop :=
  ∃ n, h.Rule n ∧ n.key.sourceType.toNat = i + 1 ∧ n.key.targetType.toNat = j + 1 ∧
    n.key.targetClass = tclass ∧ n.key.specified = avtabAllowed ∧ n.datum.value.getLsbD perm = true

/-- An allow rule of `te_cond_avtab` that is enabled does so. -/
def CondAllows (h : Avtab) (i j : ℕ) (tclass : BitVec 16) (perm : ℕ) : Prop :=
  ∃ n, h.Rule n ∧ n.key.sourceType.toNat = i + 1 ∧ n.key.targetType.toNat = j + 1 ∧
    n.key.targetClass = tclass ∧ n.key.specified &&& avtabAllowed ≠ 0 ∧
    n.key.specified &&& avtabEnabled ≠ 0 ∧ n.datum.value.getLsbD perm = true

theorem enabledWith_allowed (x : BitVec 16) :
    enabledWith avtabAllowed x = true ↔ x &&& avtabAllowed ≠ 0 ∧ x &&& avtabEnabled ≠ 0 := by
  have ha : avtabAllowed = BitVec.twoPow 16 0 := by decide
  have he : avtabEnabled = BitVec.twoPow 16 15 := by decide
  rw [enabledWith, decide_eq_true_eq, BitVec.and_or_distrib_left, ha, he, BitVec.and_twoPow,
    BitVec.and_twoPow]
  cases x.getLsbD 0 <;> cases x.getLsbD 15 <;> decide

theorem foldl_grants {σ α : Type*} {f : σ → α → σ} {has : σ → Prop} {adds : α → Prop}
    {l : List α} (hf : ∀ a ∈ l, ∀ s, has (f s a) ↔ has s ∨ adds a) (s : σ) :
    has (l.foldl f s) ↔ has s ∨ ∃ a ∈ l, adds a := by
  induction l generalizing s with
  | nil => simp
  | cons a l ih =>
    rw [foldl_cons, ih fun b hb => hf b (mem_cons_of_mem _ hb), hf a mem_cons_self]
    simp [or_assoc]

def AvState.Has (perm : ℕ) (st : AvState) : Prop := st.avd.allowed.getLsbD perm = true

theorem addRule_has (perm : ℕ) (n : AvtabNode) (st : AvState) :
    (addRule st n).Has perm ↔
      st.Has perm ∨ n.key.specified = avtabAllowed ∧ n.datum.value.getLsbD perm = true := by
  rw [addRule, AvState.Has, AvState.Has]
  by_cases h : n.key.specified = avtabAllowed
  · simp [h, BitVec.getLsbD_or]
  · rw [if_neg h]
    split_ifs <;> simp [h]

theorem addCondRule_has (perm : ℕ) (n : AvtabNode) (st : AvState) :
    (addCondRule st n).Has perm ↔
      st.Has perm ∨ enabledWith avtabAllowed n.key.specified = true ∧
        n.datum.value.getLsbD perm = true := by
  simp only [addCondRule, AvState.Has]
  by_cases h : enabledWith avtabAllowed n.key.specified = true
  · simp only [h, if_true]
    split_ifs <;> simp [BitVec.getLsbD_or]
  · simp only [h, Bool.false_eq_true, if_false, false_and, or_false]
    split_ifs <;> rfl

theorem matchesKey_avKey {i j : ℕ} (hi : i + 1 < 2 ^ 16) (hj : j + 1 < 2 ^ 16)
    (tclass : BitVec 16) (k : AvtabKey) :
    matchesKey (avKey i j tclass) k (plainSpecified (avKey i j tclass).specified) = true ↔
      k.sourceType.toNat = i + 1 ∧ k.targetType.toNat = j + 1 ∧ k.targetClass = tclass ∧
        (avtabAv ||| avtabXperms) &&& k.specified ≠ 0 := by
  have hplain : plainSpecified (avtabAv ||| avtabXperms) = avtabAv ||| avtabXperms := by decide
  have hword : ∀ {m : ℕ} (x : BitVec 16), m < 2 ^ 16 → (BitVec.ofNat 16 m = x ↔ x.toNat = m) := by
    intro m x hm
    rw [← BitVec.toNat_inj, BitVec.toNat_ofNat, Nat.mod_eq_of_lt hm, eq_comm]
  rw [matchesKey_iff, triple_eq_iff, avKey, hplain, hword _ hi, hword _ hj, and_assoc, and_assoc,
    eq_comm (a := tclass)]

theorem and_ne_zero_of_allowed {x : BitVec 16} (h : x &&& avtabAllowed ≠ 0) :
    (avtabAv ||| avtabXperms) &&& x ≠ 0 := by
  intro h0
  apply h
  have hsub : avtabAllowed = (avtabAv ||| avtabXperms) &&& avtabAllowed := by decide
  rw [hsub, BitVec.and_comm, BitVec.and_assoc, BitVec.and_comm avtabAllowed, ← BitVec.and_assoc, h0]
  exact BitVec.zero_and

theorem addPair_has (p : PolicyDb) {i j : ℕ} (hi : i + 1 < 2 ^ 16) (hj : j + 1 < 2 ^ 16)
    (tclass : BitVec 16) (perm : ℕ) (st : AvState) :
    (addPair p tclass i st j).Has perm ↔ st.Has perm ∨
      (Allows p.teAvtab i j tclass perm ∨ CondAllows p.teCondAvtab i j tclass perm) := by
  rw [addPair, condComputeAv, foldl_grants fun n _ => addCondRule_has perm n,
    foldl_grants fun n _ => addRule_has perm n, or_assoc]
  refine or_congr_right (or_congr ?_ ?_)
  · refine exists_congr fun n => ?_
    rw [p.te_built.wf.mem_visit, matchesKey_avKey hi hj]
    constructor
    · rintro ⟨⟨hr, hs, ht, hc, -⟩, hsp, hd⟩
      exact ⟨hr, hs, ht, hc, hsp, hd⟩
    · rintro ⟨hr, hs, ht, hc, hsp, hd⟩
      refine ⟨⟨hr, hs, ht, hc, and_ne_zero_of_allowed ?_⟩, hsp, hd⟩
      rw [hsp]
      decide
  · refine exists_congr fun n => ?_
    rw [p.cond_built.wf.mem_visit, matchesKey_avKey hi hj, enabledWith_allowed]
    constructor
    · rintro ⟨⟨hr, hs, ht, hc, -⟩, ⟨ha, he⟩, hd⟩
      exact ⟨hr, hs, ht, hc, ha, he, hd⟩
    · rintro ⟨hr, hs, ht, hc, ha, he, hd⟩
      exact ⟨⟨hr, hs, ht, hc, and_ne_zero_of_allowed ha⟩, ⟨ha, he⟩, hd⟩

theorem foldl_addPair_has (p : PolicyDb) {sbits tbits : List ℕ} (hs : ∀ i ∈ sbits, i + 1 < 2 ^ 16)
    (ht : ∀ j ∈ tbits, j + 1 < 2 ^ 16) (tclass : BitVec 16) (perm : ℕ) (st : AvState) :
    (sbits.foldl (fun st i => tbits.foldl (addPair p tclass i) st) st).Has perm ↔
      st.Has perm ∨ ∃ i ∈ sbits, ∃ j ∈ tbits,
        (Allows p.teAvtab i j tclass perm ∨ CondAllows p.teCondAvtab i j tclass perm) := by
  apply foldl_grants
  intro i hi st
  apply foldl_grants
  intro j hj st
  exact addPair_has p (hs i hi) (ht j hj) tclass perm st

/-! ## What constraints and roles take away -/

theorem getLsbD_and_not {x y : BitVec 32} {perm : ℕ} :
    (x &&& ~~~ y).getLsbD perm = true ↔ x.getLsbD perm = true ∧ ¬ y.getLsbD perm = true := by
  rw [BitVec.getLsbD_and, BitVec.getLsbD_not]
  by_cases h : perm < 32
  · simp [h]
  · simp [h, BitVec.getLsbD_of_ge x perm (not_lt.mp h)]

theorem and_ne_zero_of_getLsbD {x y : BitVec 32} {perm : ℕ} (hx : x.getLsbD perm = true)
    (hy : y.getLsbD perm = true) : x &&& y ≠ 0 := by
  intro h
  have hbit : (x &&& y).getLsbD perm = true := by rw [BitVec.getLsbD_and, hx, hy, Bool.and_self]
  rw [h] at hbit
  simp at hbit

def ConstraintNode.Satisfied (p : PolicyDb) (s t : Context) (c : ConstraintNode) : Prop :=
  Selinux.Satisfied p.roles s t c.expr

/-- The evaluation gives back whether the constraint is satisfied. -/
def ConstraintNode.Evaluates (p : PolicyDb) (s t : Context) (c : ConstraintNode) : Prop :=
  ∃ v, constraintExprEval p.roles s t none c.expr = some v ∧ (v = true ↔ c.Satisfied p s t)

theorem exists_getLsbD_of_ne_zero {x y : BitVec 32} (h : x &&& y ≠ 0) :
    ∃ perm, x.getLsbD perm = true ∧ y.getLsbD perm = true := by
  by_contra hno
  apply h
  apply BitVec.eq_of_getLsbD_eq
  intro perm _
  have hbit : ¬ (x &&& y).getLsbD perm = true := by
    rw [BitVec.getLsbD_and, Bool.and_eq_true]
    exact fun hp => hno ⟨perm, hp⟩
  simpa using hbit

section

variable {p : PolicyDb} {s t : Context} {c : ConstraintNode} {allowed : BitVec 32}

theorem applyConstraint_spec (hv : ∀ perm, c.permissions.getLsbD perm = true →
      allowed.getLsbD perm = true → c.Evaluates p s t) :
    ∃ allowed', applyConstraint p s t allowed c = some allowed' ∧
      ∀ perm, allowed'.getLsbD perm = true ↔ allowed.getLsbD perm = true ∧
        (c.permissions.getLsbD perm = true → c.Satisfied p s t) := by
  rw [applyConstraint]
  by_cases h : c.permissions &&& allowed ≠ 0
  · obtain ⟨perm, hcp, hap⟩ := exists_getLsbD_of_ne_zero h
    obtain ⟨v, hv, hiff⟩ := hv perm hcp hap
    rw [if_pos h, hv]
    refine ⟨_, rfl, ?_⟩
    intro perm
    rw [← hiff]
    cases v with
    | true => simp
    | false =>
      change (allowed &&& ~~~ c.permissions).getLsbD perm = true ↔ _
      rw [getLsbD_and_not]
      simp
  · rw [if_neg h]
    refine ⟨allowed, rfl, ?_⟩
    intro perm
    refine ⟨fun ha => ⟨ha, fun hc => ?_⟩, fun ha => ha.1⟩
    exact absurd (and_ne_zero_of_getLsbD hc ha) h

/-- Only a constraint that covers a permission which those before it have left is evaluated. -/
theorem foldlM_applyConstraint {cs : List ConstraintNode} (hv : ∀ pre c post,
      cs = pre ++ c :: post → ∀ perm, c.permissions.getLsbD perm = true →
      allowed.getLsbD perm = true →
      (∀ k ∈ pre, k.permissions.getLsbD perm = true → k.Satisfied p s t) → c.Evaluates p s t) :
    ∃ allowed', cs.foldlM (applyConstraint p s t) allowed = some allowed' ∧
      ∀ perm, allowed'.getLsbD perm = true ↔ allowed.getLsbD perm = true ∧
        ∀ c ∈ cs, c.permissions.getLsbD perm = true → c.Satisfied p s t := by
  induction cs generalizing allowed with
  | nil => exact ⟨allowed, rfl, by simp⟩
  | cons c cs ih =>
    obtain ⟨a₁, h₁, hp₁⟩ := applyConstraint_spec fun perm hcp hap =>
      hv [] c cs rfl perm hcp hap (by simp)
    obtain ⟨a₂, h₂, hp₂⟩ := ih fun pre k post hcs perm hcp hap hpre =>
      hv (c :: pre) k post (by rw [hcs, cons_append]) perm hcp ((hp₁ perm).mp hap).1
        (forall_mem_cons.mpr ⟨((hp₁ perm).mp hap).2, hpre⟩)
    refine ⟨a₂, ?_, ?_⟩
    · rw [foldlM_cons, h₁]
      exact h₂
    · intro perm
      rw [hp₂, hp₁, forall_mem_cons, and_assoc]

end

theorem applyRoleAllow_spec (p : PolicyDb) (s t : Context) (tclass : BitVec 16)
    (allowed : BitVec 32) (perm : ℕ) :
    (applyRoleAllow p s t tclass allowed).getLsbD perm = true ↔
      allowed.getLsbD perm = true ∧ (tclass = p.processClass →
        p.processTransPerms.getLsbD perm = true → s.role ≠ t.role →
        ∃ ra ∈ p.roleAllow, ra.role = s.role ∧ ra.newRole = t.role) := by
  have hany : (p.roleAllow.any fun ra => s.role = ra.role && t.role = ra.newRole) = true ↔
      ∃ ra ∈ p.roleAllow, ra.role = s.role ∧ ra.newRole = t.role := by
    rw [any_eq_true]
    refine exists_congr fun ra => and_congr_right fun _ => ?_
    rw [Bool.and_eq_true, decide_eq_true_eq, decide_eq_true_eq, eq_comm, eq_comm (a := t.role)]
  rw [applyRoleAllow, ← hany]
  by_cases h : tclass = p.processClass ∧ allowed &&& p.processTransPerms ≠ 0 ∧ s.role ≠ t.role
  · rw [if_pos h]
    by_cases ha : (p.roleAllow.any fun ra => s.role = ra.role && t.role = ra.newRole) = true
    · rw [if_pos ha]
      tauto
    · rw [if_neg ha, getLsbD_and_not]
      tauto
  · rw [if_neg h]
    refine ⟨fun hp => ⟨hp, fun hc ht hr => ?_⟩, fun hp => hp.1⟩
    exact absurd ⟨hc, and_ne_zero_of_getLsbD hp ht, hr⟩ h

/-! ## The decision as a whole -/

/-- `i` is among the attributes of the type of a context. -/
def Attribute (p : PolicyDb) (c : Context) (i : ℕ) : Prop :=
  ∃ e, p.attrMap c.type = some e ∧ Mem e.node i

/-- A context of the policy whose type has no bounds. -/
structure Unbounded (p : PolicyDb) (c : Context) : Prop where
  role : RoleIn p.roles c
  type_pos : 1 ≤ c.type
  type_le : c.type ≤ p.typeAttrMap.length
  bounds : p.bounds c.type = some 0

/-- A rule for some pair of attributes grants the permission. -/
def RuleGrants (p : PolicyDb) (s t : Context) (tclass : BitVec 16) (perm : ℕ) : Prop :=
  ∃ i, Attribute p s i ∧ ∃ j, Attribute p t j ∧
    (Allows p.teAvtab i j tclass perm ∨ CondAllows p.teCondAvtab i j tclass perm)

/-- The permission is granted by a rule and not taken away. -/
structure Granted (p : PolicyDb) (s t : Context) (tclass : BitVec 16)
    (constraints : List ConstraintNode) (perm : ℕ) : Prop where
  rule : RuleGrants p s t tclass perm
  constrained : ∀ c ∈ constraints, c.permissions.getLsbD perm = true → c.Satisfied p s t
  transition : tclass = p.processClass → p.processTransPerms.getLsbD perm = true →
    s.role ≠ t.role → ∃ ra ∈ p.roleAllow, ra.role = s.role ∧ ra.newRole = t.role

theorem PolicyDb.attrMap_of_bounds {p : PolicyDb} {type : ℕ} (h : (p.bounds type).isSome) :
    ∃ e, p.attrMap type = some e ∧ forEachPositiveBit e = some (bitList e.node) := by
  have hlt : wsub 32 type 1 < p.typeAttrMap.length := by
    obtain ⟨b, hb⟩ := Option.isSome_iff_exists.mp h
    rw [← p.bounds_length]
    exact (List.getElem?_eq_some_iff.mp hb).1
  have hread := p.attr_readable _ (getElem_mem hlt)
  exact ⟨_, List.getElem?_eq_getElem hlt, forEachPositiveBit_eq hread.2 hread.1⟩

theorem Unbounded.attrMap {p : PolicyDb} {c : Context} (h : Unbounded p c) :
    ∃ e, p.attrMap c.type = some e ∧ forEachPositiveBit e = some (bitList e.node) ∧
      ∀ i, i ∈ bitList e.node ↔ Attribute p c i := by
  obtain ⟨e, hget, hbits⟩ := PolicyDb.attrMap_of_bounds (Option.isSome_of_eq_some h.bounds)
  refine ⟨e, hget, hbits, ?_⟩
  intro i
  rw [mem_bitList]
  constructor
  · exact fun hi => ⟨_, hget, hi⟩
  · rintro ⟨e, he, hi⟩
    rw [hget] at he
    rwa [Option.some.inj he]

theorem typeAttributeBoundsAv_unbounded {p : PolicyDb} {s t : Context} (hs : Unbounded p s)
    (ht : Unbounded p t) (lo : Context → Context → Option (BitVec 32)) (allowed : BitVec 32) :
    typeAttributeBoundsAv p lo s t allowed = some allowed := by
  have hkeep : allowed &&& ~~~ 0#32 = allowed := by
    apply BitVec.eq_of_getLsbD_eq
    intro i hi
    rw [BitVec.getLsbD_and, BitVec.getLsbD_not]
    simp [hi]
  unfold typeAttributeBoundsAv
  rw [hs.bounds, ht.bounds]
  exact congrArg some hkeep

/-- A decision is right when the numbers of the attributes fit a key and the codes are known of
the constraints that are evaluated: those that cover a permission which a rule grants and the
constraints before them leave. -/
theorem contextStructComputeAv_allowed (p : PolicyDb) (s t : Context) (tclass : BitVec 16)
    (constraints : List ConstraintNode) (fuel : ℕ) (wantXperms : Bool)
    (hs : Unbounded p s) (ht : Unbounded p t) (hclass : tclass ≠ 0)
    (hcons : p.classes[tclass.toNat - 1]? = some constraints)
    (hsattr : ∀ i, Attribute p s i → i + 1 < 2 ^ 16)
    (htattr : ∀ j, Attribute p t j → j + 1 < 2 ^ 16)
    (hcodes : ∀ pre c post, constraints = pre ++ c :: post → ∀ perm,
      c.permissions.getLsbD perm = true → RuleGrants p s t tclass perm →
      (∀ k ∈ pre, k.permissions.getLsbD perm = true → k.Satisfied p s t) →
      ∀ e ∈ c.expr, codesOk e = true) :
    ∃ st, contextStructComputeAv p (fuel + 1) s t tclass wantXperms = some st ∧
      ∀ perm, st.avd.allowed.getLsbD perm = true ↔ Granted p s t tclass constraints perm := by
  obtain ⟨se, hse, hsbits, hsmem⟩ := hs.attrMap
  obtain ⟨te, hte, htbits, htmem⟩ := ht.attrMap
  have hvalid : ¬ (tclass = 0 ∨ tclass.toNat > p.classes.length) := by
    rintro (h | h)
    · exact hclass h
    · rw [List.getElem?_eq_none (by omega)] at hcons
      cases hcons
  set st := (bitList se.node).foldl (fun st i => (bitList te.node).foldl (addPair p tclass i) st)
    (AvState.init wantXperms) with hst
  have hrule : ∀ perm, st.avd.allowed.getLsbD perm = true ↔ RuleGrants p s t tclass perm := by
    intro perm
    have hgrants := foldl_addPair_has p (fun i hi => hsattr i ((hsmem i).mp hi))
      (fun j hj => htattr j ((htmem j).mp hj)) tclass perm (AvState.init wantXperms)
    have hinit : ¬ (AvState.init wantXperms).Has perm := by simp [AvState.Has, AvState.init]
    simp only [← hst, hinit, false_or, hsmem, htmem] at hgrants
    exact hgrants
  have hmem : constraints ∈ p.classes := mem_of_getElem? hcons
  have heval : ∀ pre c post, constraints = pre ++ c :: post → ∀ perm,
      c.permissions.getLsbD perm = true → st.avd.allowed.getLsbD perm = true →
      (∀ k ∈ pre, k.permissions.getLsbD perm = true → k.Satisfied p s t) → c.Evaluates p s t := by
    intro pre c post hcs perm hcp hap hpre
    have hc : c ∈ constraints := by simp [hcs]
    exact constraintExprEval_iff p.roles_readable p.roles_lt hs.role ht.role
      (p.names_readable _ hmem c hc)
      (hcodes pre c post hcs perm hcp ((hrule perm).mp hap) hpre)
      (p.constraints_read _ hmem c hc)
  obtain ⟨allowed, hfold, hallowed⟩ := foldlM_applyConstraint heval
  refine ⟨{ st with avd.allowed := applyRoleAllow p s t tclass allowed }, ?_, ?_⟩
  · simp only [contextStructComputeAv, if_neg hvalid, hcons, hse, hte, hsbits, htbits, ← hst, hfold,
      typeAttributeBoundsAv_unbounded hs ht, Option.bind_eq_bind, Option.bind_some]
    rfl
  · intro perm
    rw [applyRoleAllow_spec, hallowed, hrule]
    constructor
    · rintro ⟨⟨hr, hcon⟩, htrans⟩
      exact ⟨hr, hcon, htrans⟩
    · rintro ⟨hr, hcon, htrans⟩
      exact ⟨⟨hr, hcon⟩, htrans⟩

/-! ## Policies with one rule -/

def oneRule : AvtabNode := ⟨⟨1#16, 2#16, 1#16, avtabAllowed⟩, .data 1#32⟩

def oneRulePolicy (attrs : Ebitmap) (h : attrs.Readable) : PolicyDb where
  typeAttrMap := [⟨[⟨fun i => if i = 0 then 1#64 else 0, 0⟩], 384⟩, attrs]
  typeBounds := [0, 0]
  classes := [[]]
  roles := [ebitmapInit]
  roleAllow := []
  teAvtab := (avtabInsert (avtabAlloc 1) oneRule true).1
  teCondAvtab := avtabAlloc 0
  processClass := 2#16
  processTransPerms := 0#32
  types_lt := by norm_num
  roles_lt := by decide
  bounds_length := rfl
  attr_readable := by
    intro e he
    obtain rfl | he := List.mem_cons.mp he
    · exact ⟨by decide, ⟨by decide, by decide, trivial⟩⟩
    · exact mem_singleton.mp he ▸ h
  roles_readable := by
    intro e he
    rw [mem_singleton.mp he]
    exact ⟨by decide, trivial⟩
  constraints_read := by simp
  names_readable := by simp
  te_built := ⟨1, .step (i := .insert oneRule true) .init trivial rfl⟩
  cond_built := ⟨0, .init⟩

def smallAttrs : Ebitmap := ⟨[⟨fun i => if i = 0 then 3#64 else 0, 0⟩], 384⟩

def largeAttrs : Ebitmap :=
  ⟨[⟨fun i => if i = 0 then 2#64 else 0, 0⟩, ⟨fun i => if i = 4 then 1#64 else 0, 65280⟩], 65664⟩

theorem smallAttrs_readable : smallAttrs.Readable :=
  ⟨by decide, by decide, by decide, trivial⟩

theorem largeAttrs_readable : largeAttrs.Readable :=
  ⟨by decide, ⟨by decide, by decide, by decide, by decide, trivial⟩⟩

theorem oneRulePolicy_unbounded {attrs : Ebitmap} (h : attrs.Readable) :
    Unbounded (oneRulePolicy attrs h) (plainContext 1 2) :=
  ⟨⟨le_rfl, le_rfl⟩, one_le_two, le_rfl, rfl⟩

theorem attribute_oneRulePolicy {attrs : Ebitmap} (h : attrs.Readable) (i : ℕ) :
    Attribute (oneRulePolicy attrs h) (plainContext 1 2) i ↔ i ∈ bitList attrs.node := by
  rw [mem_bitList]
  constructor
  · rintro ⟨e, he, hi⟩
    obtain rfl : attrs = e := Option.some.inj he
    exact hi
  · exact fun hi => ⟨attrs, rfl, hi⟩

theorem contextStructComputeAv_smallAttrs :
    ∃ st, contextStructComputeAv (oneRulePolicy smallAttrs smallAttrs_readable) 1 (plainContext 1 2)
        (plainContext 1 2) 1#16 true = some st ∧
      ∀ perm, st.avd.allowed.getLsbD perm = true ↔
        Granted (oneRulePolicy smallAttrs smallAttrs_readable) (plainContext 1 2)
          (plainContext 1 2) 1#16 [] perm := by
  have hsmall : ∀ i, Attribute (oneRulePolicy smallAttrs smallAttrs_readable) (plainContext 1 2) i →
      i + 1 < 2 ^ 16 := by
    intro i hi
    rw [attribute_oneRulePolicy] at hi
    have hall : ∀ i ∈ bitList smallAttrs.node, i + 1 < 2 ^ 16 := by decide +kernel
    exact hall i hi
  exact contextStructComputeAv_allowed _ _ _ _ _ 0 true (oneRulePolicy_unbounded _)
    (oneRulePolicy_unbounded _) (by decide) rfl hsmall hsmall (by simp)

theorem contextStructComputeAv_aliases :
    ∃ st, contextStructComputeAv (oneRulePolicy largeAttrs largeAttrs_readable) 1 (plainContext 1 2)
        (plainContext 1 2) 1#16 true = some st ∧ st.avd.allowed.getLsbD 0 = true ∧
      ¬ Granted (oneRulePolicy largeAttrs largeAttrs_readable) (plainContext 1 2)
        (plainContext 1 2) 1#16 [] 0 := by
  have hrun : (contextStructComputeAv (oneRulePolicy largeAttrs largeAttrs_readable) 1
      (plainContext 1 2) (plainContext 1 2) 1#16 true).map (·.avd.allowed.getLsbD 0) =
        some true := by
    decide +kernel
  obtain ⟨st, hst, hbit⟩ := Option.map_eq_some_iff.mp hrun
  refine ⟨st, hst, hbit, ?_⟩
  rintro ⟨⟨i, hi, j, -, hrule⟩, -, -⟩
  have hone : ∀ n, (oneRulePolicy largeAttrs largeAttrs_readable).teAvtab.Rule n → n = oneRule := by
    rintro n ⟨table, ht, b, hn⟩
    obtain rfl := Option.some.inj ht
    by_cases hb : b = avtabHash oneRule.key (avtabAlloc 1).mask
    · subst hb
      rw [Function.update_self] at hn
      exact mem_singleton.mp hn
    · rw [Function.update_of_ne hb] at hn
      exact absurd hn List.not_mem_nil
  rw [attribute_oneRulePolicy] at hi
  have hbits : ∀ i ∈ bitList largeAttrs.node, i ≠ 0 := by decide +kernel
  rcases hrule with ⟨n, hn, hsrc, -⟩ | ⟨n, ⟨table, ht, -⟩, -⟩
  · rw [hone n hn] at hsrc
    exact hbits i hi (Nat.succ.inj hsrc.symm)
  · cases ht

end Cupcake.Selinux
