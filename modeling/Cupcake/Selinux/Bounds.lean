import Cupcake.Selinux.ComputeAv

/-! Type bounds: `policydb_bounds_sanity_check`, and what it gives to the recursion of
`context_struct_compute_av` and `type_attribute_bounds_av`. -/

namespace Cupcake.Selinux

open List Option Function BitVec

def policydbVersionBoundary : ℕ := 24

def policydbBoundsMaxdepth : ℕ := 4

structure BoundedPolicy where
  db : PolicyDb
  policyvers : ℕ
  isAttribute : ℕ → Bool
  -- `type_read` reads no bounds from an older policy.
  bounds_old : policyvers < policydbVersionBoundary → ∀ b ∈ db.typeBounds, b = 0

/-- The loop of `type_bounds_sanity_check` at a type with the given bounds, `left` rounds before
the depth is too large. `some false` is `-EINVAL`, and `none` is the `BUG_ON`. -/
def typeBoundsLoop (q : BoundedPolicy) : ℕ → ℕ → Option Bool
  | _, 0 => some true
  | 0, _ + 1 => some false
  | left + 1, bounds + 1 => do
    let upper ← q.db.bounds (bounds + 1)
    if q.isAttribute (bounds + 1) then some false else typeBoundsLoop q left upper

def typeBoundsSanityCheck (q : BoundedPolicy) (bounds : ℕ) : Option Bool :=
  typeBoundsLoop q (policydbBoundsMaxdepth - 1) bounds

/-- `policydb_bounds_sanity_check`, without the users and the roles. -/
def policydbBoundsSanityCheck (q : BoundedPolicy) : Option Bool :=
  if q.policyvers < policydbVersionBoundary then some true
  else q.db.typeBounds.allM (typeBoundsSanityCheck q)

/-- The calls of `context_struct_compute_av` that one for a pair of contexts can make. -/
inductive Calls (p : PolicyDb) : Context × Context → Context × Context → Prop
  | source {s t : Context} {a : ℕ} : p.bounds s.type = some a → a ≠ 0 →
      Calls p (s, t) ({ s with type := a }, t)
  | target {s t : Context} {b : ℕ} : p.bounds t.type = some b → b ≠ 0 →
      Calls p (s, t) (s, { t with type := b })
  | both {s t : Context} {a b : ℕ} : p.bounds s.type = some a → a ≠ 0 →
      p.bounds t.type = some b → b ≠ 0 → Calls p (s, t) ({ s with type := a }, { t with type := b })

def ChainLe (p : PolicyDb) : ℕ → ℕ → Prop
  | 0, type => ∀ b, p.bounds type = some b → b = 0
  | n + 1, type => ∀ b, p.bounds type = some b → b ≠ 0 → ChainLe p n b

structure InPolicy (p : PolicyDb) (c : Context) : Prop where
  role : RoleIn p.roles c
  type : (p.bounds c.type).isSome

/-- The constraints of the class have no expression that makes their evaluation `BUG`. -/
def KnownCodes (p : PolicyDb) (tclass : BitVec 16) : Prop :=
  ∀ constraints, p.classes[tclass.toNat - 1]? = some constraints →
    ∀ c ∈ constraints, ∀ e ∈ c.expr, codesOk e = true

variable {p : PolicyDb} {q : BoundedPolicy} {fuel n m : ℕ} {s t : Context} {tclass : BitVec 16}
  {w : Bool}

/-! ## Chains of bounds -/

theorem chainLe_of_loop {type : ℕ}
    (h : ∀ b, q.db.bounds type = some b → typeBoundsLoop q n b = some true) :
    ChainLe q.db n type := by
  induction n generalizing type with
  | zero =>
    intro b hb
    have hloop := h b hb
    cases b with
    | zero => rfl
    | succ b => cases hloop
  | succ n ih =>
    intro b hb h0
    have hloop := h b hb
    obtain ⟨b, rfl⟩ := Nat.exists_eq_succ_of_ne_zero h0
    refine ih fun b' hb' => ?_
    obtain ⟨upper, hup, hloop⟩ := bind_eq_some_iff.mp hloop
    obtain rfl : b' = upper := some.inj (hb'.symm.trans hup)
    split_ifs at hloop
    · cases hloop
    · exact hloop

theorem allM_eq_some_true {α : Type*} {f : α → Option Bool} {l : List α}
    (h : l.allM f = some true) : ∀ a ∈ l, f a = some true := by
  induction l with
  | nil => exact fun a ha => absurd ha List.not_mem_nil
  | cons a l ih =>
    obtain ⟨v, hv, hrest⟩ := bind_eq_some_iff.mp h
    cases v with
    | false => cases hrest
    | true => exact forall_mem_cons.mpr ⟨hv, ih hrest⟩

section

variable (h : policydbBoundsSanityCheck q = some true)

include h

theorem typeBoundsLoop_of_check {type b : ℕ} (hb : q.db.bounds type = some b) :
    typeBoundsLoop q 3 b = some true := by
  have hmem : b ∈ q.db.typeBounds := mem_of_getElem? hb
  rw [policydbBoundsSanityCheck] at h
  split_ifs at h with hold
  · rw [q.bounds_old hold b hmem]
    rfl
  · exact allM_eq_some_true h b hmem

theorem chainLe_of_check (type : ℕ) :
    ChainLe q.db 3 type :=
  chainLe_of_loop fun _ hb => typeBoundsLoop_of_check h hb

theorem bounds_isSome_of_check {type b : ℕ} (hb : q.db.bounds type = some b) (h0 : b ≠ 0) :
    (q.db.bounds b).isSome := by
  have hloop := typeBoundsLoop_of_check h hb
  obtain ⟨b, rfl⟩ := Nat.exists_eq_succ_of_ne_zero h0
  obtain ⟨upper, hup, -⟩ := bind_eq_some_iff.mp hloop
  exact isSome_of_eq_some hup

end

theorem ChainLe.step {type b : ℕ} (h : ChainLe p n type) (hb : p.bounds type = some b)
    (h0 : b ≠ 0) : ∃ k, ChainLe p k b ∧ k < n := by
  cases n with
  | zero => exact absurd (h b hb) h0
  | succ k => exact ⟨k, h b hb h0, Nat.lt_succ_self k⟩

theorem Calls.chainLe {x y : Context × Context} (h : Calls p x y) (hs : ChainLe p n x.1.type)
    (ht : ChainLe p m x.2.type) :
    ∃ n' m', ChainLe p n' y.1.type ∧ ChainLe p m' y.2.type ∧ n' + m' < n + m := by
  cases h with
  | source ha h0 =>
    obtain ⟨n', hn, hlt⟩ := hs.step ha h0
    exact ⟨n', m, hn, ht, by omega⟩
  | target hb h0 =>
    obtain ⟨m', hm, hlt⟩ := ht.step hb h0
    exact ⟨n, m', hs, hm, by omega⟩
  | both ha ha0 hb hb0 =>
    obtain ⟨n', hn, hltn⟩ := hs.step ha ha0
    obtain ⟨m', hm, hltm⟩ := ht.step hb hb0
    exact ⟨n', m', hn, hm, by omega⟩

theorem Calls.inPolicy {x y : Context × Context} (h : policydbBoundsSanityCheck q = some true)
    (hcall : Calls q.db x y) (hs : InPolicy q.db x.1) (ht : InPolicy q.db x.2) :
    InPolicy q.db y.1 ∧ InPolicy q.db y.2 := by
  cases hcall with
  | source ha h0 => exact ⟨⟨hs.role, bounds_isSome_of_check h ha h0⟩, ht⟩
  | target hb h0 => exact ⟨hs, ⟨ht.role, bounds_isSome_of_check h hb h0⟩⟩
  | both ha ha0 hb hb0 =>
    exact ⟨⟨hs.role, bounds_isSome_of_check h ha ha0⟩, ⟨ht.role, bounds_isSome_of_check h hb hb0⟩⟩

theorem length_le_of_isChain {x : Context × Context} {l : List (Context × Context)}
    (hs : ChainLe p n x.1.type) (ht : ChainLe p m x.2.type) (h : IsChain (Calls p) (x :: l)) :
    l.length ≤ n + m := by
  induction l generalizing x n m with
  | nil => exact Nat.zero_le _
  | cons y l ih =>
    obtain ⟨hxy, h⟩ := isChain_cons_cons.mp h
    obtain ⟨n', m', hn, hm, hlt⟩ := hxy.chainLe hs ht
    have := ih hn hm h
    rw [length_cons]
    omega

/-! ## The bounds of one pair -/

def boundPairs (s t : Context) (source target : ℕ) : List (Context × Context) :=
  (if source ≠ 0 then [({ s with type := source }, t)] else []) ++
    (if target ≠ 0 then [(s, { t with type := target })] else []) ++
    (if source ≠ 0 ∧ target ≠ 0 then
      [({ s with type := source }, { t with type := target })] else [])

theorem typeAttributeBoundsAv_eq (lo : Context → Context → Option (BitVec 32))
    (allowed : BitVec 32) {source target : ℕ} (hs : p.bounds s.type = some source)
    (ht : p.bounds t.type = some target) :
    typeAttributeBoundsAv p lo s t allowed =
      (boundsMask lo allowed (boundPairs s t source target) 0).map (allowed &&& ~~~ ·) := by
  rw [typeAttributeBoundsAv, hs, ht, map_eq_bind]
  rfl

theorem calls_of_mem {source target : ℕ} (hs : p.bounds s.type = some source)
    (ht : p.bounds t.type = some target) {x : Context × Context}
    (hx : x ∈ boundPairs s t source target) : Calls p (s, t) x := by
  simp only [boundPairs, mem_append, mem_ite_nil_right, mem_singleton] at hx
  rcases hx with (⟨h, rfl⟩ | ⟨h, rfl⟩) | ⟨⟨ha, hb⟩, rfl⟩
  · exact .source hs h
  · exact .target ht h
  · exact .both hs ha ht hb

theorem boundsMask_congr {lo lo' : Context → Context → Option (BitVec 32)} {allowed : BitVec 32}
    {pairs : List (Context × Context)} (h : ∀ x ∈ pairs, lo x.1 x.2 = lo' x.1 x.2)
    (masked : BitVec 32) :
    boundsMask lo allowed pairs masked = boundsMask lo' allowed pairs masked := by
  induction pairs generalizing masked with
  | nil => rfl
  | cons x pairs ih =>
    obtain ⟨hx, hpairs⟩ := forall_mem_cons.mp h
    rw [boundsMask, boundsMask, hx]
    simp only [ih hpairs]

theorem boundsMask_isSome {lo : Context → Context → Option (BitVec 32)} {allowed : BitVec 32}
    {pairs : List (Context × Context)} (h : ∀ x ∈ pairs, (lo x.1 x.2).isSome)
    (masked : BitVec 32) : (boundsMask lo allowed pairs masked).isSome := by
  induction pairs generalizing masked with
  | nil => rfl
  | cons x pairs ih =>
    obtain ⟨hx, hpairs⟩ := forall_mem_cons.mp h
    obtain ⟨a, ha⟩ := isSome_iff_exists.mp hx
    rw [boundsMask, ha]
    change (if a &&& allowed = allowed then some 0 else _ : Option (BitVec 32)).isSome
    split_ifs
    · rfl
    · exact ih hpairs _

theorem typeAttributeBoundsAv_congr {lo lo' : Context → Context → Option (BitVec 32)}
    (h : ∀ x, Calls p (s, t) x → lo x.1 x.2 = lo' x.1 x.2) (allowed : BitVec 32) :
    typeAttributeBoundsAv p lo s t allowed = typeAttributeBoundsAv p lo' s t allowed := by
  cases hs : p.bounds s.type with
  | none => rw [typeAttributeBoundsAv, typeAttributeBoundsAv, hs]; rfl
  | some source =>
    cases ht : p.bounds t.type with
    | none => rw [typeAttributeBoundsAv, typeAttributeBoundsAv, hs, ht]; rfl
    | some target =>
      rw [typeAttributeBoundsAv_eq lo _ hs ht, typeAttributeBoundsAv_eq lo' _ hs ht,
        boundsMask_congr fun x hx => h x (calls_of_mem hs ht hx)]

theorem typeAttributeBoundsAv_isSome {lo : Context → Context → Option (BitVec 32)}
    (hs : (p.bounds s.type).isSome) (ht : (p.bounds t.type).isSome)
    (h : ∀ x, Calls p (s, t) x → (lo x.1 x.2).isSome) (allowed : BitVec 32) :
    (typeAttributeBoundsAv p lo s t allowed).isSome := by
  obtain ⟨source, hs⟩ := isSome_iff_exists.mp hs
  obtain ⟨target, ht⟩ := isSome_iff_exists.mp ht
  rw [typeAttributeBoundsAv_eq lo _ hs ht, isSome_map]
  exact boundsMask_isSome (fun x hx => h x (calls_of_mem hs ht hx)) 0

theorem typeAttributeBoundsAv_source {lo : Context → Context → Option (BitVec 32)} {a : ℕ}
    {allowed left : BitVec 32} (hs : p.bounds s.type = some a) (h0 : a ≠ 0)
    (ht : p.bounds t.type = some 0)
    (h : typeAttributeBoundsAv p lo s t allowed = some left) :
    ∃ lower, lo { s with type := a } t = some lower ∧ left &&& lower = left := by
  have hpairs : boundPairs s t a 0 = [({ s with type := a }, t)] := by simp [boundPairs, h0]
  rw [typeAttributeBoundsAv_eq lo _ hs ht, hpairs] at h
  obtain ⟨masked, hmask, rfl⟩ := map_eq_some_iff.mp h
  obtain ⟨lower, hlo, hmask⟩ := bind_eq_some_iff.mp hmask
  refine ⟨lower, hlo, ?_⟩
  split_ifs at hmask with hsub
  · obtain rfl := some.inj hmask
    change (allowed &&& ~~~ 0#32) &&& lower = allowed &&& ~~~ 0#32
    rw [BitVec.not_zero, BitVec.and_allOnes, BitVec.and_comm, hsub]
  · obtain rfl := some.inj hmask
    apply eq_of_getLsbD_eq
    intro i hi
    simp only [getLsbD_and, getLsbD_not, hi, decide_true, Bool.true_and]
    cases allowed.getLsbD i <;> cases lower.getLsbD i <;> rfl

/-! ## The recursion -/

def beforeBounds (p : PolicyDb) (s t : Context) (tclass : BitVec 16) (w : Bool) :
    Option (AvState × BitVec 32) := do
  let constraints ← p.classes[tclass.toNat - 1]?
  let sattr ← p.attrMap s.type
  let tattr ← p.attrMap t.type
  let sbits ← forEachPositiveBit sattr
  let tbits ← forEachPositiveBit tattr
  let st := sbits.foldl (fun st i => tbits.foldl (addPair p tclass i) st) (AvState.init w)
  let allowed ← constraints.foldlM (applyConstraint p s t) st.avd.allowed
  return (st, applyRoleAllow p s t tclass allowed)

/-- What a call from `type_attribute_bounds_av` allows. -/
def loAllowed (p : PolicyDb) (fuel : ℕ) (tclass : BitVec 16) (s t : Context) :
    Option (BitVec 32) :=
  (contextStructComputeAv p fuel s t tclass false).map (·.avd.allowed)

theorem contextStructComputeAv_succ (p : PolicyDb) (fuel : ℕ) (s t : Context) (tclass : BitVec 16)
    (w : Bool) :
    contextStructComputeAv p (fuel + 1) s t tclass w =
      if tclass = 0 ∨ tclass.toNat > p.classes.length then some (AvState.init w)
      else (beforeBounds p s t tclass w).bind fun r =>
        (typeAttributeBoundsAv p (loAllowed p fuel tclass) s t r.2).map fun allowed =>
          { r.1 with avd.allowed := allowed } := by
  have hlo : loAllowed p fuel tclass =
    fun s t => (contextStructComputeAv p fuel s t tclass false).map (·.avd.allowed) := rfl
  rw [contextStructComputeAv, beforeBounds, hlo]
  simp only [Option.bind_eq_bind, Option.bind_assoc, Option.pure_def, Option.bind_some,
    map_eq_bind, comp_apply]

theorem contextStructComputeAv_stable {fuel' : ℕ} (hs : ChainLe p n s.type)
    (ht : ChainLe p m t.type) (hf : n + m < fuel) (hf' : n + m < fuel') :
    contextStructComputeAv p fuel s t tclass w = contextStructComputeAv p fuel' s t tclass w := by
  induction fuel generalizing fuel' n m s t w with
  | zero => exact absurd hf (Nat.not_lt_zero _)
  | succ fuel ih =>
    obtain ⟨k, rfl⟩ : ∃ k, fuel' = k + 1 := ⟨fuel' - 1, by omega⟩
    have hlo : ∀ x, Calls p (s, t) x →
        loAllowed p fuel tclass x.1 x.2 = loAllowed p k tclass x.1 x.2 := by
      intro x hx
      obtain ⟨n', m', hn, hm, hlt⟩ := hx.chainLe hs ht
      rw [loAllowed, loAllowed, ih hn hm (by omega) (show n' + m' < k by omega)]
    rw [contextStructComputeAv_succ, contextStructComputeAv_succ]
    simp only [typeAttributeBoundsAv_congr hlo]

theorem beforeBounds_isSome (hs : InPolicy p s) (ht : InPolicy p t) (hcodes : KnownCodes p tclass)
    (hclass : ¬ (tclass = 0 ∨ tclass.toNat > p.classes.length)) :
    (beforeBounds p s t tclass w).isSome := by
  obtain ⟨se, hse, hsbits⟩ := PolicyDb.attrMap_of_bounds hs.type
  obtain ⟨te, hte, htbits⟩ := PolicyDb.attrMap_of_bounds ht.type
  obtain ⟨h0, hle⟩ := not_or.mp hclass
  have hpos : tclass.toNat ≠ 0 := fun h => h0 (eq_of_toNat_eq h)
  have hlt : tclass.toNat - 1 < p.classes.length := by omega
  have hget := List.getElem?_eq_getElem hlt
  have hmem := getElem_mem hlt
  have heval : ∀ c ∈ p.classes[tclass.toNat - 1], c.Evaluates p s t := fun c hc =>
    constraintExprEval_iff p.roles_readable p.roles_lt hs.role ht.role
      (p.names_readable _ hmem c hc) (hcodes _ hget c hc) (p.constraints_read _ hmem c hc)
  simp only [beforeBounds, hget, hse, hte, hsbits, htbits, bind_eq_bind, bind_some]
  obtain ⟨allowed, hfold, -⟩ := foldlM_applyConstraint
    fun pre c post (hcs : p.classes[tclass.toNat - 1] = pre ++ c :: post) _ _ _ _ =>
      heval c (by simp [hcs])
  rw [hfold]
  rfl

theorem contextStructComputeAv_isSome (h : policydbBoundsSanityCheck q = some true)
    (hcodes : KnownCodes q.db tclass) (hs : InPolicy q.db s) (ht : InPolicy q.db t)
    (hsc : ChainLe q.db n s.type) (htc : ChainLe q.db m t.type) (hf : n + m < fuel) :
    (contextStructComputeAv q.db fuel s t tclass w).isSome := by
  induction fuel generalizing n m s t w with
  | zero => exact absurd hf (Nat.not_lt_zero _)
  | succ fuel ih =>
    rw [contextStructComputeAv_succ]
    split_ifs with hclass
    · rfl
    obtain ⟨r, hr⟩ := isSome_iff_exists.mp (beforeBounds_isSome (w := w) hs ht hcodes hclass)
    rw [hr, bind_some, isSome_map]
    refine typeAttributeBoundsAv_isSome hs.type ht.type ?_ _
    intro x hx
    obtain ⟨n', m', hn, hm, hlt⟩ := hx.chainLe hsc htc
    obtain ⟨hxs, hxt⟩ := Calls.inPolicy h hx hs ht
    rw [loAllowed, isSome_map]
    exact ih hxs hxt hn hm (by omega)

/-! ## The permissions do not depend on the extended ones -/

section

variable {st st' : AvState} (h : st.avd = st'.avd)

include h

theorem addRule_avd (node : AvtabNode) :
    (addRule st node).avd = (addRule st' node).avd := by
  simp only [addRule, h]
  split_ifs
  all_goals first | rfl | exact h

theorem addPair_avd (i j : ℕ) :
    (addPair p tclass i st j).avd = (addPair p tclass i st' j).avd := by
  have hrules := foldl_rel (r := fun a b : AvState => a.avd = b.avd)
    (l := avtabVisit p.teAvtab (avKey i j tclass)) h fun n _ _ _ h => addRule_avd h n
  exact foldl_rel (r := fun a b : AvState => a.avd = b.avd) hrules fun n _ _ _ h => by
    simp only [addCondRule, h]

end

theorem beforeBounds_allowed (p : PolicyDb) (s t : Context) (tclass : BitVec 16) (w w' : Bool) :
    (beforeBounds p s t tclass w).map (·.2) = (beforeBounds p s t tclass w').map (·.2) := by
  have hpairs : ∀ sbits tbits : List ℕ,
      (sbits.foldl (fun st i => tbits.foldl (addPair p tclass i) st) (AvState.init w)).avd =
        (sbits.foldl (fun st i => tbits.foldl (addPair p tclass i) st) (AvState.init w')).avd := by
    intro sbits tbits
    exact foldl_rel (r := fun a b : AvState => a.avd = b.avd) rfl fun i _ _ _ h =>
      foldl_rel (r := fun a b : AvState => a.avd = b.avd) h fun j _ _ _ h => addPair_avd h i j
  simp only [beforeBounds, bind_eq_bind, map_bind, comp_def, hpairs]
  rfl

theorem contextStructComputeAv_allowed_eq (p : PolicyDb) (fuel : ℕ) (s t : Context)
    (tclass : BitVec 16) (w w' : Bool) :
    (contextStructComputeAv p fuel s t tclass w).map (·.avd.allowed) =
      (contextStructComputeAv p fuel s t tclass w').map (·.avd.allowed) := by
  cases fuel with
  | zero => rfl
  | succ fuel =>
    have hbind : ∀ w, ((beforeBounds p s t tclass w).bind fun r =>
        (typeAttributeBoundsAv p (loAllowed p fuel tclass) s t r.2).map fun allowed =>
          ({ r.1 with avd.allowed := allowed } : AvState)).map (·.avd.allowed) =
        ((beforeBounds p s t tclass w).map (·.2)).bind
          (typeAttributeBoundsAv p (loAllowed p fuel tclass) s t) := by
      intro w
      simp only [Option.map_bind, Option.bind_map, Function.comp_def, Option.map_map, Option.map_id']
    rw [contextStructComputeAv_succ, contextStructComputeAv_succ]
    split_ifs
    · rfl
    · rw [hbind, hbind, beforeBounds_allowed p s t tclass w w']

theorem contextStructComputeAv_source {a : ℕ} {st : AvState} (hs : p.bounds s.type = some a)
    (h0 : a ≠ 0) (ht : p.bounds t.type = some 0)
    (h : contextStructComputeAv p (fuel + 1) s t tclass w = some st) (w' : Bool)
    (hf : contextStructComputeAv p fuel { s with type := a } t tclass w' =
      contextStructComputeAv p (fuel + 1) { s with type := a } t tclass w') :
    ∃ st', contextStructComputeAv p (fuel + 1) { s with type := a } t tclass w' = some st' ∧
      st.avd.allowed &&& st'.avd.allowed = st.avd.allowed := by
  by_cases hclass : tclass = 0 ∨ tclass.toNat > p.classes.length
  · rw [contextStructComputeAv_succ, if_pos hclass] at h ⊢
    obtain rfl := some.inj h
    exact ⟨_, rfl, zero_and⟩
  · rw [contextStructComputeAv_succ, if_neg hclass] at h
    obtain ⟨r, -, h⟩ := bind_eq_some_iff.mp h
    obtain ⟨left, hleft, rfl⟩ := map_eq_some_iff.mp h
    obtain ⟨lower, hlo, hsub⟩ := typeAttributeBoundsAv_source hs h0 ht hleft
    rw [loAllowed, contextStructComputeAv_allowed_eq p fuel _ t tclass false w', hf] at hlo
    obtain ⟨st', hst', rfl⟩ := map_eq_some_iff.mp hlo
    exact ⟨st', hst', hsub⟩

/-- In a policy that passes the check calls nest at most six deep, and a type is allowed a subset
of what its bounding type is. -/
theorem contextStructComputeAv_bounded (q : BoundedPolicy)
    (h : policydbBoundsSanityCheck q = some true) :
    (∀ x l, IsChain (Calls q.db) (x :: l) → l.length ≤ 6) ∧
    (∀ s t tclass w fuel, 7 ≤ fuel → contextStructComputeAv q.db fuel s t tclass w =
      contextStructComputeAv q.db 7 s t tclass w) ∧
    (∀ s t tclass w, InPolicy q.db s → InPolicy q.db t → KnownCodes q.db tclass →
      (contextStructComputeAv q.db 7 s t tclass w).isSome) ∧
    ∀ s t tclass w w' a st, q.db.bounds s.type = some a → a ≠ 0 → q.db.bounds t.type = some 0 →
      contextStructComputeAv q.db 7 s t tclass w = some st →
      ∃ st', contextStructComputeAv q.db 7 { s with type := a } t tclass w' = some st' ∧
        st.avd.allowed &&& st'.avd.allowed = st.avd.allowed := by
  have hchain := chainLe_of_check h
  refine ⟨?_, ?_, ?_, ?_⟩
  · intro x l hl
    exact length_le_of_isChain (hchain _) (hchain _) hl
  · intro s t tclass w fuel hf
    exact contextStructComputeAv_stable (hchain _) (hchain _) hf (by norm_num)
  · intro s t tclass w hs ht hcodes
    exact contextStructComputeAv_isSome h hcodes hs ht (hchain _) (hchain _) (by norm_num)
  · intro s t tclass w w' a st hs h0 ht hst
    -- The bounding type has one step less to go, and the target has none.
    have ha : ChainLe q.db 2 a := hchain s.type a hs h0
    have hzero : ChainLe q.db 0 t.type := by
      intro b hb
      exact some.inj (hb.symm.trans ht)
    exact contextStructComputeAv_source hs h0 ht hst w'
      (contextStructComputeAv_stable ha hzero (by norm_num) (by norm_num))

def boundedPolicy : BoundedPolicy where
  db := { oneRulePolicy smallAttrs smallAttrs_readable with
    typeBounds := [2, 0]
    bounds_length := rfl }
  policyvers := 30
  isAttribute := fun _ => false
  bounds_old := by decide

theorem contextStructComputeAv_boundedPolicy :
    ∃ st st', contextStructComputeAv boundedPolicy.db 7 (plainContext 1 1) (plainContext 1 2) 1#16
        false = some st ∧
      contextStructComputeAv boundedPolicy.db 7 (plainContext 1 2) (plainContext 1 2) 1#16
        false = some st' ∧
      st.avd.allowed = 1#32 ∧ st.avd.allowed &&& st'.avd.allowed = st.avd.allowed := by
  obtain ⟨-, -, hsome, hsub⟩ := contextStructComputeAv_bounded boundedPolicy (by decide +kernel)
  have hcodes : KnownCodes boundedPolicy.db 1#16 := by
    intro constraints hc c hmem
    obtain rfl : [] = constraints := some.inj hc
    cases hmem
  obtain ⟨st, hst⟩ := isSome_iff_exists.mp
    (hsome (plainContext 1 1) (plainContext 1 2) 1#16 false ⟨⟨le_rfl, le_rfl⟩, by decide +kernel⟩
      ⟨⟨le_rfl, le_rfl⟩, by decide +kernel⟩ hcodes)
  obtain ⟨st', hst', hle⟩ := hsub _ _ _ _ false 2 st (by decide +kernel) two_ne_zero
    (by decide +kernel) hst
  have hrun : (contextStructComputeAv boundedPolicy.db 7 (plainContext 1 1) (plainContext 1 2) 1#16
      false).map (·.avd.allowed) = some 1#32 := by
    decide +kernel
  rw [hst] at hrun
  exact ⟨st, st', hst, hst', some.inj hrun, hle⟩

end Cupcake.Selinux
