import Cupcake.Selinux.Conditional.Exprs

/-! Conditional rules over any sequence of `security_set_bools` calls. -/

namespace Cupcake.Selinux.Cond

open BitVec List

/-! ## Switching rules -/

def Enabled (specified : BitVec 16) : Prop := specified &&& avtabEnabled ≠ 0#16

instance (specified : BitVec 16) : Decidable (Enabled specified) :=
  inferInstanceAs (Decidable (_ ≠ _))

theorem avtabEnabled_getLsbD {i : ℕ} (hi : i < 16) : avtabEnabled.getLsbD i = decide (i = 15) := by
  revert i
  decide

theorem enabled_iff (x : BitVec 16) : Enabled x ↔ x.getLsbD 15 = true := by
  constructor
  · intro h
    by_contra hx
    apply h
    apply eq_of_getLsbD_eq
    intro i hi
    rw [getLsbD_and, avtabEnabled_getLsbD hi]
    by_cases h15 : i = 15
    · subst h15
      simpa using hx
    · simp [h15]
  · intro h h0
    have hbit : (x &&& avtabEnabled).getLsbD 15 = true := by
      rw [getLsbD_and, h, avtabEnabled_getLsbD (by decide)]
      rfl
    rw [h0] at hbit
    cases hbit

theorem setEnabled_getLsbD (on : Bool) (x : BitVec 16) {i : ℕ} (hi : i < 16) :
    (setEnabled on x).getLsbD i = if i = 15 then on else x.getLsbD i := by
  cases on with
  | false =>
    rw [setEnabled, if_neg (by decide), getLsbD_and, getLsbD_not,
      avtabEnabled_getLsbD hi]
    by_cases h : i = 15
    · simp [h]
    · simp [h, hi]
  | true =>
    rw [setEnabled, if_pos rfl, getLsbD_or, avtabEnabled_getLsbD hi]
    by_cases h : i = 15
    · simp [h]
    · simp [h]

theorem enabled_setEnabled (on : Bool) (x : BitVec 16) : Enabled (setEnabled on x) ↔ on = true := by
  rw [enabled_iff, setEnabled_getLsbD _ _ (by decide), if_pos rfl]

theorem setEnabled_setEnabled (on on' : Bool) (x : BitVec 16) :
    setEnabled on (setEnabled on' x) = setEnabled on x := by
  apply eq_of_getLsbD_eq
  intro i hi
  rw [setEnabled_getLsbD _ _ hi, setEnabled_getLsbD _ _ hi, setEnabled_getLsbD _ _ hi]
  split_ifs
  · rfl
  · rfl

theorem setEnabled_enabled (x : BitVec 16) : setEnabled (decide (Enabled x)) x = x := by
  apply eq_of_getLsbD_eq
  intro i hi
  rw [setEnabled_getLsbD _ _ hi]
  split_ifs with h
  · rw [h, Bool.decide_congr (enabled_iff x), Bool.decide_eq_true]
  · rfl

theorem switchRules_apply (on : Bool) (list : List ℕ) (sp : Specified) (r : ℕ) :
    switchRules on list sp r = if r ∈ list then setEnabled on (sp r) else sp r := by
  induction list generalizing sp with
  | nil => rfl
  | cons a list ih =>
    rw [switchRules, foldl_cons]
    refine (ih _).trans ?_
    by_cases ha : r = a
    · subst ha
      simp [setEnabled_setEnabled]
    · simp [ha]

/-! ## One call -/

structure Switched (sp : Specified) (node : CondNode) : Prop where
  onTrue : ∀ r ∈ node.trueList, Enabled (sp r) ↔ node.curState = 1
  onFalse : ∀ r ∈ node.falseList, Enabled (sp r) ↔ node.curState = 0

structure Frame (rules : List ℕ) (sp sp' : Specified) : Prop where
  plain : ∀ r on, setEnabled on (sp' r) = setEnabled on (sp r)
  other : ∀ r, r ∉ rules → sp' r = sp r

theorem Frame.refl (rules : List ℕ) (sp : Specified) : Frame rules sp sp :=
  ⟨fun _ _ => rfl, fun _ _ => rfl⟩

theorem Frame.trans {rules : List ℕ} {sp₁ sp₂ sp₃ : Specified} (h₁ : Frame rules sp₁ sp₂)
    (h₂ : Frame rules sp₂ sp₃) : Frame rules sp₁ sp₃ :=
  ⟨fun r on => (h₂.plain r on).trans (h₁.plain r on),
    fun r hr => (h₂.other r hr).trans (h₁.other r hr)⟩

theorem Frame.mono {rules rules' : List ℕ} {sp sp' : Specified} (h : Frame rules sp sp')
    (hsub : rules ⊆ rules') : Frame rules' sp sp' :=
  ⟨h.plain, fun r hr => h.other r fun hr' => hr (hsub hr')⟩

theorem switchRules_frame (on : Bool) (list : List ℕ) (sp : Specified) :
    Frame list sp (switchRules on list sp) := by
  constructor
  · intro r on'
    rw [switchRules_apply]
    split_ifs
    · exact setEnabled_setEnabled _ _ _
    · rfl
  · intro r hr
    rw [switchRules_apply, if_neg hr]

def CondNode.settle (bools : List (Option Bool)) (node : CondNode) : CondNode :=
  { node with curState := condValue bools node.expr }

theorem switched_of_switchRules {node : CondNode} (hnd : node.rules.Nodup) (sp : Specified) (v : Int)
    (hv : v = -1 ∨ v = 0 ∨ v = 1) :
    Switched (switchRules (!decide (v ≠ 0)) node.falseList
      (switchRules (!decide (v ≤ 0)) node.trueList sp)) { node with curState := v } := by
  have hdisj := (nodup_append.mp hnd).2.2
  constructor
  · intro r hr
    have hrf : r ∉ node.falseList := fun hf => hdisj r hr r hf rfl
    rw [switchRules_apply, if_neg hrf, switchRules_apply, if_pos hr, enabled_setEnabled]
    rcases hv with rfl | rfl | rfl <;> simp
  · intro r hr
    rw [switchRules_apply, if_pos hr, enabled_setEnabled]
    rcases hv with rfl | rfl | rfl <;> simp

theorem evaluateCondNode_spec {bools : List (Option Bool)} {node : CondNode} {sp : Specified}
    (s0 : Int) (hval : Valued bools node.expr) (hnd : node.rules.Nodup) (hsw : Switched sp node) :
    ∃ sp', evaluateCondNode bools s0 node sp = some (node.settle bools, sp') ∧
      Switched sp' (node.settle bools) ∧ Frame node.rules sp sp' := by
  rw [evaluateCondNode, condEvaluateExpr_eq hval, Option.map_some]
  by_cases hne : condValue bools node.expr ≠ node.curState
  · rw [if_pos hne]
    refine ⟨_, rfl, switched_of_switchRules hnd sp _ (condValue_cases bools _), ?_⟩
    exact ((switchRules_frame _ _ _).mono (subset_append_left _ _)).trans
      ((switchRules_frame _ _ _).mono (subset_append_right _ _))
  · have hset : node.settle bools = node := by
      rw [CondNode.settle, not_not.mp hne]
    rw [if_neg hne, hset]
    exact ⟨sp, rfl, hsw, .refl _ _⟩

theorem Switched.frame {sp sp' : Specified} {node : CondNode} {rules : List ℕ}
    (h : Switched sp node) (hf : Frame rules sp sp') (hdisj : ∀ r ∈ node.rules, r ∉ rules) :
    Switched sp' node := by
  constructor
  · intro r hr
    rw [hf.other r (hdisj r (mem_append_left _ hr))]
    exact h.onTrue r hr
  · intro r hr
    rw [hf.other r (hdisj r (mem_append_right _ hr))]
    exact h.onFalse r hr

theorem evaluateAll_spec {bools : List (Option Bool)} {nodes : List CondNode} {sp : Specified}
    (s0 : ℕ → Int) (hval : ∀ node ∈ nodes, Valued bools node.expr)
    (hnd : (nodes.flatMap CondNode.rules).Nodup) (hsw : ∀ node ∈ nodes, Switched sp node) :
    ∃ sp', evaluateAll bools s0 nodes sp = some (nodes.map (CondNode.settle bools), sp') ∧
      (∀ node ∈ nodes.map (CondNode.settle bools), Switched sp' node) ∧
      Frame (nodes.flatMap CondNode.rules) sp sp' := by
  induction nodes generalizing s0 sp with
  | nil => exact ⟨sp, rfl, by simp, .refl _ _⟩
  | cons node nodes ih =>
    rw [flatMap_cons] at hnd ⊢
    obtain ⟨hn, hns, hdisj⟩ := nodup_append.mp hnd
    obtain ⟨sp₁, h₁, hsw₁, hf₁⟩ := evaluateCondNode_spec (s0 0) (hval node mem_cons_self) hn
      (hsw node mem_cons_self)
    obtain ⟨sp₂, h₂, hsw₂, hf₂⟩ := ih (fun i => s0 (i + 1))
      (fun n hn => hval n (mem_cons_of_mem _ hn)) hns fun n hn =>
        (hsw n (mem_cons_of_mem _ hn)).frame hf₁ fun r hr hr' =>
          hdisj r hr' r (mem_flatMap.mpr ⟨n, hn, hr⟩) rfl
    refine ⟨sp₂, ?_, ?_, ?_⟩
    · simp [evaluateAll, h₁, h₂]
    · intro n hn
      obtain rfl | hn := mem_cons.mp hn
      · exact hsw₁.frame hf₂ fun r hr hr' => hdisj r hr r hr' rfl
      · exact hsw₂ n hn
    · exact (hf₁.mono (subset_append_left _ _)).trans
        (hf₂.mono (subset_append_right _ _))

/-! ## Runs -/

/-- Every number has its boolean, and every expression is not empty and names only these. -/
structure Evaluable (p : CondDb) : Prop where
  bools : ∀ b ∈ p.bools, b.isSome
  ne_nil : ∀ node ∈ p.condList, node.expr ≠ []
  nums : ∀ node ∈ p.condList, ∀ num, .bool num ∈ node.expr → 1 ≤ num ∧ num ≤ p.bools.length

/-- The state of every node is the value of its expression, and its rules are enabled as that
value says. -/
structure Coherent (p : CondDb) : Prop where
  value : ∀ node ∈ p.condList, ∀ s0, condEvaluateExpr p.bools node.expr s0 = some node.curState
  onTrue : ∀ node ∈ p.condList, ∀ r ∈ node.trueList,
    Enabled (p.specified r) ↔ node.curState = 1
  onFalse : ∀ node ∈ p.condList, ∀ r ∈ node.falseList,
    Enabled (p.specified r) ↔ node.curState = 0

structure Call where
  values : List Int
  s0 : ℕ → Int

def runCalls (p : CondDb) (calls : List Call) : Option CondDb :=
  calls.foldlM (fun p call => (securitySetBools p call.values call.s0).map Prod.fst) p

theorem Evaluable.valued {p : CondDb} (h : Evaluable p) {bools : List (Option Bool)}
    (hlen : bools.length = p.bools.length) (hsome : ∀ b ∈ bools, b.isSome) :
    ∀ node ∈ p.condList, Valued bools node.expr := by
  intro node hnode
  refine ⟨h.ne_nil node hnode, ?_⟩
  intro num hnum
  obtain ⟨h1, hle⟩ := h.nums node hnode num hnum
  have hlt : num - 1 < bools.length := by omega
  rw [boolState, if_neg (by omega), List.getElem?_eq_getElem hlt, Option.join_some]
  exact hsome _ (getElem_mem hlt)

structure SameRules (p q : CondDb) : Prop where
  settle : ∀ bools, q.condList.map (CondNode.settle bools) = p.condList.map (CondNode.settle bools)
  rules : q.condList.flatMap CondNode.rules = p.condList.flatMap CondNode.rules
  frame : Frame (p.condList.flatMap CondNode.rules) p.specified q.specified

theorem SameRules.refl (p : CondDb) : SameRules p p := ⟨fun _ => rfl, rfl, .refl _ _⟩

theorem SameRules.trans {p q r : CondDb} (h₁ : SameRules p q) (h₂ : SameRules q r) :
    SameRules p r :=
  ⟨fun bools => (h₂.settle bools).trans (h₁.settle bools), h₂.rules.trans h₁.rules,
    h₁.frame.trans (h₁.rules ▸ h₂.frame)⟩

theorem Coherent.switched {p : CondDb} (h : Coherent p) :
    ∀ node ∈ p.condList, Switched p.specified node :=
  fun node hnode => ⟨h.onTrue node hnode, h.onFalse node hnode⟩

section

variable {p : CondDb} (he : Evaluable p) (hc : Coherent p)

include he hc

theorem securitySetBools_spec (call : Call) :
    ∃ q rc, securitySetBools p call.values call.s0 = some (q, rc) ∧ Evaluable q ∧ Coherent q ∧
      SameRules p q := by
  by_cases hlen : call.values.length = p.bools.length
  swap
  · exact ⟨p, efault, if_pos hlen, he, hc, .refl p⟩
  set bools : List (Option Bool) := call.values.map fun v => some (decide (v ≠ 0)) with hb
  have hblen : bools.length = p.bools.length := by simp [hb, hlen]
  have hbsome : ∀ b ∈ bools, b.isSome := by simp [hb]
  have hval := he.valued hblen hbsome
  obtain ⟨sp, hall, hsw, hframe⟩ := evaluateAll_spec call.s0 hval p.nodup hc.switched
  have hany : p.bools.any Option.isNone = false := by
    rw [any_eq_false]
    intro b hbm
    simpa [← Option.isSome_iff_ne_none] using he.bools b hbm
  have hrules := evaluateAll_rules hall
  refine ⟨⟨bools, p.condList.map (CondNode.settle bools), sp, (p.latestGranting + 1) % 2 ^ 32,
    hrules ▸ p.nodup⟩, 0, ?_, ?_, ?_, ?_⟩
  · rw [securitySetBools, if_neg (not_not.mpr hlen), hany]
    simp only [Bool.false_eq_true, if_false]
    split
    · next h =>
      rw [hall] at h
      cases h
    · next h =>
      rw [hall] at h
      cases h
      rfl
  · refine ⟨hbsome, ?_, ?_⟩
    · intro node hnode
      obtain ⟨n, hn, rfl⟩ := mem_map.mp hnode
      exact he.ne_nil n hn
    · intro node hnode num hnum
      obtain ⟨n, hn, rfl⟩ := mem_map.mp hnode
      rw [hblen]
      exact he.nums n hn num hnum
  · refine ⟨?_, fun node hnode => (hsw node hnode).onTrue, fun node hnode => (hsw node hnode).onFalse⟩
    intro node hnode s0
    obtain ⟨n, hn, rfl⟩ := mem_map.mp hnode
    exact condEvaluateExpr_eq (hval n hn) s0
  · refine ⟨?_, hrules, hframe⟩
    intro bools'
    rw [map_map]
    rfl

theorem runCalls_spec (calls : List Call) :
    ∃ q, runCalls p calls = some q ∧ Evaluable q ∧ Coherent q ∧ SameRules p q := by
  induction calls generalizing p with
  | nil => exact ⟨p, rfl, he, hc, .refl p⟩
  | cons call calls ih =>
    obtain ⟨q, rc, hq, heq, hcq, hpq⟩ := securitySetBools_spec he hc call
    obtain ⟨r, hr, her, hcr, hqr⟩ := ih heq hcq
    refine ⟨r, ?_, her, hcr, hpq.trans hqr⟩
    rw [runCalls, foldlM_cons, hq]
    exact hr

theorem Coherent.settle_eq :
    p.condList.map (CondNode.settle p.bools) = p.condList := by
  refine (map_congr_left ?_).trans (map_id _)
  intro node hnode
  have hval := condEvaluateExpr_eq (he.valued rfl he.bools node hnode) 0
  rw [hc.value node hnode] at hval
  rw [CondNode.settle, ← Option.some.inj hval]
  rfl

end

theorem specified_eq {p q₁ q₂ : CondDb} (hc₁ : Coherent q₁) (hc₂ : Coherent q₂)
    (hlist : q₁.condList = q₂.condList) (h₁ : SameRules p q₁) (h₂ : SameRules p q₂) :
    q₁.specified = q₂.specified := by
  funext r
  by_cases hr : r ∈ p.condList.flatMap CondNode.rules
  · have hen : Enabled (q₁.specified r) ↔ Enabled (q₂.specified r) := by
      rw [← h₁.rules] at hr
      obtain ⟨node, hnode, hr⟩ := mem_flatMap.mp hr
      obtain hr | hr := mem_append.mp hr
      · rw [hc₁.onTrue node hnode r hr, hc₂.onTrue node (hlist ▸ hnode) r hr]
      · rw [hc₁.onFalse node hnode r hr, hc₂.onFalse node (hlist ▸ hnode) r hr]
    rw [← setEnabled_enabled (q₁.specified r), ← setEnabled_enabled (q₂.specified r),
      h₁.frame.plain, h₂.frame.plain, Bool.decide_congr hen]
  · rw [h₁.frame.other r hr, h₂.frame.other r hr]

/-- Any calls keep the rules in step with the booleans, and what is enabled at the end depends
on the final booleans alone. -/
theorem condRules_of_calls (p : CondDb) (he : Evaluable p) (hc : Coherent p) :
    (∀ calls, ∃ q, runCalls p calls = some q ∧ Coherent q) ∧
    ∀ calls₁ calls₂ q₁ q₂, runCalls p calls₁ = some q₁ → runCalls p calls₂ = some q₂ →
      q₁.bools = q₂.bools → q₁.specified = q₂.specified := by
  constructor
  · intro calls
    obtain ⟨q, hq, -, hcq, -⟩ := runCalls_spec he hc calls
    exact ⟨q, hq, hcq⟩
  · intro calls₁ calls₂ q₁ q₂ hq₁ hq₂ hb
    obtain ⟨r₁, hr₁, he₁, hc₁, hs₁⟩ := runCalls_spec he hc calls₁
    obtain ⟨r₂, hr₂, he₂, hc₂, hs₂⟩ := runCalls_spec he hc calls₂
    obtain rfl : r₁ = q₁ := Option.some.inj (hr₁.symm.trans hq₁)
    obtain rfl : r₂ = q₂ := Option.some.inj (hr₂.symm.trans hq₂)
    apply specified_eq hc₁ hc₂ _ hs₁ hs₂
    rw [← hc₁.settle_eq he₁, ← hc₂.settle_eq he₂, hb, hs₁.settle, hs₂.settle]

def oneRule (expr : List CondExpr) : CondDb :=
  ⟨[some false], [⟨0, expr, [0], []⟩], fun _ => avtabAllowed, 0, by simp [CondNode.rules]⟩

theorem condRules_oneRule :
    Evaluable (oneRule [.bool 1]) ∧ Coherent (oneRule [.bool 1]) ∧
      ∃ q, runCalls (oneRule [.bool 1]) [⟨[7], fun _ => 0⟩] = some q ∧ Coherent q := by
  have he : Evaluable (oneRule [.bool 1]) := by
    refine ⟨by decide, by decide, ?_⟩
    intro node hnode num hnum
    obtain rfl := mem_singleton.mp hnode
    simp_all [oneRule]
  have hc : Coherent (oneRule [.bool 1]) := by
    refine ⟨?_, by decide, by decide⟩
    intro node hnode s0
    obtain rfl := mem_singleton.mp hnode
    rfl
  exact ⟨he, hc, (condRules_of_calls _ he hc).1 _⟩

theorem emptyExpr_diverges :
    ∃ q₁ q₂, runCalls (oneRule []) [⟨[0], fun _ => 0⟩] = some q₁ ∧
      runCalls (oneRule []) [⟨[0], fun _ => 1⟩] = some q₂ ∧ q₁.bools = q₂.bools ∧
      ¬ Enabled (q₁.specified 0) ∧ Enabled (q₂.specified 0) := by
  refine ⟨_, _, rfl, rfl, ?_, ?_, ?_⟩
  · decide
  · decide
  · decide

end Cupcake.Selinux.Cond
