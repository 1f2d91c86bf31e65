import Cupcake.Net.Filter.Check

/-! Runs of accepted filters: a run that has not passed `pc` has stored every cell that the loop of
`check_load_and_stores` calls valid there. -/

namespace Cupcake.Net.Filter

open Option

/-! ## One instruction -/

/-- How a stop is explained by the instruction `f` at which it happens. -/
def Stop.Explained (env : Env) (s : State) (f : SockFilter) : Stop → Prop
  | .ret v => f.op = some (.ret .k) ∧ v = f.k ∨ f.op = some (.ret .a) ∧ v = s.a
  | .noLoad =>
    (∃ size, f.op = some (.ldAbs size) ∧ env.skb.load size f.k = none) ∨
    (∃ size, f.op = some (.ldInd size) ∧ env.skb.load size (s.x + f.k) = none) ∨
    f.op = some .ldxMsh ∧ env.skb.load .b f.k = none
  | .divByX => ∃ op : AluOp, op.divides = true ∧ f.op = some (.alu op .x) ∧ s.x = 0
  | .noDevice =>
    (∃ size, f.op = some (.ldAbs size)) ∧ env.skb.dev = none ∧
      (bpfAncHelper f.k = some .ifindex ∨ bpfAncHelper f.k = some .hatype)

def Op.plain : Op → Bool
  | .st | .stx | .ldMem | .ldxMem | .ja | .jmp _ _ | .ldxAbs => false
  | _ => true

section

variable {env : Env} {s : State} {f : SockFilter}

/-- A plain instruction stops, or goes on to the next one with the same cells and with too large
shifts still on record. -/
def Passes (env : Env) (s : State) (f : SockFilter) (r : Result) : Prop :=
  (∃ why : Stop, r = .stop why ∧ why.Explained env s f) ∨
    ∃ s', r = .next s' ∧ s'.pc = s.pc + 1 ∧ s'.mem = s.mem ∧
      (s.bigShift = true → s'.bigShift = true)

theorem passes_setA (v : BitVec 32) : Passes env s f (s.setA v) := .inr ⟨_, rfl, rfl, rfl, id⟩

theorem passes_setX (v : BitVec 32) : Passes env s f (s.setX v) := .inr ⟨_, rfl, rfl, rfl, id⟩

theorem passes_helper (h : Helper) : Passes env s f (s.helper env h) :=
  .inr ⟨_, rfl, rfl, rfl, id⟩

theorem passes_load {v : Option (BitVec 32)} (h : v = none → Stop.Explained env s f .noLoad) :
    Passes env s f (s.load v) := by
  cases v with
  | none => exact .inl ⟨_, rfl, h rfl⟩
  | some v => exact passes_setA v

theorem passes_alu {flen pc : ℕ} {op : AluOp} {src : Src} (hop : f.op = some (.alu op src))
    (hc : checkOp flen pc f (.alu op src) = true) : Passes env s f (s.alu f op src) := by
  simp only [State.alu]
  split_ifs with hdiv hshift
  · cases src with
    | k => cases op <;> simp_all [AluOp.divides, checkOp, State.operand]
    | x => exact .inl ⟨_, rfl, op, hdiv.1, hop, hdiv.2⟩
  · cases src with
    | k =>
      have := hshift.2
      cases op <;> simp_all [AluOp.shifts, checkOp, State.operand] <;> omega
    | x => exact .inr ⟨_, rfl, rfl, rfl, fun _ => rfl⟩
  · exact passes_setA _

theorem passes_anc {size : Size} {a : Anc} (hop : f.op = some (.ldAbs size))
    (ha : bpfAncHelper f.k = some a) : Passes env s f (s.anc env a) := by
  cases a with
  | ifindex =>
    cases hd : env.skb.dev with
    | none => exact .inl ⟨.noDevice, by simp [State.anc, hd], ⟨size, hop⟩, hd, .inl ha⟩
    | some dev =>
      simp only [State.anc, hd]
      exact passes_setA _
  | hatype =>
    cases hd : env.skb.dev with
    | none => exact .inl ⟨.noDevice, by simp [State.anc, hd], ⟨size, hop⟩, hd, .inr ha⟩
    | some dev =>
      simp only [State.anc, hd]
      exact passes_setA _
  | payOffset => exact passes_helper _
  | nlattr => exact passes_helper _
  | nlattrNest => exact passes_helper _
  | cpu => exact passes_helper _
  | random => exact passes_helper _
  | _ => exact passes_setA _

theorem passes_exec (env : Env) (s : State) {flen pc : ℕ} {op : Op} (hop : f.op = some op)
    (hp : op.plain = true)
    (hc : checkOp flen pc f op = true) : Passes env s f (s.exec env f op) := by
  cases op with
  | alu op src => exact passes_alu hop hc
  | ldAbs size =>
    cases ha : bpfAncHelper f.k with
    | some a =>
      simp only [State.exec, ha]
      exact passes_anc hop ha
    | none =>
      simp only [State.exec, ha]
      exact passes_load fun hv => .inl ⟨size, hop, hv⟩
  | ldInd size => exact passes_load fun hv => .inr (.inl ⟨size, hop, hv⟩)
  | ldxMsh =>
    cases hv : env.skb.load .b f.k with
    | none => exact .inl ⟨.noLoad, by simp [State.exec, hv], .inr (.inr ⟨hop, hv⟩)⟩
    | some v =>
      simp only [State.exec, hv]
      exact passes_setX _
  | ret r =>
    cases r with
    | k => exact .inl ⟨_, rfl, .inl ⟨hop, rfl⟩⟩
    | a => exact .inl ⟨_, rfl, .inr ⟨hop, rfl⟩⟩
  | neg => exact passes_setA _
  | ldLen => exact passes_setA _
  | ldImm => exact passes_setA _
  | txa => exact passes_setA _
  | ldxLen => exact passes_setX _
  | ldxImm => exact passes_setX _
  | tax => exact passes_setX _
  | st | stx | ldMem | ldxMem | ja | jmp | ldxAbs => cases hp

end

/-! ## Masks -/

/-- Every cell of the mask has been stored. -/
def Holds (s : State) (mask : BitVec 16) : Prop :=
  ∀ i, mask.getLsbD i = true → (s.mem i).isSome = true

section

variable {s s' : State} {m m' : BitVec 16} {masks masks' : ℕ → BitVec 16} {pc : ℕ}

theorem Holds.and_left (h : Holds s m) : Holds s (m &&& m') := by
  intro i hi
  rw [BitVec.getLsbD_and, Bool.and_eq_true] at hi
  exact h i hi.1

theorem Holds.and_right (h : Holds s m') : Holds s (m &&& m') := by
  rw [BitVec.and_comm]
  exact h.and_left

theorem Holds.congr (h : Holds s m) (hm : s'.mem = s.mem) : Holds s' m := by
  intro i hi
  rw [hm]
  exact h i hi

theorem getLsbD_cellBit {k : BitVec 32} {i : ℕ} (h : (cellBit k).getLsbD i = true) :
    i = k.toNat := by
  simp only [cellBit, BitVec.getLsbD_shiftLeft, Bool.and_eq_true, BitVec.getLsbD_one] at h
  simp at h
  omega

theorem Holds.store {k v : BitVec 32} (h : Holds s m)
    (hm : s'.mem = Function.update s.mem k.toNat (some v)) : Holds s' (m ||| cellBit k) := by
  intro i hi
  rw [hm]
  by_cases hk : i = k.toNat
  · simp [hk]
  · rw [Function.update_of_ne hk]
    rw [BitVec.getLsbD_or, Bool.or_eq_true] at hi
    exact h i (hi.resolve_right fun hb => hk (getLsbD_cellBit hb))

theorem Holds.isSome_of_and {k : BitVec 32} (h : Holds s m) (hk : m &&& cellBit k ≠ 0) :
    (s.mem k.toNat).isSome = true := by
  by_contra hn
  refine hk (BitVec.eq_of_getLsbD_eq fun i _ => ?_)
  change _ = (0#16).getLsbD i
  rw [BitVec.getLsbD_zero, BitVec.getLsbD_and, Bool.and_eq_false_iff]
  by_contra hi
  simp only [not_or, Bool.not_eq_false] at hi
  exact hn (getLsbD_cellBit hi.2 ▸ h i hi.1)

structure Covered (pc : ℕ) (masks : ℕ → BitVec 16) (memvalid : BitVec 16) (s : State) :
    Prop where
  le : pc ≤ s.pc
  here : s.pc = pc → Holds s (memvalid &&& masks pc)
  ahead : pc < s.pc → Holds s (masks s.pc)

theorem covered_of_holds {i : ℕ} (hle : pc ≤ i) (hs : s.pc = i) (h : Holds s (masks i)) :
    Covered pc masks m s := by
  subst hs
  refine ⟨hle, ?_, fun _ => h⟩
  rintro rfl
  exact h.and_right

theorem covered_of_next (hs : s.pc = pc) (h : Holds s m) : Covered pc masks m s :=
  ⟨hs.ge, fun _ => h.and_left, fun hlt => absurd hlt (by omega)⟩

theorem meet_self (i : ℕ) : meet masks i m i = masks i &&& m := by
  simp [meet]

theorem Holds.of_meet {i j : ℕ} (h : Holds s (masks j)) : Holds s (meet masks i m j) := by
  unfold meet
  by_cases hj : j = i
  · subst hj
    rw [Function.update_self]
    exact h.and_left
  · rwa [Function.update_of_ne hj]

theorem Holds.of_cellsStep {f : SockFilter} {j : ℕ} (h : Holds s (masks j))
    (hc : cellsStep pc f masks m = some (masks', m')) : Holds s (masks' j) := by
  unfold cellsStep at hc
  split at hc
  case h_3 =>
    split_ifs at hc
    cases hc
    exact h
  case h_4 =>
    split_ifs at hc
    cases hc
    exact h
  case h_5 =>
    cases hc
    exact h.of_meet
  case h_6 =>
    cases hc
    exact h.of_meet.of_meet
  all_goals
    cases hc
    exact h

theorem Covered.skip {f : SockFilter} (h : Covered pc masks m s) (hlt : pc < s.pc)
    (hc : cellsStep pc f masks (m &&& masks pc) = some (masks', m')) :
    Covered (pc + 1) masks' m' s :=
  covered_of_holds hlt rfl ((h.ahead hlt).of_cellsStep hc)

end

/-! ## Runs -/

section

variable {filter : List SockFilter} {env : Env} {s : State} {f : SockFilter}
  {masks masks' : ℕ → BitVec 16} {m m' : BitVec 16} {pc : ℕ}

theorem exec_store {v : BitVec 32} (hk : f.k.toNat < bpfMemwords) (hm : Holds s m) :
    ∃ s', s.store f.k v = .next s' ∧ s'.pc = s.pc + 1 ∧ Holds s' (m ||| cellBit f.k) :=
  ⟨_, if_pos hk, rfl, hm.store rfl⟩

theorem exec_cell {r : BitVec 32 → Result} (hk : f.k.toNat < bpfMemwords) (hm : Holds s m)
    (hbit : m &&& cellBit f.k ≠ 0) (hr : ∀ v, ∃ s', r v = .next s' ∧ s'.pc = s.pc + 1 ∧
      s'.mem = s.mem) : ∃ s', s.cell f.k r = .next s' ∧ s'.pc = s.pc + 1 ∧ Holds s' m := by
  obtain ⟨v, hv⟩ := isSome_iff_exists.mp (hm.isSome_of_and hbit)
  obtain ⟨s', hs', hpc, hmem⟩ := hr v
  exact ⟨s', by simpa only [State.cell, if_pos hk, hv] using hs', hpc, hm.congr hmem⟩

theorem exec_covered (env : Env) {op : Op} (h : Accepted filter) (hf : filter[s.pc]? = some f)
    (hop : f.op = some op) (hm : Holds s m) (hc : cellsStep s.pc f masks m = some (masks', m')) :
    (∃ why : Stop, s.exec env f op = .stop why ∧ why.Explained env s f) ∨
      ∃ s', s.exec env f op = .next s' ∧ s'.pc < filter.length ∧
        Covered (s.pc + 1) masks' m' s' := by
  have hchk := h.checkOp hf hop
  have hnext : (∀ r, op ≠ .ret r) → s.pc + 1 < filter.length := h.succ_lt hf hop
  obtain ⟨op', hop', hne⟩ := h.exists_op hf
  obtain rfl : op = op' := some.inj (hop.symm.trans hop')
  unfold cellsStep at hc
  cases op with
  | st =>
    simp only [hop, some.injEq, Prod.mk.injEq] at hc
    obtain ⟨rfl, rfl⟩ := hc
    obtain ⟨s', hs', hpc, hh⟩ := exec_store (v := s.a) (by simpa [checkOp] using hchk) hm
    exact .inr ⟨s', hs', hpc ▸ hnext (by simp), covered_of_next hpc hh⟩
  | stx =>
    simp only [hop, some.injEq, Prod.mk.injEq] at hc
    obtain ⟨rfl, rfl⟩ := hc
    obtain ⟨s', hs', hpc, hh⟩ := exec_store (v := s.x) (by simpa [checkOp] using hchk) hm
    exact .inr ⟨s', hs', hpc ▸ hnext (by simp), covered_of_next hpc hh⟩
  | ldMem =>
    simp only [hop] at hc
    split_ifs at hc with hbit
    cases hc
    obtain ⟨s', hs', hpc, hh⟩ := exec_cell (by simpa [checkOp] using hchk) hm hbit
      fun v => ⟨_, (rfl : s.setA v = _), rfl, rfl⟩
    exact .inr ⟨s', hs', hpc ▸ hnext (by simp), covered_of_next hpc hh⟩
  | ldxMem =>
    simp only [hop] at hc
    split_ifs at hc with hbit
    cases hc
    obtain ⟨s', hs', hpc, hh⟩ := exec_cell (by simpa [checkOp] using hchk) hm hbit
      fun v => ⟨_, (rfl : s.setX v = _), rfl, rfl⟩
    exact .inr ⟨s', hs', hpc ▸ hnext (by simp), covered_of_next hpc hh⟩
  | ja =>
    simp only [hop, some.injEq, Prod.mk.injEq] at hc
    obtain ⟨rfl, rfl⟩ := hc
    have hk : f.k.toNat < filter.length - s.pc - 1 := by simpa [checkOp] using hchk
    refine .inr ⟨_, rfl, ?_, covered_of_holds (i := s.pc + 1 + f.k.toNat) ?_ ?_ ?_⟩
    · change s.pc + f.k.toNat + 1 < filter.length
      omega
    · omega
    · change s.pc + f.k.toNat + 1 = _
      omega
    · rw [meet_self]
      exact hm.and_right
  | jmp op src =>
    simp only [hop, some.injEq, Prod.mk.injEq] at hc
    obtain ⟨rfl, rfl⟩ := hc
    obtain ⟨ht, hf'⟩ : s.pc + f.jt + 1 < filter.length ∧ s.pc + f.jf + 1 < filter.length := by
      simpa [checkOp] using hchk
    by_cases hcond : op.eval s.a (s.operand f src) = true
    · refine .inr ⟨{ s with pc := s.pc + f.jt + 1 }, by simp [State.exec, hcond], ht,
        covered_of_holds (i := s.pc + 1 + f.jt) (by omega) (by simp only; omega) ?_⟩
      apply Holds.of_meet
      rw [meet_self]
      exact Holds.and_right hm
    · refine .inr ⟨{ s with pc := s.pc + f.jf + 1 }, by simp [State.exec, hcond], hf',
        covered_of_holds (i := s.pc + 1 + f.jf) (by omega) (by simp only; omega) ?_⟩
      rw [meet_self]
      exact Holds.and_right hm
  | ldxAbs => exact absurd rfl hne
  | _ =>
    simp only [hop, some.injEq, Prod.mk.injEq] at hc
    obtain ⟨rfl, rfl⟩ := hc
    obtain hstop | ⟨s', hs', hpc, hmem, -⟩ := passes_exec env s hop rfl hchk
    · exact .inl hstop
    · refine .inr ⟨s', hs', ?_, covered_of_next hpc (hm.congr hmem)⟩
      rw [hpc]
      apply hnext
      rintro r hr
      cases r <;> cases hr <;> cases hs'

theorem run_of_covered (h : Accepted filter) {fs : List SockFilter} (hfs : filter.drop pc = fs)
    (hc : checkCells pc fs masks m = true) (hs : Covered pc masks m s)
    (hlt : s.pc < filter.length) {n : ℕ} (hn : fs.length ≤ n) :
    ∃ s' f why, run filter env n s = .stopped s' why ∧ filter[s'.pc]? = some f ∧
      why.Explained env s' f := by
  induction fs generalizing pc masks m s n with
  | nil =>
    have hle := hs.le
    rw [List.drop_eq_nil_iff] at hfs
    omega
  | cons f fs ih =>
    have hf : filter[pc]? = some f := by
      rw [← List.head?_drop, hfs]
      rfl
    have hdrop : filter.drop (pc + 1) = fs := by
      rw [← List.tail_drop, hfs]
      rfl
    rw [checkCells] at hc
    split at hc
    case h_2 => cases hc
    case h_1 masks' m' hstep =>
      rw [List.length_cons] at hn
      obtain hpc | hpc := hs.le.eq_or_lt
      · obtain ⟨n, rfl⟩ : ∃ n', n = n' + 1 := ⟨n - 1, by omega⟩
        subst hpc
        obtain ⟨op, hop, -⟩ := h.exists_op hf
        have hexec : step filter env s = s.exec env f op := by
          simp only [step, hf, hop]
        obtain ⟨why, hw, he⟩ | ⟨s', hs', hlt', hcov⟩ :=
          exec_covered env h hf hop (hs.here rfl) hstep
        · exact ⟨s, f, why, by rw [run, hexec, hw], hf, he⟩
        · obtain ⟨t, g, why, hrun, ht⟩ := ih (n := n) hdrop hc hcov hlt' (by omega)
          exact ⟨t, g, why, by rw [run, hexec, hs']; exact hrun, ht⟩
      · exact ih hdrop hc (hs.skip hpc hstep) hlt (by omega)

end

theorem run_of_accepted {filter : List SockFilter} (h : Accepted filter) (env : Env) :
    ∃ s f why, run filter env filter.length .init = .stopped s why ∧ filter[s.pc]? = some f ∧
      why.Explained env s f := by
  refine run_of_covered h rfl h.cells ⟨le_rfl, fun _ => ?_, ?_⟩ h.nonempty le_rfl
  · intro i hi
    simp at hi
  · intro hlt
    cases hlt

/-- Accepted filters: on any packet the run ends within as many instructions as the filter has,
without a fault. -/
theorem run_accepted (alloc : Bool) (filter : List SockFilter)
    (h : bpfCheckClassic alloc filter = 0) (env : Env) :
    ∃ s f why, run filter env filter.length .init = .stopped s why ∧ filter[s.pc]? = some f ∧
      why.Explained env s f :=
  run_of_accepted (accepted_of_check h) env

def emptySkb : Skb where
  linear := []
  data := 0
  paged := []
  networkHeader := 0
  macHeader := 0
  protocol := 0
  pktType := 0
  dev := none
  mark := 0
  hash := 0
  queueMapping := 0
  vlanTci := 0
  vlanProto := 0
  data_le := le_rfl
  len_lt := by decide

def emptyEnv : Env := ⟨emptySkb, fun _ _ _ _ => 0⟩

/-- `ld [0]; ret #1` -/
def loadFirstWord : List SockFilter :=
  [⟨Op.code (.ldAbs .w), 0, 0, 0⟩, ⟨Op.code (.ret .k), 0, 0, 1⟩]

theorem run_accepted_loadFirstWord :
    bpfCheckClassic true loadFirstWord = 0 ∧
      ∃ s f why, run loadFirstWord emptyEnv 2 .init = .stopped s why ∧
        loadFirstWord[s.pc]? = some f ∧ why.Explained emptyEnv s f :=
  ⟨by decide, run_accepted true loadFirstWord (by decide) emptyEnv⟩

theorem loadFirstWord_ends_at_load :
    bpfCheckClassic true loadFirstWord = 0 ∧
      run loadFirstWord emptyEnv 2 .init = .stopped .init .noLoad ∧
      loadFirstWord[State.init.pc]?.bind SockFilter.op = some (.ldAbs .w) := by
  refine ⟨by decide, rfl, by decide⟩

end Cupcake.Net.Filter
