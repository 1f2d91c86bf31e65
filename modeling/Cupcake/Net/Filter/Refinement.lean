import Cupcake.Net.Filter.Simulation

/-! Scratch cells and branches of a converted filter, and the refinement of whole runs. -/

namespace Cupcake.Net.Filter

open BitVec List Option

variable {w : World} {mem : BitVec 64 → BitVec 8} {addr : ℕ → ℕ} {s : State} {e e' : EState}
  {prog : List Insn} {l : Layout} {f : SockFilter} {filter : List SockFilter} {fp : BitVec 64}

/-! ## Scratch cells -/

theorem signExtend_cellOff : ∀ i < 16, (cellOff (BitVec.ofNat 32 i)).signExtend 64 =
    -64#64 + BitVec.ofNat 64 (4 * i) := by
  decide

theorem cellAddr_eq {k : BitVec 32} (hk : k.toNat < bpfMemwords) :
    fp + (cellOff k).signExtend 64 = cellAddr fp k.toNat := by
  have h := signExtend_cellOff k.toNat hk
  rw [ofNat_toNat, setWidth_eq] at h
  rw [h, cellAddr, ← add_assoc, sub_eq_add_neg]
  rfl

theorem cellAddr_add (k i : ℕ) :
    cellAddr fp k + BitVec.ofNat 64 i = fp - 512 + BitVec.ofNat 64 (448 + 4 * k + i) := by
  have hbase : fp - 64 = fp - 512 + 448 := by
    rw [sub_add]
    rfl
  rw [cellAddr, hbase, ofNat_add, ofNat_add, ← add_assoc, ← add_assoc]
  rfl

theorem inStack_cell {k i : ℕ} (hk : k < bpfMemwords) (hi : i < 4) :
    InStack fp (cellAddr fp k + BitVec.ofNat 64 i) := by
  have hk : k < 16 := hk
  rw [InStack, cellAddr_add, add_sub_cancel_left, toNat_ofNat]
  omega

theorem cell_ne {j k i i' : ℕ} (hj : j < bpfMemwords) (hk : k < bpfMemwords) (hne : j ≠ k)
    (hi : i < 4) (hi' : i' < 4) :
    cellAddr fp j + BitVec.ofNat 64 i ≠ cellAddr fp k + BitVec.ofNat 64 i' := by
  have hj : j < 16 := hj
  have hk : k < 16 := hk
  intro h
  rw [cellAddr_add, cellAddr_add] at h
  have := add_ofNat_inj (by omega) (by omega) h
  omega

theorem Sim.store (h : Sim w mem addr s e) {r : Reg} {v : BitVec 32}
    (hr : e.regs r = v.setWidth 64) (hc : CodeAt prog addr s [bpfStxMem .w regFp r (cellOff f.k)]) :
    Follows prog w mem addr s e (s.store f.k v) := by
  unfold State.store
  by_cases hk : f.k.toNat < bpfMemwords
  · rw [if_pos hk]
    have hexec : e.exec w (bpfStxMem .w regFp r (cellOff f.k)) none = .next { e with
        pc := e.pc + 1
        mem := storeLe e.mem (cellAddr w.fp f.k.toNat) v.toNat 4 } := by
      change EResult.next { e with
        pc := e.pc + 1
        mem := storeLe e.mem (e.regs .r10 + (cellOff f.k).signExtend 64) (e.regs r).toNat 4 } = _
      rw [hr, h.fp, cellAddr_eq hk, toNat_setWidth, Nat.mod_eq_of_lt (by omega)]
    have hp := hc.placed
    rw [← h.pc] at hp
    refine follows_next ⟨_, Leads.of_exec hp.head (by simp [bpfStxMem]) hexec,
      ⟨?_, h.a, h.x, h.ctx, h.fp, h.calls, ?_, ?_⟩⟩
    · change e.pc + 1 = addr (s.pc + 1)
      rw [hc.next, h.pc]
      rfl
    · intro b hb
      rw [← h.mem b hb]
      apply storeLe_of_forall_ne
      rintro i hi rfl
      exact hb (inStack_cell hk hi)
    · intro j u hj hu
      change loadLe (storeLe e.mem (cellAddr w.fp f.k.toNat) v.toNat 4) _ 4 = _
      by_cases hjk : j = f.k.toNat
      · subst hjk
        simp only [Function.update_self, some.injEq] at hu
        subst hu
        rw [loadLe_storeLe (by decide), Nat.mod_eq_of_lt (show v.toNat < 256 ^ 4 from v.isLt)]
      · simp only [Function.update_of_ne hjk] at hu
        rw [← h.cells j u hj hu]
        refine loadLe_congr fun i hi => storeLe_of_forall_ne fun i' hi' => ?_
        exact cell_ne hj hk hjk hi hi'
  · rw [if_neg hk]
    exact follows_fault _

theorem Sim.cellLoad (h : Sim w mem addr s e) {k : BitVec 32} {v : BitVec 32}
    (hk : k.toNat < bpfMemwords) (hv : s.mem k.toNat = some v) :
    BitVec.ofNat 64 (loadLe e.mem (e.regs .r10 + (cellOff k).signExtend 64) 4) = v.setWidth 64 := by
  rw [h.fp, cellAddr_eq hk, h.cells _ v hk hv, ofNat_toNat]

theorem Sim.cell (h : Sim w mem addr s e) {r : BitVec 32 → Result}
    (hr : ∀ v, BitVec.ofNat 64 (loadLe e.mem (e.regs .r10 + (cellOff f.k).signExtend 64) 4) =
      v.setWidth 64 → Follows prog w mem addr s e (r v)) :
    Follows prog w mem addr s e (s.cell f.k r) := by
  unfold State.cell
  by_cases hk : f.k.toNat < bpfMemwords
  · rw [if_pos hk]
    cases hv : s.mem f.k.toNat with
    | none => exact follows_fault _
    | some v => exact hr v (h.cellLoad hk hv)
  · rw [if_neg hk]
    exact follows_fault _

/-! ## Branches -/

theorem extended_eval (op : JmpOp) (a b : BitVec 32) :
    op.extended.eval (a.setWidth 64) (b.setWidth 64) = op.eval a b := by
  have ha : (a.setWidth 64).toNat = a.toNat := by
    rw [toNat_setWidth, Nat.mod_eq_of_lt (by omega)]
  have hb : (b.setWidth 64).toNat = b.toNat := by
    rw [toNat_setWidth, Nat.mod_eq_of_lt (by omega)]
  cases op with
  | jeq =>
    simp only [JmpOp.extended, EJmpOp.eval, JmpOp.eval, decide_eq_decide]
    rw [toNat_inj.symm, ha, hb, toNat_inj]
  | jgt => simp only [JmpOp.extended, EJmpOp.eval, JmpOp.eval, ha, hb]
  | jge => simp only [JmpOp.extended, EJmpOp.eval, JmpOp.eval, ha, hb]
  | jset =>
    simp only [JmpOp.extended, EJmpOp.eval, JmpOp.eval, decide_eq_decide]
    rw [← setWidth_and]
    exact not_congr (setWidth_eq_zero_iff _)

theorem jne_eval (a b : BitVec 64) : EJmpOp.jne.eval a b = !EJmpOp.jeq.eval a b := by
  simp [EJmpOp.eval]

structure Alike (e₀ e : EState) : Prop where
  a : e.regs .r0 = e₀.regs .r0
  x : e.regs .r7 = e₀.regs .r7
  ctx : e.regs .r6 = e₀.regs .r6
  fp : e.regs .r10 = e₀.regs .r10
  calls : e.calls = e₀.calls
  mem : e.mem = e₀.mem

theorem Alike.refl (e : EState) : Alike e e := ⟨rfl, rfl, rfl, rfl, rfl, rfl⟩

theorem Sim.moved (h : Sim w mem addr s e) (ha : Alike e e') {t : ℕ} (ht : e'.pc = addr t) :
    Sim w mem addr { s with pc := t } e' :=
  ⟨ht, ha.a.trans h.a, ha.x.trans h.x, ha.ctx.trans h.ctx, ha.fp.trans h.fp,
    ha.calls.trans h.calls, fun b hb => (congrFun ha.mem b).trans (h.mem b hb),
    fun k v hk hv => (congrArg (loadLe · _ 4) ha.mem).trans (h.cells k v hk hv)⟩

theorem Sim.jumped (h : Sim w mem addr s e) (ha : Alike e e') (t : ℕ) :
    Sim w mem addr { s with pc := t } { e' with pc := addr t } := by
  have hlike : Alike e { e' with pc := addr t } := ⟨ha.a, ha.x, ha.ctx, ha.fp, ha.calls, ha.mem⟩
  exact h.moved hlike rfl

theorem Sim.compare (h : Sim w mem addr s e) (src : Src) :
    ∃ e₁, straight w (Filter.compare f src).setup e = some e₁ ∧ Alike e e₁ ∧
      ∀ op off, e₁.operand ((Filter.compare f src).insn op off) (Filter.compare f src).src =
        (s.operand f src).setWidth 64 := by
  unfold Filter.compare
  split_ifs with hneg
  · obtain ⟨rfl, -⟩ := hneg
    refine ⟨e.put .r8 (((f.k.signExtend 64).setWidth 32).setWidth 64), rfl,
      ⟨rfl, rfl, rfl, rfl, rfl, rfl⟩, fun op off => ?_⟩
    change ((f.k.signExtend 64).setWidth 32).setWidth 64 = f.k.setWidth 64
    rw [setWidth_signExtend_32]
  · cases src with
    | k =>
      refine ⟨e, rfl, Alike.refl e, fun op off => ?_⟩
      have hmsb : f.k.msb = false := by
        rw [msb_eq_toInt]
        simpa using hneg
      exact signExtend_eq_setWidth_of_msb_false hmsb
    | x => exact ⟨e, rfl, Alike.refl e, fun op off => h.x⟩

theorem all_setup (f : SockFilter) (src : Src) :
    (Filter.compare f src).setup.all Insn.isStraight = true := by
  unfold Filter.compare
  split_ifs
  · rfl
  · cases src <;> rfl

section

variable (h : Sim w mem (place l filter) s e)

include h

theorem Sim.ja (hacc : Accepted filter) {c : List Insn} (hf : s.pc + f.k.toNat + 1 < filter.length)
    (hconv : convertOp l filter.length (some (placeFrom l filter 0 fun _ => 0)) s.pc f .ja = some c)
    (hc : CodeAt prog (place l filter) s c) :
    Follows prog w mem (place l filter) s e (.next { s with pc := s.pc + f.k.toNat + 1 }) := by
  obtain ⟨off, hoff, hland⟩ := emitJmp_lands (l := l) (i := s.pc) (n := 0) hacc
    (show s.pc < s.pc + f.k.toNat + 1 by omega) hf (by decide)
  rw [convertOp, bmod_target hf hacc.length_le] at hconv
  push_cast at hoff
  rw [hoff, map_some, some_inj] at hconv
  subst hconv
  have hp := hc.placed
  rw [Lands, ← h.pc] at hland
  rw [← h.pc] at hp
  refine follows_next ⟨_, Leads.of_exec hp.head (by simp) (jump_eq ?_),
    h.jumped (Alike.refl e) _⟩
  simpa using hland

theorem Sim.branch {src : Src} {op : EJmpOp} {off : BitVec 16} {rest : List Insn} {t : ℕ}
    (hp : Placed prog e.pc
      ((Filter.compare f src).setup ++ (Filter.compare f src).insn op off :: rest))
    (hland : Lands l filter s.pc (Filter.compare f src).setup.length off t) :
    ∃ e₁, Alike e e₁ ∧ e₁.pc = e.pc + (Filter.compare f src).setup.length + 1 ∧
      Placed prog e₁.pc rest ∧
      (op.eval (s.a.setWidth 64) ((s.operand f src).setWidth 64) = true →
        ∃ e', Leads prog w e e' ∧ Sim w mem (place l filter) { s with pc := t } e') ∧
      (op.eval (s.a.setWidth 64) ((s.operand f src).setWidth 64) = false → Leads prog w e e₁) := by
  obtain ⟨e₀, hrun, hlike, hoperand⟩ := h.compare (f := f) src
  obtain ⟨hl, hpc⟩ := leads_of_straight hp.append.1 (all_setup f src) hrun
  have hrest := hp.append.2
  rw [← hpc] at hrest
  have ha : e₀.regs .r0 = s.a.setWidth 64 := hlike.a.trans h.a
  refine ⟨{ e₀ with pc := e₀.pc + 1 }, ⟨hlike.a, hlike.x, hlike.ctx, hlike.fp, hlike.calls,
    hlike.mem⟩, congrArg (· + 1) hpc, hrest.tail, fun htrue => ?_, fun hfalse => ?_⟩
  · refine ⟨_, hl.trans (Leads.of_exec hrest.head (by simp [Compare.insn])
      (exec_jmp_true rfl ?_ ?_)), h.jumped hlike t⟩
    · change op.eval (e₀.regs .r0) _ = true
      rw [ha, hoperand]
      exact htrue
    · rw [hpc, h.pc]
      push_cast
      exact hland
  · refine hl.trans (Leads.of_exec hrest.head (by simp [Compare.insn]) (exec_jmp_false rfl ?_))
    change op.eval (e₀.regs .r0) _ = false
    rw [ha, hoperand]
    exact hfalse

theorem Sim.jmp (hacc : Accepted filter) {op : JmpOp}
    {src : Src} {c : List Insn} (ht : s.pc + f.jt + 1 < filter.length)
    (hf : s.pc + f.jf + 1 < filter.length)
    (hconv : convertJmp filter.length (some (placeFrom l filter 0 fun _ => 0)) s.pc f op src =
      some c) (hc : CodeAt prog (place l filter) s c) :
    Follows prog w mem (place l filter) s e (.next { s with
      pc := s.pc + (if op.eval s.a (s.operand f src) then f.jt else f.jf) + 1 }) := by
  have heval := extended_eval op s.a (s.operand f src)
  have hp := hc.placed
  have hnext := hc.next
  rw [← h.pc] at hp hnext
  apply follows_next
  obtain ⟨h0, off, rfl, hland⟩ | ⟨⟨h0, rfl⟩, off, rfl, hland⟩ | ⟨off, off', rfl, hland, hland'⟩ :=
    convertJmp_cases hacc ht hf hconv
  · obtain ⟨e₁, hlike, hpc, -, htrue, hfalse⟩ := h.branch hp hland
    by_cases hcond : op.eval s.a (s.operand f src) = true
    · rw [if_pos hcond]
      exact htrue (heval.trans hcond)
    · rw [if_neg hcond, h0]
      have hcond := Bool.eq_false_of_not_eq_true hcond
      refine ⟨e₁, hfalse (heval.trans hcond), h.moved hlike ?_⟩
      rw [hpc, Nat.add_zero, hnext, length_append]
      rfl
  · obtain ⟨e₁, hlike, hpc, -, htrue, hfalse⟩ := h.branch hp hland
    rw [jne_eval] at htrue hfalse
    by_cases hcond : JmpOp.jeq.eval s.a (s.operand f src) = true
    · rw [if_pos hcond, h0]
      refine ⟨e₁, hfalse ?_, h.moved hlike ?_⟩
      · rw [show EJmpOp.jeq.eval _ _ = true from heval.trans hcond]
        rfl
      · rw [hpc, Nat.add_zero, hnext, length_append]
        rfl
    · rw [if_neg hcond]
      have hcond := Bool.eq_false_of_not_eq_true hcond
      apply htrue
      rw [show EJmpOp.jeq.eval _ _ = false from heval.trans hcond]
      rfl
  · obtain ⟨e₁, hlike, hpc, hrest, htrue, hfalse⟩ := h.branch hp hland
    by_cases hcond : op.eval s.a (s.operand f src) = true
    · rw [if_pos hcond]
      exact htrue (heval.trans hcond)
    · rw [if_neg hcond]
      have hcond := Bool.eq_false_of_not_eq_true hcond
      refine ⟨_, (hfalse (heval.trans hcond)).trans (Leads.of_exec hrest.head (by simp)
        (jump_eq (t := place l filter (s.pc + f.jf + 1)) ?_)), h.jumped hlike _⟩
      rw [hpc, h.pc, ← hland']
      push_cast
      ring

end

/-! ## Runs -/

theorem codeAt_converted (hacc : Accepted filter) {op : Op} (hf : filter[s.pc]? = some f)
    (hop : f.op = some op) :
    ∃ c, convertOp l filter.length (some (placeFrom l filter 0 fun _ => 0)) s.pc f op = some c ∧
      CodeAt (converted l filter) (place l filter) s c := by
  obtain ⟨c, hc, hlen, -⟩ := convertInsn_isSome (l := l) hacc hf
    (some (placeFrom l filter 0 fun _ => 0))
  refine ⟨c, ?_, converted_placed hacc hf hc, by rw [place, hlen]⟩
  rwa [convertInsn, hop, bind_some] at hc

theorem Sim.exec (h : Sim w mem (place l filter) s e) (hacc : Accepted filter)
    (hs : Shows l w mem) {op : Op} (hf : filter[s.pc]? = some f) (hop : f.op = some op) :
    Follows (converted l filter) w mem (place l filter) s e (s.exec w.env f op) := by
  obtain ⟨c, hconv, hc⟩ := codeAt_converted (l := l) hacc hf hop
  have hchk := hacc.checkOp hf hop
  cases op with
  | ja =>
    have hk : f.k.toNat < filter.length - s.pc - 1 := by simpa [checkOp] using hchk
    exact h.ja hacc (by omega) hconv hc
  | jmp op src =>
    obtain ⟨ht, hf'⟩ : s.pc + f.jt + 1 < filter.length ∧ s.pc + f.jf + 1 < filter.length := by
      simpa [checkOp] using hchk
    exact h.jmp hacc ht hf' hconv hc
  | ldAbs size =>
    simp only [convertOp, State.exec] at hconv ⊢
    cases ha : bpfAncHelper f.k with
    | some a =>
      rw [ha] at hconv
      cases hconv
      exact h.anc hs hc
    | none =>
      rw [ha] at hconv
      cases hconv
      exact h.ldAbs hc
  | ret r =>
    cases r with
    | k =>
      cases hconv
      exact h.retK hc
    | a =>
      cases hconv
      exact h.retA hc
  | alu op src =>
    cases hconv
    exact h.alu hc
  | neg =>
    cases hconv
    exact h.neg hc
  | ldInd size =>
    cases hconv
    exact h.ldInd hc
  | ldLen =>
    cases hconv
    exact h.ldLen hs hc
  | ldImm =>
    cases hconv
    exact h.ldImm hc
  | ldMem =>
    cases hconv
    exact h.cell fun v hv => h.setA hc rfl rfl hv rfl rfl rfl rfl rfl
  | ldxLen =>
    cases hconv
    exact h.ldxLen hs hc
  | ldxMsh =>
    cases hconv
    exact h.ldxMsh hc
  | ldxImm =>
    cases hconv
    exact h.ldxImm hc
  | ldxMem =>
    cases hconv
    exact h.cell fun v hv => h.setX hc rfl rfl hv rfl rfl rfl rfl rfl
  | ldxAbs => exact follows_fault _
  | st =>
    cases hconv
    exact h.store h.a hc
  | stx =>
    cases hconv
    exact h.store h.x hc
  | tax =>
    cases hconv
    exact h.tax hc
  | txa =>
    cases hconv
    exact h.txa hc

theorem bigShift_of_exec (hacc : Accepted filter) {op : Op} {s' : State} {env : Env}
    (hf : filter[s.pc]? = some f) (hop : f.op = some op) (h : s.exec env f op = .next s')
    (hb : s.bigShift = true) : s'.bigShift = true := by
  have hchk := hacc.checkOp hf hop
  have hcell : ∀ r : BitVec 32 → Result, (∀ v s₁, r v = .next s₁ → s₁.bigShift = true) →
      s.cell f.k r = .next s' → s'.bigShift = true := by
    intro r hr hcell
    unfold State.cell at hcell
    split_ifs at hcell
    split at hcell
    · exact hr _ _ hcell
    · cases hcell
  have hstore : ∀ v, s.store f.k v = .next s' → s'.bigShift = true := by
    intro v hstore
    unfold State.store at hstore
    split_ifs at hstore
    cases hstore
    exact hb
  cases op with
  | st => exact hstore _ h
  | stx => exact hstore _ h
  | ldMem => exact hcell _ (by rintro v _ ⟨⟩; exact hb) h
  | ldxMem => exact hcell _ (by rintro v _ ⟨⟩; exact hb) h
  | ldxAbs => cases h
  | ja =>
    cases h
    exact hb
  | jmp =>
    cases h
    exact hb
  | _ =>
    obtain ⟨why, hw, -⟩ | ⟨s₁, hs₁, -, -, hbig⟩ := passes_exec env s hop rfl hchk
    · rw [h] at hw
      cases hw
    · rw [h] at hs₁
      cases hs₁
      exact hbig hb

theorem run_succ_stopped {env : Env} {n : ℕ} {s' : State} {why : Stop}
    (h : run filter env (n + 1) s = .stopped s' why) :
    ∃ f op, filter[s.pc]? = some f ∧ f.op = some op ∧
      (s.exec env f op = .stop why ∧ s' = s ∨
        ∃ s₁, s.exec env f op = .next s₁ ∧ run filter env n s₁ = .stopped s' why) := by
  rw [run, step] at h
  cases hf : filter[s.pc]? with
  | none =>
    rw [hf] at h
    cases h
  | some f =>
    cases hop : f.op with
    | none =>
      simp only [hf, hop] at h
      cases h
    | some op =>
      simp only [hf, hop] at h
      refine ⟨f, op, rfl, hop, ?_⟩
      cases hr : s.exec env f op with
      | fault x =>
        rw [hr] at h
        cases h
      | stop why' =>
        rw [hr] at h
        cases h
        exact .inl ⟨rfl, rfl⟩
      | next s₁ =>
        rw [hr] at h
        exact .inr ⟨s₁, rfl, h⟩

theorem bigShift_of_run (hacc : Accepted filter) {env : Env} {n : ℕ} {s' : State} {why : Stop}
    (h : run filter env n s = .stopped s' why) (hb : s'.bigShift = false) : s.bigShift = false := by
  induction n generalizing s with
  | zero => cases h
  | succ n ih =>
    obtain ⟨f, op, hf, hop, ⟨-, rfl⟩ | ⟨s₁, hs₁, h⟩⟩ := run_succ_stopped h
    · exact hb
    · have h₁ := ih h
      by_contra hs
      rw [bigShift_of_exec hacc hf hop hs₁ (Bool.of_not_eq_false hs)] at h₁
      cases h₁

theorem Sim.run (hacc : Accepted filter) (hs : Shows l w mem) {n : ℕ} {s' : State} {why : Stop}
    (h : Sim w mem (place l filter) s e) (hrun : Filter.run filter w.env n s = .stopped s' why)
    (hb : s'.bigShift = false) :
    Returns (converted l filter) w e (s'.convertedVerdict why) := by
  induction n generalizing s e with
  | zero => cases hrun
  | succ n ih =>
    obtain ⟨f, op, hf, hop, ⟨hstop, rfl⟩ | ⟨s₁, hnext, hrun⟩⟩ := run_succ_stopped hrun
    · exact (h.exec hacc hs hf hop).stop why hstop
    · have hb₁ := bigShift_of_run hacc hrun hb
      obtain ⟨e₁, hl, h₁⟩ := (h.exec hacc hs hf hop).next s₁ hnext hb₁
      exact Returns.of_leads hl (ih h₁ hrun)

/-! ## Conversion -/

/-- The classic target of a branch `i` emitted for instruction `pc`. -/
def branchTarget (pc : ℕ) (f : SockFilter) (i : Insn) : Option ℕ :=
  match f.op, i.op with
  | some .ja, .ja => some (pc + f.k.toNat + 1)
  | some (.jmp op _), .jmp op' _ => some (pc + (if op' = op.extended then f.jt else f.jf) + 1)
  | some (.jmp _ _), .ja => some (pc + f.jf + 1)
  | _, _ => none

/-- The `k`-th instruction emitted for a conditional jump at `pc`. -/
inductive JmpInsn (l : Layout) (filter : List SockFilter) (pc : ℕ) (f : SockFilter) (op : JmpOp)
    (src : Src) (k : ℕ) (i : Insn) : Prop
  | setup (hi : i = bpfMov32Imm regTmp f.k)
  | test (hk : k = (Filter.compare f src).setup.length) (op' : EJmpOp) (off : BitVec 16)
      (hi : i = (Filter.compare f src).insn op' off)
      (ht : op' = op.extended ∧ Lands l filter pc k off (pc + f.jt + 1) ∨
        (op = .jeq ∧ op' = .jne) ∧ Lands l filter pc k off (pc + f.jf + 1))
  | ja (hk : (Filter.compare f src).setup.length < k) (off : BitVec 16)
      (hi : i = ⟨.ja, .r0, .r0, off, 0⟩) (ht : Lands l filter pc k off (pc + f.jf + 1))

theorem compare_cases (f : SockFilter) (src : Src) :
    (Filter.compare f src).setup = [] ∧ (Filter.compare f src).reg ≠ regTmp ∨
      Filter.compare f src = ⟨[bpfMov32Imm regTmp f.k], .x, regTmp, 0⟩ := by
  unfold Filter.compare
  split_ifs
  · exact .inr rfl
  · cases src with
    | k => exact .inl ⟨rfl, fun h => by cases h⟩
    | x => exact .inl ⟨rfl, fun h => by cases h⟩

theorem jmpInsn_of_setup {pc k : ℕ} {op : JmpOp} {src : Src} {is : List Insn} {i : Insn}
    (hi : ((Filter.compare f src).setup ++ is)[k]? = some i)
    (h : ∀ m, k = (Filter.compare f src).setup.length + m → is[m]? = some i →
      JmpInsn l filter pc f op src k i) : JmpInsn l filter pc f op src k i := by
  by_cases hk : k < (Filter.compare f src).setup.length
  · obtain ⟨hnil, -⟩ | hcmp := compare_cases f src
    · rw [hnil] at hk
      cases hk
    · rw [hcmp] at hk hi
      obtain rfl : k = 0 := by simpa using hk
      cases hi
      exact .setup rfl
  · rw [getElem?_append_right (by omega)] at hi
    exact h _ (by omega) hi

theorem jmpInsn_of_convertJmp (hacc : Accepted filter) {pc k : ℕ} {op : JmpOp} {src : Src}
    {insns : List Insn} {i : Insn} (ht : pc + f.jt + 1 < filter.length)
    (hf : pc + f.jf + 1 < filter.length)
    (hc : convertJmp filter.length (some (placeFrom l filter 0 fun _ => 0)) pc f op src = some insns)
    (hi : insns[k]? = some i) : JmpInsn l filter pc f op src k i := by
  obtain ⟨-, off, rfl, hland⟩ | ⟨⟨-, rfl⟩, off, rfl, hland⟩ | ⟨off, off', rfl, hland, hland'⟩ :=
    convertJmp_cases hacc ht hf hc
  · refine jmpInsn_of_setup hi fun m hm hi => ?_
    obtain _ | m := m
    · cases hi
      exact .test hm _ off rfl (.inl ⟨rfl, hm ▸ hland⟩)
    · cases hi
  · refine jmpInsn_of_setup hi fun m hm hi => ?_
    obtain _ | m := m
    · cases hi
      exact .test hm _ off rfl (.inr ⟨⟨rfl, rfl⟩, hm ▸ hland⟩)
    · cases hi
  · refine jmpInsn_of_setup hi fun m hm hi => ?_
    obtain _ | _ | m := m
    · cases hi
      exact .test hm _ off rfl (.inl ⟨rfl, hm ▸ hland⟩)
    · cases hi
      exact .ja (by omega) off' rfl (hm ▸ hland')
    · cases hi

theorem branch_lands (hacc : Accepted filter) {pc : ℕ} {op : Op} {code : List Insn}
    (hf : filter[pc]? = some f) (hop : f.op = some op)
    (hc : convertOp l filter.length (some (placeFrom l filter 0 fun _ => 0)) pc f op = some code)
    {n t : ℕ} {i : Insn} (hi : code[n]? = some i) (ht : branchTarget pc f i = some t) :
    t < filter.length ∧ Lands l filter pc n i.off t := by
  have hchk := hacc.checkOp hf hop
  cases op with
  | ja =>
    have hk : pc + f.k.toNat + 1 < filter.length := by
      have : f.k.toNat < filter.length - pc - 1 := by simpa [checkOp] using hchk
      omega
    obtain ⟨off, hoff, hland⟩ := emitJmp_lands (l := l) (n := 0) hacc
      (show pc < pc + f.k.toNat + 1 by omega) hk (by decide)
    rw [convertOp, bmod_target hk hacc.length_le] at hc
    push_cast at hoff
    rw [hoff, map_some, some_inj] at hc
    subst hc
    cases n with
    | succ n => cases hi
    | zero =>
      cases hi
      simp only [branchTarget, hop, some.injEq] at ht
      subst ht
      exact ⟨hk, hland⟩
  | jmp op src =>
    obtain ⟨hjt, hjf⟩ : pc + f.jt + 1 < filter.length ∧ pc + f.jf + 1 < filter.length := by
      simpa [checkOp] using hchk
    obtain ⟨rfl⟩ | ⟨-, op', off, rfl, htest⟩ | ⟨-, off, rfl, hland⟩ :=
      jmpInsn_of_convertJmp hacc hjt hjf hc hi
    · simp [branchTarget, hop, bpfMov32Imm] at ht
    · simp only [branchTarget, hop, Compare.insn, some.injEq] at ht
      obtain ⟨rfl, hland⟩ | ⟨⟨rfl, rfl⟩, hland⟩ := htest
      · rw [if_pos rfl] at ht
        subst ht
        exact ⟨hjt, hland⟩
      · rw [if_neg (by decide)] at ht
        subst ht
        exact ⟨hjf, hland⟩
    · simp only [branchTarget, hop, some.injEq] at ht
      subst ht
      exact ⟨hjf, hland⟩
  | _ => simp [branchTarget, hop] at ht

theorem Sim.entry (l : Layout) (filter : List SockFilter) (w : World) (regs : Reg → BitVec 64)
    (mem : BitVec 64 → BitVec 8) :
    ∃ e, Leads (converted l filter) w (w.entry regs mem) e ∧
      Sim w mem (place l filter) .init e := by
  refine ⟨(w.entry regs mem).put .r6 w.ctx, Leads.of_exec (i := bpfMov64Reg regCtx .r1) rfl
    (by simp [bpfMov64Reg]) rfl, ⟨rfl, rfl, rfl, rfl, rfl, rfl, fun _ _ => rfl, ?_⟩⟩
  rintro k v - ⟨⟩

/-- The conversion fails only for lack of memory, and the verdict is that of the classic filter
unless a load needs the device of a packet without one while `A` is not zero. -/
theorem convert_correct (l : Layout) (alloc : Bool) (filter : List SockFilter)
    (h : bpfCheckClassic alloc filter = 0) :
    ∃ (prog : List Insn) (addr : ℕ → ℕ) (code : ℕ → List Insn),
      (∀ m, bpfMigrateFilter l m filter =
        if m.all then .ok prog else .error (.errno enomem)) ∧
      bpfConvertFilterLen l filter = .ok prog.length ∧
      (∀ i f, filter[i]? = some f →
        convertInsn l filter.length (some addr) i f = some (code i) ∧ code i ≠ [] ∧
        Placed prog (addr i) (code i) ∧
        ∀ (n : ℕ) insn t, (code i)[n]? = some insn → branchTarget i f insn = some t →
          t < filter.length ∧ (addr i + n : ℤ) + insn.off.toInt + 1 = addr t) ∧
      ∀ w regs mem, Shows l w mem →
        ∃ s why, run filter w.env filter.length .init = .stopped s why ∧
          (s.bigShift = false → ∃ v, Returns prog w (w.entry regs mem) v ∧
            (v = why.verdict ↔ ¬ (why = .noDevice ∧ s.a ≠ 0))) := by
  have hacc := accepted_of_check h
  let addr := placeFrom l filter 0 fun _ => 0
  let code i := ((filter[i]?).bind (convertInsn l filter.length (some addr) i)).getD []
  refine ⟨converted l filter, addr, code, migrate_eq hacc, convertFilterLen_eq hacc, ?_, ?_⟩
  · intro i f hf
    obtain ⟨c, hc, -, hpos, -⟩ := convertInsn_isSome (l := l) hacc hf (some addr)
    have hi : i < filter.length := (List.getElem?_eq_some_iff.mp hf).1
    have hcode : code i = c := by
      simp only [code, hf, bind_some, hc, getD_some]
    have haddr : ∀ j < filter.length, addr j = place l filter j := fun j hj => placeFrom_zero _ hj
    rw [hcode, haddr i hi]
    refine ⟨hc, ne_nil_of_length_pos hpos, converted_placed hacc hf hc, ?_⟩
    intro n insn t hn ht
    obtain ⟨op, hop, -⟩ := hacc.exists_op hf
    rw [convertInsn, hop, bind_some] at hc
    obtain ⟨hlt, hland⟩ := branch_lands hacc hf hop hc hn ht
    rw [haddr t hlt]
    exact ⟨hlt, hland⟩
  · intro w regs mem hs
    obtain ⟨s, f, why, hrun, -⟩ := run_of_accepted hacc w.env
    refine ⟨s, why, hrun, fun hb => ⟨s.convertedVerdict why, ?_, ?_⟩⟩
    · obtain ⟨e, hl, hsim⟩ := Sim.entry l filter w regs mem
      exact Returns.of_leads hl (hsim.run hacc hs hrun hb)
    · cases why with
      | noDevice => simp [State.convertedVerdict, Stop.verdict]
      | _ => simp [State.convertedVerdict]

def someLayout : Layout where
  len := 0
  protocol := 4
  pktType := 6
  dev := 8
  mark := 16
  hash := 20
  queueMapping := 24
  vlanTci := 26
  vlanProto := 28
  ifindex := 0
  devType := 4

def emptyWorld : World := ⟨emptyEnv, 0x1000, 0x10000⟩

theorem loadLe_zero (a : BitVec 64) (n : ℕ) : loadLe (fun _ => 0) a n = 0 := by
  induction n generalizing a with
  | zero => rfl
  | succ n ih =>
    rw [loadLe, ih]
    rfl

theorem field_zero {off : BitVec 16} {n : ℕ} (hoff : off.toNat < 29) (hn : n ≤ 8) :
    Field emptyWorld (fun _ => 0) (emptyWorld.ctx + off.signExtend 64) n 0 := by
  have hfar : ∀ o < 29, ∀ i < 8, 512 ≤ (0x1000#64 + (BitVec.ofNat 16 o).signExtend 64 +
      BitVec.ofNat 64 i - (0x10000#64 - 512#64)).toNat := by
    decide
  refine ⟨loadLe_zero _ n, fun i hi => ?_⟩
  have h := hfar off.toNat hoff i (by omega)
  rw [ofNat_toNat, setWidth_eq] at h
  exact not_lt.mpr h

theorem shows_empty : Shows someLayout emptyWorld fun _ => 0 where
  len := field_zero (by decide) (by decide)
  protocol := field_zero (by decide) (by decide)
  pktType := ⟨0, field_zero (by decide) (by decide), rfl⟩
  mark := field_zero (by decide) (by decide)
  hash := field_zero (by decide) (by decide)
  queueMapping := field_zero (by decide) (by decide)
  vlanTci := field_zero (by decide) (by decide)
  vlanProto := field_zero (by decide) (by decide)
  noDev _ := field_zero (by decide) (by decide)
  dev _ h := by cases h

theorem convert_correct_loadFirstWord :
    bpfCheckClassic true loadFirstWord = 0 ∧ Shows someLayout emptyWorld (fun _ => 0) ∧
      ∃ prog, bpfMigrateFilter someLayout ⟨true, true, true⟩ loadFirstWord = .ok prog ∧
        Returns prog emptyWorld (emptyWorld.entry (fun _ => 7) fun _ => 0) 0 := by
  refine ⟨by decide, shows_empty, ?_⟩
  obtain ⟨prog, -, -, hm, -, -, hrun⟩ :=
    convert_correct someLayout true loadFirstWord (by decide)
  refine ⟨prog, hm _, ?_⟩
  obtain ⟨s, why, hstop, hv⟩ := hrun emptyWorld (fun _ => 7) (fun _ => 0) shows_empty
  have hclassic : run loadFirstWord emptyEnv 2 .init = .stopped .init .noLoad := rfl
  obtain ⟨rfl, rfl⟩ := Outcome.stopped.inj (hclassic.symm.trans hstop)
  obtain ⟨v, hr, hiff⟩ := hv rfl
  have h0 : v = 0 := hiff.mpr (by simp)
  exact h0 ▸ hr

/-- `ld #1; ld #ifidx; ret #0` -/
def loadIfindex : List SockFilter :=
  [⟨Op.code .ldImm, 0, 0, 1⟩, ⟨Op.code (.ldAbs .w), 0, 0, 0xfffff008⟩,
    ⟨Op.code (.ret .k), 0, 0, 0⟩]

theorem loadIfindex_returns_one :
    bpfCheckClassic true loadIfindex = 0 ∧ Shows someLayout emptyWorld (fun _ => 0) ∧
      (∃ s, run loadIfindex emptyEnv 3 .init = .stopped s .noDevice) ∧
      bpfMigrateFilter someLayout ⟨true, true, true⟩ loadIfindex =
        .ok (converted someLayout loadIfindex) ∧
      erun (converted someLayout loadIfindex) emptyWorld 5
        (emptyWorld.entry (fun _ => 0) fun _ => 0) = .returned 1 := by
  have hchk : bpfCheckClassic true loadIfindex = 0 := by decide
  exact ⟨hchk, shows_empty, ⟨_, rfl⟩, migrate_eq (accepted_of_check hchk) _, rfl⟩

end Cupcake.Net.Filter
