import Cupcake.Net.Filter.Placement
import Cupcake.Net.Filter.Safety

/-! The run of a converted filter follows the run of the classic one, one classic instruction at a
time. -/

namespace Cupcake.Net.Filter

open BitVec List

/-! ## The packet in memory -/

/-- The stack of `__bpf_prog_run` has 512 bytes. -/
def InStack (fp a : BitVec 64) : Prop := (a - (fp - 512)).toNat < 512

structure Field (w : World) (mem : BitVec 64 → BitVec 8) (a : BitVec 64) (n v : ℕ) : Prop where
  value : loadLe mem a n = v
  outside : ∀ i < n, ¬ InStack w.fp (a + BitVec.ofNat 64 i)

/-- The memory holds the packet of the world at `ctx`. -/
structure Shows (l : Layout) (w : World) (mem : BitVec 64 → BitVec 8) : Prop where
  len : Field w mem (w.ctx + l.len.signExtend 64) 4 w.env.skb.len.toNat
  protocol : Field w mem (w.ctx + l.protocol.signExtend 64) 2 w.env.skb.protocol.toNat
  pktType : ∃ v, Field w mem (w.ctx + l.pktType.signExtend 64) 1 v ∧
    v % 8 = w.env.skb.pktType.toNat
  mark : Field w mem (w.ctx + l.mark.signExtend 64) 4 w.env.skb.mark.toNat
  hash : Field w mem (w.ctx + l.hash.signExtend 64) 4 w.env.skb.hash.toNat
  queueMapping : Field w mem (w.ctx + l.queueMapping.signExtend 64) 2 w.env.skb.queueMapping.toNat
  vlanTci : Field w mem (w.ctx + l.vlanTci.signExtend 64) 2 w.env.skb.vlanTci.toNat
  vlanProto : Field w mem (w.ctx + l.vlanProto.signExtend 64) 2 w.env.skb.vlanProto.toNat
  noDev : w.env.skb.dev = none → Field w mem (w.ctx + l.dev.signExtend 64) 8 0
  dev : ∀ d, w.env.skb.dev = some d → ∃ p : BitVec 64, p ≠ 0 ∧
    Field w mem (w.ctx + l.dev.signExtend 64) 8 p.toNat ∧
    Field w mem (p + l.ifindex.signExtend 64) 4 d.ifindex.toNat ∧
    Field w mem (p + l.devType.signExtend 64) 2 d.type.toNat

/-! ## Values -/

@[simp] theorem setWidth_setWidth_32 (v : BitVec 32) : (v.setWidth 64).setWidth 32 = v :=
  setWidth_setWidth_of_le v (by decide)

@[simp] theorem setWidth_signExtend_32 (v : BitVec 32) : (v.signExtend 64).setWidth 32 = v := by
  apply eq_of_getLsbD_eq
  intro i hi
  rw [getLsbD_setWidth, getLsbD_signExtend]
  simp [hi]
  omega

theorem setWidth_32_64 {n : ℕ} (hn : n ≤ 32) (v : BitVec n) :
    (v.setWidth 32).setWidth 64 = v.setWidth 64 :=
  setWidth_setWidth (by omega)

theorem setWidth_eq_zero_iff (v : BitVec 32) : v.setWidth 64 = 0 ↔ v = 0 := by
  constructor
  · intro h
    rw [← setWidth_setWidth_32 v, h]
    rfl
  · rintro rfl
    rfl

@[simp] theorem setWidth_neg_32 (v : BitVec 32) : (-(v.setWidth 64)).setWidth 32 = -v := by
  apply eq_of_toNat_eq
  simp [toNat_neg]

theorem getLsbD_255 : ∀ i < 64, (255#64).getLsbD i = decide (i < 8) := by
  decide

theorem swapBytes_two (v : BitVec 16) :
    swapBytes (v.setWidth 64) 2 = ((swap16 v).setWidth 32).setWidth 64 := by
  apply eq_of_getLsbD_eq
  intro i hi
  have h0 := getLsbD_255 i hi
  have h8 := getLsbD_255 (i - 8) (by omega)
  simp only [swapBytes, swap16, getLsbD_or, getLsbD_and, getLsbD_shiftLeft,
    getLsbD_setWidth, getLsbD_ushiftRight]
  simp only [ofNat_eq_ofNat, Nat.mul_one, Nat.mul_zero, Nat.sub_zero, h0, h8]
  by_cases hlow : i < 8
  · simp [hlow, hi, show i < 32 by omega, show 8 + i < 64 by omega]
  · have hv : v.getLsbD (8 + i) = false := getLsbD_of_ge v (8 + i) (by omega)
    by_cases hhigh : i < 16
    · simp [hlow, hi, hhigh, hv, show i < 32 by omega, show i - 8 < 8 by omega,
        show i - 8 < 64 by omega]
    · simp [hlow, hhigh, hv, show ¬ i - 8 < 8 by omega]

theorem setWidth_and_not_4096 (v : BitVec 16) :
    v.setWidth 32 &&& ~~~ 0x1000#32 = (v &&& ~~~ 0x1000#16).setWidth 32 := by
  have hbit : ∀ i < 16, (~~~ 0x1000#32).getLsbD i = (~~~ 0x1000#16).getLsbD i := by decide
  apply eq_of_getLsbD_eq
  intro i hi
  simp only [getLsbD_and, getLsbD_setWidth, hi, decide_true, Bool.true_and]
  by_cases h : i < 16
  · rw [hbit i h]
  · rw [getLsbD_of_ge v i (by omega), Bool.false_and, Bool.false_and]

theorem setWidth_shift_and_one (v : BitVec 16) :
    (v.setWidth 32 >>> 12) &&& 1#32 = ((v >>> 12) &&& 1#16).setWidth 32 := by
  apply eq_of_toNat_eq
  have := v.isLt
  simp [toNat_ushiftRight, Nat.shiftRight_eq_div_pow]

theorem ofNat_and_seven {n : ℕ} {v : BitVec 3} (h : n % 8 = v.toNat) :
    BitVec.ofNat 32 n &&& 7#32 = v.setWidth 32 := by
  apply eq_of_toNat_eq
  have hv := v.isLt
  rw [toNat_and, toNat_ofNat, toNat_setWidth]
  change n % 2 ^ 32 &&& (2 ^ 3 - 1) = _
  rw [Nat.and_two_pow_sub_one_eq_mod, Nat.mod_eq_of_lt (show v.toNat < 2 ^ 32 by omega)]
  omega

/-! ## Straight code -/

def straight (w : World) : List Insn → EState → Option EState
  | [], e => some e
  | i :: is, e =>
    match e.exec w i none with
    | .next e' => straight w is e'
    | _ => none

def Insn.isStraight (i : Insn) : Bool :=
  match i.op with
  | .ja | .jmp _ _ | .exit | .ldImmDw => false
  | _ => true

section

variable {prog : List Insn} {w : World} {e e' : EState} {i : Insn}

theorem exec_congr (hi : i.op ≠ .ldImmDw) (next : Option Insn) :
    e.exec w i next = e.exec w i none := by
  unfold EState.exec
  cases hop : i.op <;> first | rfl | exact absurd hop hi

theorem estep_of_get {i : Insn} (h : prog[e.pc]? = some i) (hi : i.op ≠ .ldImmDw) :
    estep prog w e = e.exec w i none := by
  unfold estep
  rw [h]
  exact exec_congr hi _

theorem binary_pc {dst : Reg} {n : ℕ} {op : AluOp} {zero : Bool} {a b : BitVec n}
    (h : e.binary dst op zero a b = .next e') : e'.pc = e.pc + 1 := by
  unfold EState.binary at h
  split_ifs at h
  cases h
  rfl

theorem load_pc {size : Size} {off : BitVec 32} (h : e.load w size off = .next e') :
    e'.pc = e.pc + 1 := by
  unfold EState.load at h
  split_ifs at h
  split at h
  · cases h
    rfl
  · cases h

theorem exec_pc (hi : i.isStraight = true) (h : e.exec w i none = .next e') :
    e'.pc = e.pc + 1 := by
  unfold EState.exec at h
  unfold Insn.isStraight at hi
  cases hop : i.op with
  | alu op src => rw [hop] at h; exact binary_pc h
  | alu64 op src => rw [hop] at h; exact binary_pc h
  | ldAbs size => rw [hop] at h; exact load_pc h
  | ldInd size => rw [hop] at h; exact load_pc h
  | ja => rw [hop] at hi; cases hi
  | jmp => rw [hop] at hi; cases hi
  | exit => rw [hop] at hi; cases hi
  | ldImmDw => rw [hop] at hi; cases hi
  | arsh64 src =>
    simp only [hop] at h
    split_ifs at h
    cases h
    rfl
  | call f =>
    simp only [hop, EState.call] at h
    split_ifs at h
    cases h
    rfl
  | _ =>
    rw [hop] at h
    cases h
    rfl

theorem straight_set {r : Reg} {v : BitVec 64} (h : e.exec w i none = e.set r v) :
    straight w [i] e = some (e.put r v) := by
  rw [straight, h]
  rfl

section

variable {p : ℕ} {is : List Insn} (h : Placed prog p (i :: is))

include h

theorem Placed.tail : Placed prog (p + 1) is := by
  intro n insn hn
  rw [Nat.add_assoc, Nat.add_comm 1]
  exact h (n + 1) insn hn

theorem Placed.head : prog[p]? = some i :=
  h 0 i rfl

end

theorem leads_of_straight {is : List Insn} (hp : Placed prog e.pc is)
    (hi : is.all Insn.isStraight = true) (h : straight w is e = some e') :
    Leads prog w e e' ∧ e'.pc = e.pc + is.length := by
  induction is generalizing e with
  | nil =>
    cases h
    exact ⟨Relation.ReflTransGen.refl, rfl⟩
  | cons i is ih =>
    rw [all_cons, Bool.and_eq_true] at hi
    have hne : i.op ≠ .ldImmDw := by
      intro hop
      have := hi.1
      simp [Insn.isStraight, hop] at this
    rw [straight] at h
    split at h
    case h_2 => cases h
    case h_1 e₁ he₁ =>
      have hpc := exec_pc hi.1 he₁
      have htail := hp.tail
      rw [← hpc] at htail
      obtain ⟨hl, hpc'⟩ := ih htail hi.2 h
      refine ⟨(Leads.of_step ?_).trans hl, ?_⟩
      · rw [estep_of_get hp.head hne, he₁]
      · rw [hpc', hpc, length_cons]
        omega

theorem straight_cons {is : List Insn} {t : EState} (h : e.exec w i none = .next t) :
    straight w (i :: is) e = straight w is t := by
  rw [straight, h]

theorem Placed.append {p : ℕ} {is is' : List Insn} (h : Placed prog p (is ++ is')) :
    Placed prog p is ∧ Placed prog (p + is.length) is' := by
  constructor
  · intro n insn hn
    apply h
    rw [List.getElem?_append_left (List.getElem?_eq_some_iff.mp hn).1]
    exact hn
  · intro n insn hn
    rw [Nat.add_assoc]
    apply h
    rw [getElem?_append_right (Nat.le_add_right _ _), Nat.add_sub_cancel_left]
    exact hn

theorem returns_of_straight (is : List Insn) {rest : List Insn} {v : BitVec 32}
    (hp : Placed prog e.pc (is ++ i :: rest)) (hi : is.all Insn.isStraight = true)
    (he : straight w is e = some e') (hne : i.op ≠ .ldImmDw) (hr : e'.exec w i none = .ret v) :
    Returns prog w e v := by
  obtain ⟨hl, hpc⟩ := leads_of_straight hp.append.1 hi he
  have hhead := hp.append.2.head
  rw [← hpc] at hhead
  exact Returns.of_leads hl (Returns.of_ret (by rw [estep_of_get hhead hne, hr]))

theorem load_of_some {size : Size} {off v : BitVec 32} (hctx : e.regs .r6 = w.ctx)
    (hv : w.env.skb.load size off = some v) : e.load w size off = e.set .r0 (v.setWidth 64) := by
  rw [EState.load, if_neg (not_not.mpr hctx), hv]

theorem load_of_none {size : Size} {off : BitVec 32} (hctx : e.regs .r6 = w.ctx)
    (hv : w.env.skb.load size off = none) : e.load w size off = .ret 0 := by
  rw [EState.load, if_neg (not_not.mpr hctx), hv]

theorem exec_alu32 {op : AluOp} {src : Src} {a b : BitVec 32} (hi : i.op = .alu op src)
    (ha : e.regs i.dst = a.setWidth 64) (hb : (e.operand i src).setWidth 32 = b)
    (hdiv : op.divides = false) (hshift : op.shifts = true → b.toNat < 32) :
    e.exec w i none = .next (e.put i.dst ((op.eval a b).setWidth 64)) := by
  unfold EState.exec
  rw [hi]
  simp only [ha, hb, setWidth_setWidth_32]
  rw [EState.binary, if_neg (by simp [hdiv]), if_neg (by simp [hdiv]), if_neg ?_]
  · rfl
  · rintro ⟨hs, hle⟩
    have := hshift hs
    omega

theorem exec_alu32Imm {op : AluOp} {r : Reg} {a imm : BitVec 32} (hr : e.regs r = a.setWidth 64)
    (hdiv : op.divides = false) (hshift : op.shifts = true → imm.toNat < 32) :
    e.exec w (bpfAlu32Imm op r imm) none = .next (e.put r ((op.eval a imm).setWidth 64)) :=
  exec_alu32 rfl hr (setWidth_signExtend_32 imm) hdiv hshift

theorem exec_ctxLoad {size : Size} {off : BitVec 16} {v : BitVec 32}
    (hv : BitVec.ofNat 64 (loadLe e.mem (e.regs .r6 + off.signExtend 64) size.bytes) =
      v.setWidth 64) :
    e.exec w (bpfLdxMem size regA regCtx off) none = .next (e.put .r0 (v.setWidth 64)) := by
  rw [← hv]
  rfl

def EState.called (e : EState) (w : World) (f : Helper) : EState :=
  { e with
    pc := e.pc + 1
    regs := Function.update e.regs .r0
      ((w.env.call f e.calls (e.regs .r2) (e.regs .r3)).setWidth 64)
    calls := e.calls + 1 }

theorem exec_call {f : Helper} (hctx : e.regs .r1 = w.ctx) :
    e.exec w (bpfEmitCall f) none = .next (e.called w f) := by
  change e.call w f = _
  rw [EState.call, if_neg (not_not.mpr hctx)]
  rfl

theorem jump_eq {off : BitVec 16} {t : ℕ} (h : (e.pc : ℤ) + off.toInt + 1 = t) :
    e.jump off = .next { e with pc := t } := by
  simp only [EState.jump, h]
  rw [if_neg (by omega), Int.toNat_natCast]

theorem exec_jmp_true {op : EJmpOp} {src : Src} (hi : i.op = .jmp op src)
    (hc : op.eval (e.regs i.dst) (e.operand i src) = true) {t : ℕ}
    (ht : (e.pc : ℤ) + i.off.toInt + 1 = t) : e.exec w i none = .next { e with pc := t } := by
  simp only [EState.exec, hi, hc, if_true]
  exact jump_eq ht

theorem exec_jmp_false {op : EJmpOp} {src : Src} (hi : i.op = .jmp op src)
    (hc : op.eval (e.regs i.dst) (e.operand i src) = false) :
    e.exec w i none = .next { e with pc := e.pc + 1 } := by
  simp only [EState.exec, hi, hc]
  rfl

theorem Leads.of_exec (h : prog[e.pc]? = some i) (hi : i.op ≠ .ldImmDw)
    (he : e.exec w i none = .next e') : Leads prog w e e' :=
  Leads.of_step (by rw [estep_of_get h hi, he])

end

/-! ## The simulation relation -/

def cellAddr (fp : BitVec 64) (k : ℕ) : BitVec 64 := fp - 64 + BitVec.ofNat 64 (4 * k)

structure Sim (w : World) (mem : BitVec 64 → BitVec 8) (addr : ℕ → ℕ) (s : State) (e : EState) :
    Prop where
  pc : e.pc = addr s.pc
  a : e.regs .r0 = s.a.setWidth 64
  x : e.regs .r7 = s.x.setWidth 64
  ctx : e.regs .r6 = w.ctx
  fp : e.regs .r10 = w.fp
  calls : e.calls = s.calls
  mem : ∀ b, ¬ InStack w.fp b → e.mem b = mem b
  cells : ∀ k v, k < bpfMemwords → s.mem k = some v → loadLe e.mem (cellAddr w.fp k) 4 = v.toNat

section

variable {w : World} {mem : BitVec 64 → BitVec 8} {addr : ℕ → ℕ} {s : State} {e e' : EState}
  {prog : List Insn} {l : Layout} {f : SockFilter}

theorem Sim.field (h : Sim w mem addr s e) {b : BitVec 64} {n v : ℕ} (hf : Field w mem b n v) :
    loadLe e.mem b n = v := by
  rw [← hf.value]
  exact loadLe_congr fun i hi => h.mem _ (hf.outside i hi)

theorem Sim.next (h : Sim w mem addr s e) {c : List Insn} {s' : State}
    (hp : Placed prog (addr s.pc) c) (hnext : addr (s.pc + 1) = addr s.pc + c.length)
    (hi : c.all Insn.isStraight = true) (he : straight w c e = some e') (hpc : s'.pc = s.pc + 1)
    (ha : e'.regs .r0 = s'.a.setWidth 64) (hx : e'.regs .r7 = s'.x.setWidth 64)
    (hctx : e'.regs .r6 = e.regs .r6) (hfp : e'.regs .r10 = e.regs .r10)
    (hcalls : e'.calls = s'.calls) (hmem : e'.mem = e.mem) (hcells : s'.mem = s.mem) :
    ∃ e', Leads prog w e e' ∧ Sim w mem addr s' e' := by
  rw [← h.pc] at hp
  obtain ⟨hl, hpc'⟩ := leads_of_straight hp hi he
  refine ⟨e', hl, ⟨?_, ha, hx, by rw [hctx, h.ctx], by rw [hfp, h.fp], hcalls, ?_, ?_⟩⟩
  · rw [hpc', hpc, hnext, h.pc]
  · rw [hmem]
    exact h.mem
  · rw [hmem, hcells]
    exact h.cells

/-- The verdict of the converted filter where the classic one stops. The exit of a packet without
device returns the register `A`. -/
def State.convertedVerdict (s : State) : Stop → BitVec 32
  | .noDevice => s.a
  | why => why.verdict

structure Follows (prog : List Insn) (w : World) (mem : BitVec 64 → BitVec 8) (addr : ℕ → ℕ)
    (s : State) (e : EState) (r : Result) : Prop where
  next : ∀ s', r = .next s' → s'.bigShift = false →
    ∃ e', Leads prog w e e' ∧ Sim w mem addr s' e'
  stop : ∀ why, r = .stop why → Returns prog w e (s.convertedVerdict why)

structure CodeAt (prog : List Insn) (addr : ℕ → ℕ) (s : State) (c : List Insn) : Prop where
  placed : Placed prog (addr s.pc) c
  next : addr (s.pc + 1) = addr s.pc + c.length

theorem follows_next {s' : State} (h : ∃ e', Leads prog w e e' ∧ Sim w mem addr s' e') :
    Follows prog w mem addr s e (.next s') := by
  constructor
  · rintro _ ⟨⟩ -
    exact h
  · rintro _ ⟨⟩

theorem follows_stop {why : Stop} (h : Returns prog w e (s.convertedVerdict why)) :
    Follows prog w mem addr s e (.stop why) := by
  constructor
  · rintro _ ⟨⟩
  · rintro _ ⟨⟩
    exact h

theorem follows_fault (f : Fault) : Follows prog w mem addr s e (.fault f) := by
  constructor
  · rintro _ ⟨⟩
  · rintro _ ⟨⟩

section

variable {c : List Insn} (h : Sim w mem addr s e) (hc : CodeAt prog addr s c)
  (hi : c.all Insn.isStraight = true) (he : straight w c e = some e')

include h hc hi he

theorem Sim.setA {v : BitVec 32} (ha : e'.regs .r0 = v.setWidth 64)
    (hx : e'.regs .r7 = e.regs .r7) (hctx : e'.regs .r6 = e.regs .r6)
    (hfp : e'.regs .r10 = e.regs .r10) (hcalls : e'.calls = e.calls) (hmem : e'.mem = e.mem) :
    Follows prog w mem addr s e (s.setA v) :=
  follows_next (h.next hc.placed hc.next hi he rfl ha (hx.trans h.x) hctx hfp
    (hcalls.trans h.calls) hmem rfl)

theorem Sim.setX {v : BitVec 32} (hx : e'.regs .r7 = v.setWidth 64)
    (ha : e'.regs .r0 = e.regs .r0) (hctx : e'.regs .r6 = e.regs .r6)
    (hfp : e'.regs .r10 = e.regs .r10) (hcalls : e'.calls = e.calls) (hmem : e'.mem = e.mem) :
    Follows prog w mem addr s e (s.setX v) :=
  follows_next (h.next hc.placed hc.next hi he rfl (ha.trans h.a) hx hctx hfp
    (hcalls.trans h.calls) hmem rfl)

end

theorem Sim.ctxField (h : Sim w mem addr s e) {off : BitVec 16} {n : ℕ} {m : ℕ} {v : BitVec m}
    (hf : Field w mem (w.ctx + off.signExtend 64) n v.toNat) :
    BitVec.ofNat 64 (loadLe e.mem (e.regs .r6 + off.signExtend 64) n) = v.setWidth 64 := by
  rw [h.ctx, h.field hf, ofNat_toNat]

theorem Sim.ctxField16 (h : Sim w mem addr s e) {off : BitVec 16} {n : ℕ} {v : BitVec 16}
    (hf : Field w mem (w.ctx + off.signExtend 64) n v.toNat) :
    BitVec.ofNat 64 (loadLe e.mem (e.regs .r6 + off.signExtend 64) n) =
      (v.setWidth 32).setWidth 64 := by
  rw [h.ctxField hf, setWidth_32_64 (by decide)]

section

variable (h : Sim w mem addr s e)

include h

theorem Sim.ldLen (hs : Shows l w mem)
    (hc : CodeAt prog addr s [bpfLdxMem .w regA regCtx l.len]) :
    Follows prog w mem addr s e (s.setA w.env.skb.len) :=
  h.setA hc rfl rfl (h.ctxField hs.len) rfl rfl rfl rfl rfl

theorem Sim.ldxLen (hs : Shows l w mem)
    (hc : CodeAt prog addr s [bpfLdxMem .w regX regCtx l.len]) :
    Follows prog w mem addr s e (s.setX w.env.skb.len) :=
  h.setX hc rfl rfl (h.ctxField hs.len) rfl rfl rfl rfl rfl

theorem Sim.ldImm (hc : CodeAt prog addr s [bpfMov32Imm regA f.k]) :
    Follows prog w mem addr s e (s.setA f.k) :=
  h.setA hc rfl rfl (congrArg (setWidth 64) (setWidth_signExtend_32 f.k)) rfl rfl rfl rfl rfl

theorem Sim.ldxImm (hc : CodeAt prog addr s [bpfMov32Imm regX f.k]) :
    Follows prog w mem addr s e (s.setX f.k) :=
  h.setX hc rfl rfl (congrArg (setWidth 64) (setWidth_signExtend_32 f.k)) rfl rfl rfl rfl rfl

theorem Sim.tax (hc : CodeAt prog addr s [bpfMov64Reg regX regA]) :
    Follows prog w mem addr s e (s.setX s.a) :=
  h.setX hc rfl rfl h.a rfl rfl rfl rfl rfl

theorem Sim.txa (hc : CodeAt prog addr s [bpfMov64Reg regA regX]) :
    Follows prog w mem addr s e (s.setA s.x) :=
  h.setA hc rfl rfl h.x rfl rfl rfl rfl rfl

theorem Sim.neg (hc : CodeAt prog addr s [⟨.neg, regA, regX, 0, f.k⟩]) :
    Follows prog w mem addr s e (s.setA (-s.a)) := by
  refine h.setA hc rfl rfl ?_ rfl rfl rfl rfl rfl
  change ((-(e.regs .r0)).setWidth 32).setWidth 64 = _
  rw [h.a, setWidth_neg_32]

/-! ### Arithmetic -/

theorem Sim.operand {src : Src} (i : Insn) (hi : i.imm = f.k) (hr : i.src = regX) :
    (e.operand i src).setWidth 32 = s.operand f src := by
  cases src with
  | k => rw [EState.operand, hi, setWidth_signExtend_32, State.operand]
  | x => rw [EState.operand, hr, h.x, setWidth_setWidth_32, State.operand]

theorem Sim.alu {op : AluOp} {src : Src}
    (hc : CodeAt prog addr s [⟨.alu op src, regA, regX, 0, f.k⟩]) :
    Follows prog w mem addr s e (s.alu f op src) := by
  have hexec : e.exec w ⟨.alu op src, regA, regX, 0, f.k⟩ none = e.binary .r0 op
      (src = .x ∧ e.operand ⟨.alu op src, regA, regX, 0, f.k⟩ src = 0) s.a (s.operand f src) := by
    have ha : (e.regs .r0).setWidth 32 = s.a := by rw [h.a, setWidth_setWidth_32]
    rw [← ha, ← h.operand (f := f) ⟨.alu op src, regA, regX, 0, f.k⟩ rfl rfl]
    rfl
  have hstep : estep prog w e = _ := estep_of_get (h.pc ▸ hc.placed.head) (by simp)
  rw [hexec] at hstep
  have hzero : (src = .x ∧ e.operand ⟨.alu op src, regA, regX, 0, f.k⟩ src = 0) ↔
      src = .x ∧ s.operand f src = 0 := by
    apply and_congr_right
    rintro rfl
    rw [EState.operand, State.operand, h.x, setWidth_eq_zero_iff]
  simp only [hzero] at hexec hstep
  unfold EState.binary at hexec hstep
  simp only [State.alu]
  by_cases hdiv : op.divides = true ∧ s.operand f src = 0
  · rw [if_pos hdiv]
    cases src with
    | k => exact follows_fault _
    | x =>
      rw [if_pos (by simpa using hdiv)] at hstep
      exact follows_stop (Returns.of_ret hstep)
  · rw [if_neg hdiv]
    have hdiv' : ¬ (op.divides = true ∧ decide (src = .x ∧ s.operand f src = 0) = true) := by
      simp only [decide_eq_true_eq]
      exact fun hd => hdiv ⟨hd.1, hd.2.2⟩
    rw [if_neg hdiv', if_neg hdiv] at hexec
    by_cases hshift : op.shifts = true ∧ 32 ≤ (s.operand f src).toNat
    · rw [if_pos hshift]
      cases src with
      | k => exact follows_fault _
      | x =>
        constructor
        · rintro _ ⟨⟩ hbig
          cases hbig
        · rintro _ ⟨⟩
    · rw [if_neg hshift]
      rw [if_neg hshift] at hexec
      exact h.setA hc rfl (straight_set hexec) rfl rfl rfl rfl rfl rfl

/-! ### Packet loads -/

theorem Sim.load {i : Insn} {size : Size} {off : BitVec 32} (hi : i.isStraight = true)
    (hexec : e.exec w i none = e.load w size off) (hc : CodeAt prog addr s [i]) :
    Follows prog w mem addr s e (s.load (w.env.skb.load size off)) := by
  cases hv : w.env.skb.load size off with
  | some v =>
    rw [load_of_some h.ctx hv] at hexec
    exact h.setA hc (by simp [hi]) (straight_set hexec) rfl rfl rfl rfl rfl rfl
  | none =>
    have hne : i.op ≠ .ldImmDw := by
      intro hop
      simp [Insn.isStraight, hop] at hi
    refine follows_stop (Returns.of_ret ?_)
    rw [estep_of_get (h.pc ▸ hc.placed.head) hne, hexec, load_of_none h.ctx hv]
    rfl

theorem Sim.ldAbs {size : Size} (hc : CodeAt prog addr s [⟨.ldAbs size, regA, regX, 0, f.k⟩]) :
    Follows prog w mem addr s e (s.load (w.env.skb.load size f.k)) :=
  h.load rfl rfl hc

theorem Sim.ldInd {size : Size} (hc : CodeAt prog addr s [⟨.ldInd size, regA, regX, 0, f.k⟩]) :
    Follows prog w mem addr s e (s.load (w.env.skb.load size (s.x + f.k))) := by
  refine h.load rfl ?_ hc
  have hoff : (f.k.signExtend 64 + e.regs .r7).setWidth 32 = s.x + f.k := by
    rw [h.x, setWidth_add _ _ (by decide), setWidth_signExtend_32, setWidth_setWidth_32,
      add_comm]
  rw [← hoff]
  rfl

theorem Sim.ldxMsh (hc : CodeAt prog addr s (mshInsns f.k)) :
    Follows prog w mem addr s e (s.exec w.env f .ldxMsh) := by
  have hp := hc.placed
  rw [← h.pc] at hp
  cases hv : w.env.skb.load .b f.k with
  | none =>
    simp only [State.exec, hv]
    exact follows_stop (returns_of_straight [bpfMov64Reg regTmp regA] hp rfl rfl
      (by simp [bpfLdAbs]) (load_of_none h.ctx hv))
  | some v =>
    simp only [State.exec, hv]
    have hload : (e.put .r8 (e.regs .r0)).exec w (bpfLdAbs .b f.k) none =
        .next ((e.put .r8 (e.regs .r0)).put .r0 (v.setWidth 64)) :=
      load_of_some (e := e.put .r8 (e.regs .r0)) h.ctx hv
    have hrun : straight w (mshInsns f.k) e = some ((((((e.put .r8 (e.regs .r0)).put .r0
        (v.setWidth 64)).put .r0 ((v &&& 0xf).setWidth 64)).put .r0
        (((v &&& 0xf) <<< 2).setWidth 64)).put .r7 (((v &&& 0xf) <<< 2).setWidth 64)).put .r0
        (e.regs .r0)) := by
      rw [mshInsns, straight_cons (t := e.put .r8 (e.regs .r0)) rfl, straight_cons hload,
        straight_cons (exec_alu32Imm (a := v) rfl rfl (by decide)),
        straight_cons (exec_alu32Imm (a := v &&& 0xf) rfl rfl (by decide))]
      rfl
    exact h.setX hc rfl hrun rfl rfl rfl rfl rfl rfl

/-! ### Ancillary loads -/

theorem Sim.ctxLoad {size : Size} {off : BitVec 16} {v : BitVec 32}
    (hv : BitVec.ofNat 64 (loadLe e.mem (e.regs .r6 + off.signExtend 64) size.bytes) =
      v.setWidth 64) (hc : CodeAt prog addr s [bpfLdxMem size regA regCtx off]) :
    Follows prog w mem addr s e (s.setA v) :=
  h.setA hc rfl rfl hv rfl rfl rfl rfl rfl

theorem Sim.ctxLoadBe {off : BitVec 16} {v : BitVec 16}
    (hv : Field w mem (w.ctx + off.signExtend 64) 2 v.toNat)
    (hc : CodeAt prog addr s [bpfLdxMem .h regA regCtx off, bpfEndian regA 16]) :
    Follows prog w mem addr s e (s.setA ((swap16 v).setWidth 32)) := by
  refine h.setA hc rfl rfl ?_ rfl rfl rfl rfl rfl
  change swapBytes (BitVec.ofNat 64 (loadLe e.mem (e.regs .r6 + off.signExtend 64) 2)) 2 = _
  rw [h.ctxField hv, swapBytes_two]

theorem Sim.pkttype (hs : Shows l w mem)
    (hc : CodeAt prog addr s [bpfLdxMem .b regA regCtx l.pktType, bpfAlu32Imm .and regA 7]) :
    Follows prog w mem addr s e (s.setA (w.env.skb.pktType.setWidth 32)) := by
  obtain ⟨n, hf, hn⟩ := hs.pktType
  have hlt : n < 256 := by
    rw [← hf.value]
    exact loadLe_lt
  have hv : BitVec.ofNat 64 (loadLe e.mem (e.regs .r6 + l.pktType.signExtend 64) 1) =
      (BitVec.ofNat 32 n).setWidth 64 := by
    rw [h.ctx, h.field hf]
    apply eq_of_toNat_eq
    rw [toNat_ofNat, toNat_setWidth, toNat_ofNat]
    omega
  rw [← ofNat_and_seven hn]
  have hrun : straight w [bpfLdxMem .b regA regCtx l.pktType, bpfAlu32Imm .and regA 7] e =
      some ((e.put .r0 ((BitVec.ofNat 32 n).setWidth 64)).put .r0
        ((BitVec.ofNat 32 n &&& 7).setWidth 64)) := by
    rw [straight_cons (exec_ctxLoad hv),
      straight_cons (exec_alu32Imm (a := BitVec.ofNat 32 n) rfl rfl (by decide))]
    rfl
  exact h.setA hc rfl hrun rfl rfl rfl rfl rfl rfl

theorem Sim.vlanTag (hs : Shows l w mem)
    (hc : CodeAt prog addr s [bpfLdxMem .h regA regCtx l.vlanTci,
      bpfAlu32Imm .and regA (~~~ 0x1000)]) :
    Follows prog w mem addr s e (s.setA ((w.env.skb.vlanTci &&& ~~~ 0x1000#16).setWidth 32)) := by
  rw [← setWidth_and_not_4096]
  have hrun : straight w [bpfLdxMem .h regA regCtx l.vlanTci,
      bpfAlu32Imm .and regA (~~~ 0x1000)] e =
      some ((e.put .r0 ((w.env.skb.vlanTci.setWidth 32).setWidth 64)).put .r0
        ((w.env.skb.vlanTci.setWidth 32 &&& ~~~ 0x1000#32).setWidth 64)) := by
    rw [straight_cons (exec_ctxLoad (h.ctxField16 hs.vlanTci)),
      straight_cons (exec_alu32Imm (a := w.env.skb.vlanTci.setWidth 32) rfl rfl (by decide))]
    rfl
  exact h.setA hc rfl hrun rfl rfl rfl rfl rfl rfl

theorem Sim.vlanTagPresent (hs : Shows l w mem)
    (hc : CodeAt prog addr s [bpfLdxMem .h regA regCtx l.vlanTci, bpfAlu32Imm .rsh regA 12,
      bpfAlu32Imm .and regA 1]) :
    Follows prog w mem addr s e
      (s.setA (((w.env.skb.vlanTci >>> 12) &&& 1#16).setWidth 32)) := by
  rw [← setWidth_shift_and_one]
  have hrun : straight w [bpfLdxMem .h regA regCtx l.vlanTci, bpfAlu32Imm .rsh regA 12,
      bpfAlu32Imm .and regA 1] e =
      some (((e.put .r0 ((w.env.skb.vlanTci.setWidth 32).setWidth 64)).put .r0
        ((w.env.skb.vlanTci.setWidth 32 >>> 12).setWidth 64)).put .r0
        (((w.env.skb.vlanTci.setWidth 32 >>> 12) &&& 1#32).setWidth 64)) := by
    rw [straight_cons (exec_ctxLoad (h.ctxField16 hs.vlanTci)),
      straight_cons (exec_alu32Imm (a := w.env.skb.vlanTci.setWidth 32) rfl rfl (by decide)),
      straight_cons (exec_alu32Imm (a := w.env.skb.vlanTci.setWidth 32 >>> 12) rfl rfl (by decide))]
    rfl
  exact h.setA hc rfl hrun rfl rfl rfl rfl rfl rfl

theorem Sim.aluXorX (hc : CodeAt prog addr s [bpfAlu32Reg .xor regA regX]) :
    Follows prog w mem addr s e (s.setA (s.a ^^^ s.x)) := by
  have hx : (e.operand (bpfAlu32Reg .xor regA regX) .x).setWidth 32 = s.x := by
    change (e.regs .r7).setWidth 32 = _
    rw [h.x, setWidth_setWidth_32]
  exact h.setA hc rfl (straight_set (exec_alu32 rfl h.a hx rfl (by simp [AluOp.shifts])))
    rfl rfl rfl rfl rfl rfl

theorem Sim.helper {f : Helper} (hc : CodeAt prog addr s (callInsns f)) :
    Follows prog w mem addr s e (s.helper w.env f) := by
  have hrun : straight w (callInsns f) e =
      some ((((e.put .r1 (e.regs .r6)).put .r2 (e.regs .r0)).put .r3 (e.regs .r7)).called w f) := by
    rw [callInsns, straight_cons (t := e.put .r1 (e.regs .r6)) rfl,
      straight_cons (t := (e.put .r1 (e.regs .r6)).put .r2 (e.regs .r0)) rfl,
      straight_cons (t := ((e.put .r1 (e.regs .r6)).put .r2 (e.regs .r0)).put .r3 (e.regs .r7)) rfl,
      straight_cons (exec_call h.ctx)]
    rfl
  refine follows_next (h.next hc.placed hc.next rfl hrun rfl ?_ h.x rfl rfl ?_ rfl rfl)
  · change (w.env.call f e.calls (e.regs .r0) (e.regs .r7)).setWidth 64 = _
    rw [h.calls, h.a, h.x]
  · exact congrArg (· + 1) h.calls

theorem Sim.leads_dev {p : BitVec 64} {size : Size} {off : BitVec 16}
    (hf : Field w mem (w.ctx + l.dev.signExtend 64) 8 p.toNat)
    (hp : Placed prog e.pc (devInsns l size off)) : Leads prog w e (e.put .r8 p) := by
  refine Leads.of_exec hp.head (by simp [bpfLdxMem]) ?_
  change EResult.next (e.put .r8 (BitVec.ofNat 64
    (loadLe e.mem (e.regs .r6 + l.dev.signExtend 64) 8))) = _
  rw [h.ctxField hf, setWidth_eq]

theorem Sim.noDev {size : Size} {off : BitVec 16} (hd : w.env.skb.dev = none)
    (hs : Shows l w mem) (hc : CodeAt prog addr s (devInsns l size off)) :
    Follows prog w mem addr s e (.stop .noDevice) := by
  have hp := hc.placed
  rw [← h.pc] at hp
  have hl := h.leads_dev (p := 0) (hs.noDev hd) hp
  refine follows_stop (Returns.of_leads (hl.trans (Leads.of_exec hp.tail.head
    (by simp [bpfJmpImm]) (exec_jmp_false rfl rfl))) (Returns.of_ret ?_))
  rw [estep_of_get hp.tail.tail.head (by simp [bpfExitInsn])]
  change EResult.ret ((e.regs .r0).setWidth 32) = .ret s.a
  rw [h.a, setWidth_setWidth_32]

theorem Sim.someDev {size : Size} {off : BitVec 16} {p : BitVec 64} {n : ℕ} {v : BitVec n}
    (hp0 : p ≠ 0) (hf : Field w mem (w.ctx + l.dev.signExtend 64) 8 p.toNat)
    (hv : Field w mem (p + off.signExtend 64) size.bytes v.toNat) (hn : n ≤ 32)
    (hc : CodeAt prog addr s (devInsns l size off)) :
    Follows prog w mem addr s e (s.setA (v.setWidth 32)) := by
  have hp := hc.placed
  rw [← h.pc] at hp
  have hl := h.leads_dev hf hp
  have hjmp : (e.put .r8 p).exec w (bpfJmpImm .jne regTmp 0 1) none =
      .next { e.put .r8 p with pc := e.pc + 3 } := by
    refine exec_jmp_true rfl ?_ ?_
    · exact decide_eq_true hp0
    · change ((e.pc + 1 : ℕ) : ℤ) + 1 + 1 = _
      omega
  have hload : EState.exec { e.put .r8 p with pc := e.pc + 3 } w (bpfLdxMem size regA regTmp off)
      none = .next (EState.put { e.put .r8 p with pc := e.pc + 3 } .r0
        ((v.setWidth 32).setWidth 64)) := by
    rw [setWidth_32_64 hn, ← ofNat_toNat, ← h.field hv]
    rfl
  refine follows_next ⟨_, hl.trans ((Leads.of_exec hp.tail.head (by simp [bpfJmpImm]) hjmp).trans
    (Leads.of_exec hp.tail.tail.tail.head (by simp [bpfLdxMem]) hload)), ?_⟩
  refine ⟨?_, rfl, h.x, h.ctx, h.fp, h.calls, h.mem, h.cells⟩
  change e.pc + 3 + 1 = addr (s.pc + 1)
  rw [hc.next, h.pc]
  rfl

/-! ### Returns -/

theorem Sim.retK (hc : CodeAt prog addr s [bpfMov32Raw .k .r0 regA f.k, bpfExitInsn]) :
    Follows prog w mem addr s e (.stop (.ret f.k)) := by
  have hp := hc.placed
  rw [← h.pc] at hp
  refine follows_stop (returns_of_straight [bpfMov32Raw .k .r0 regA f.k] hp rfl rfl
    (by simp [bpfExitInsn]) ?_)
  change EResult.ret ((((f.k.signExtend 64).setWidth 32).setWidth 64).setWidth 32) = .ret f.k
  simp

theorem Sim.retA (hc : CodeAt prog addr s [bpfMov32Raw .x .r0 regA f.k, bpfExitInsn]) :
    Follows prog w mem addr s e (.stop (.ret s.a)) := by
  have hp := hc.placed
  rw [← h.pc] at hp
  refine follows_stop (returns_of_straight [bpfMov32Raw .x .r0 regA f.k] hp rfl rfl
    (by simp [bpfExitInsn]) ?_)
  change EResult.ret ((((e.regs .r0).setWidth 32).setWidth 64).setWidth 32) = .ret s.a
  rw [h.a]
  simp

theorem Sim.anc {a : Anc} (hs : Shows l w mem)
    (hc : CodeAt prog addr s (convertBpfExtensions l a)) :
    Follows prog w mem addr s e (s.anc w.env a) := by
  cases a with
  | protocol => exact h.ctxLoadBe hs.protocol hc
  | pkttype => exact h.pkttype hs hc
  | ifindex =>
    simp only [State.anc]
    cases hd : w.env.skb.dev with
    | none => exact h.noDev hd hs hc
    | some d =>
      obtain ⟨p, hp, hdev, hv, -⟩ := hs.dev d hd
      simpa using h.someDev hp hdev hv le_rfl hc
  | hatype =>
    simp only [State.anc]
    cases hd : w.env.skb.dev with
    | none => exact h.noDev hd hs hc
    | some d =>
      obtain ⟨p, hp, hdev, -, hv⟩ := hs.dev d hd
      exact h.someDev hp hdev hv (by decide) hc
  | mark => exact h.ctxLoad (h.ctxField hs.mark) hc
  | rxhash => exact h.ctxLoad (h.ctxField hs.hash) hc
  | queue => exact h.ctxLoad (h.ctxField16 hs.queueMapping) hc
  | vlanTag => exact h.vlanTag hs hc
  | vlanTagPresent => exact h.vlanTagPresent hs hc
  | vlanTpid => exact h.ctxLoadBe hs.vlanProto hc
  | aluXorX => exact h.aluXorX hc
  | payOffset => exact h.helper hc
  | nlattr => exact h.helper hc
  | nlattrNest => exact h.helper hc
  | cpu => exact h.helper hc
  | random => exact h.helper hc

end

end

end Cupcake.Net.Filter
