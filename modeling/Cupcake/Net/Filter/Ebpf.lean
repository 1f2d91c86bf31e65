import Cupcake.Lib.Memory
import Cupcake.Net.Filter.Classic

/-! Extended BPF: the instructions, and the interpreter `__bpf_prog_run`. Tail calls, which need
program maps, are left out. -/

namespace Cupcake.Net.Filter

open Function

/-! ## Instructions -/

inductive Reg where
  | r0 | r1 | r2 | r3 | r4 | r5 | r6 | r7 | r8 | r9 | r10
  deriving DecidableEq, Repr

abbrev regA : Reg := .r0

abbrev regX : Reg := .r7

abbrev regTmp : Reg := .r8

abbrev regCtx : Reg := .r6

abbrev regFp : Reg := .r10

inductive EJmpOp where
  | jeq | jne | jgt | jge | jsgt | jsge | jset
  deriving DecidableEq, Repr

/-- The operations of extended instructions. The address of a helper in the immediate of a call is
the helper itself here. -/
inductive EOp where
  | alu (op : AluOp) (src : Src)
  | alu64 (op : AluOp) (src : Src)
  | neg | neg64
  | mov (src : Src)
  | mov64 (src : Src)
  | arsh64 (src : Src)
  | toBe | toLe
  | call (h : Helper)
  | ja
  | jmp (op : EJmpOp) (src : Src)
  | exit
  | stx (size : Size)
  | st (size : Size)
  | ldx (size : Size)
  | xadd (size : Size)
  | ldAbs (size : Size)
  | ldInd (size : Size)
  | ldImmDw

/-- `struct bpf_insn`, with the signed fields `off` and `imm`. -/
structure Insn where
  op : EOp
  dst : Reg
  src : Reg
  off : BitVec 16
  imm : BitVec 32

/-! ## The interpreter -/

structure EState where
  pc : ℕ
  regs : Reg → BitVec 64
  mem : BitVec 64 → BitVec 8
  calls : ℕ

/-- What a run is given: the packet and the helpers, the address `ctx` of the packet, and the end
`fp` of the stack. -/
structure World where
  env : Env
  ctx : BitVec 64
  fp : BitVec 64

/-- `undefined` is a shift by the width or more, a division by a constant zero, leaving the
program, or a packet access without the packet in the context register. -/
inductive EResult where
  | next (s : EState)
  | ret (v : BitVec 32)
  | undefined

namespace EState

def put (s : EState) (r : Reg) (v : BitVec 64) : EState :=
  { s with pc := s.pc + 1, regs := update s.regs r v }

def set (s : EState) (r : Reg) (v : BitVec 64) : EResult := .next (s.put r v)

def jump (s : EState) (off : BitVec 16) : EResult :=
  let target : Int := s.pc + off.toInt + 1
  if target < 0 then .undefined else .next { s with pc := target.toNat }

def operand (s : EState) (i : Insn) : Src → BitVec 64
  | .k => i.imm.signExtend 64
  | .x => s.regs i.src

/-- A binary operation in `n` bits, on operands that have been cut down to them; `zero` says that
the whole second operand is a register with value 0. -/
def binary (s : EState) (dst : Reg) {n : ℕ} (op : AluOp) (zero : Bool) (a b : BitVec n) : EResult :=
  if op.divides ∧ zero then .ret 0
  else if op.divides ∧ b = 0 then .undefined
  else if op.shifts ∧ n ≤ b.toNat then .undefined
  else s.set dst ((op.eval a b).setWidth 64)

def address (s : EState) (r : Reg) (off : BitVec 16) : BitVec 64 :=
  s.regs r + off.signExtend 64

def store (s : EState) (i : Insn) (size : Size) (v : BitVec 64) : EResult :=
  .next { s with
    pc := s.pc + 1
    mem := storeLe s.mem (s.address i.dst i.off) v.toNat size.bytes }

/-- `bpf_load_pointer` on the packet in the context register. -/
def load (s : EState) (w : World) (size : Size) (off : BitVec 32) : EResult :=
  if s.regs regCtx ≠ w.ctx then .undefined
  else
    match w.env.skb.load size off with
    | some v => s.set .r0 (v.setWidth 64)
    | none => .ret 0

def call (s : EState) (w : World) (h : Helper) : EResult :=
  if s.regs .r1 ≠ w.ctx then .undefined
  else
    .next { s with
      pc := s.pc + 1
      regs := update s.regs .r0
        ((w.env.call h s.calls (s.regs .r2) (s.regs .r3)).setWidth 64)
      calls := s.calls + 1 }

end EState

def EJmpOp.eval (op : EJmpOp) (a b : BitVec 64) : Bool :=
  match op with
  | .jeq => a = b
  | .jne => a ≠ b
  | .jgt => b.toNat < a.toNat
  | .jge => b.toNat ≤ a.toNat
  | .jsgt => b.toInt < a.toInt
  | .jsge => b.toInt ≤ a.toInt
  | .jset => a &&& b ≠ 0

def swapBytes (v : BitVec 64) : ℕ → BitVec 64
  | 0 => 0
  | n + 1 => ((v &&& 0xff) <<< (8 * n)) ||| swapBytes (v >>> 8) n

def toBe (v : BitVec 64) (imm : BitVec 32) : BitVec 64 :=
  if imm = 16 then swapBytes v 2
  else if imm = 32 then swapBytes v 4
  else if imm = 64 then swapBytes v 8
  else v

def toLe (v : BitVec 64) (imm : BitVec 32) : BitVec 64 :=
  if imm = 16 then v &&& 0xffff
  else if imm = 32 then v &&& 0xffffffff
  else v

/-- One instruction; `next` is the one after it, whose immediate `LD_IMM_DW` takes. -/
def EState.exec (s : EState) (w : World) (i : Insn) (next : Option Insn) : EResult :=
  match i.op with
  | .alu op src =>
    s.binary i.dst op (src = .x ∧ s.operand i src = 0) ((s.regs i.dst).setWidth 32)
      ((s.operand i src).setWidth 32)
  | .alu64 op src =>
    s.binary i.dst op (src = .x ∧ s.operand i src = 0) (s.regs i.dst) (s.operand i src)
  | .neg => s.set i.dst ((-(s.regs i.dst)).setWidth 32 |>.setWidth 64)
  | .neg64 => s.set i.dst (-(s.regs i.dst))
  | .mov src => s.set i.dst ((s.operand i src).setWidth 32 |>.setWidth 64)
  | .mov64 src => s.set i.dst (s.operand i src)
  | .arsh64 src =>
    if 64 ≤ (s.operand i src).toNat then .undefined
    else s.set i.dst ((s.regs i.dst).sshiftRight (s.operand i src).toNat)
  | .toBe => s.set i.dst (toBe (s.regs i.dst) i.imm)
  | .toLe => s.set i.dst (toLe (s.regs i.dst) i.imm)
  | .call h => s.call w h
  | .ja => s.jump i.off
  | .jmp op src =>
    if op.eval (s.regs i.dst) (s.operand i src) then s.jump i.off
    else .next { s with pc := s.pc + 1 }
  | .exit => .ret ((s.regs .r0).setWidth 32)
  | .stx size => s.store i size (s.regs i.src)
  | .st size => s.store i size (i.imm.signExtend 64)
  | .ldx size => s.set i.dst (BitVec.ofNat 64 (loadLe s.mem (s.address i.src i.off) size.bytes))
  | .xadd size =>
    s.store i size (BitVec.ofNat 64 (loadLe s.mem (s.address i.dst i.off) size.bytes) + s.regs i.src)
  | .ldAbs size => s.load w size i.imm
  | .ldInd size => s.load w size ((i.imm.signExtend 64 + s.regs i.src).setWidth 32)
  | .ldImmDw =>
    match next with
    | none => .undefined
    | some i' =>
      .next { s with
        pc := s.pc + 2
        regs := update s.regs i.dst (i'.imm ++ i.imm) }

def estep (prog : List Insn) (w : World) (s : EState) : EResult :=
  match prog[s.pc]? with
  | none => .undefined
  | some i => s.exec w i prog[s.pc + 1]?

inductive EOutcome where
  | running (s : EState)
  | returned (v : BitVec 32)
  | undefined

def erun (prog : List Insn) (w : World) : ℕ → EState → EOutcome
  | 0, s => .running s
  | n + 1, s =>
    match estep prog w s with
    | .next s' => erun prog w n s'
    | .ret v => .returned v
    | .undefined => .undefined

/-- The state in which `__bpf_prog_run` enters the program; the other registers and the memory
hold anything. -/
def World.entry (w : World) (regs : Reg → BitVec 64) (mem : BitVec 64 → BitVec 8) : EState where
  pc := 0
  regs := update (update (update (update regs
    regFp w.fp) .r1 w.ctx) regA 0) regX 0
  mem := mem
  calls := 0

/-! ## Runs -/

section

variable {prog : List Insn} {w : World} {s s' : EState} {v : BitVec 32}

def Leads (prog : List Insn) (w : World) : EState → EState → Prop :=
  Relation.ReflTransGen fun s s' => estep prog w s = .next s'

def Returns (prog : List Insn) (w : World) (s : EState) (v : BitVec 32) : Prop :=
  ∃ n, erun prog w n s = .returned v

theorem Returns.of_ret (h : estep prog w s = .ret v) : Returns prog w s v := by
  refine ⟨1, ?_⟩
  rw [erun, h]

theorem Returns.of_leads (h : Leads prog w s s') (hr : Returns prog w s' v) :
    Returns prog w s v := by
  induction h using Relation.ReflTransGen.head_induction_on with
  | refl => exact hr
  | head hstep _ ih =>
    obtain ⟨n, hn⟩ := ih
    refine ⟨n + 1, ?_⟩
    rw [erun, hstep]
    exact hn

theorem Leads.of_step (h : estep prog w s = .next s') : Leads prog w s s' :=
  Relation.ReflTransGen.single h

theorem Leads.trans {s'' : EState} (h : Leads prog w s s') (h' : Leads prog w s' s'') :
    Leads prog w s s'' :=
  Relation.ReflTransGen.trans h h'

end

end Cupcake.Net.Filter
