import Cupcake.Net.Filter.Check
import Cupcake.Net.Filter.Ebpf

/-! `bpf_convert_filter` and `bpf_migrate_filter`: the translation of classic filters. -/

namespace Cupcake.Net.Filter

/-- `offsetof` of the fields that translated filters read. -/
structure Layout where
  len : BitVec 16
  protocol : BitVec 16
  pktType : BitVec 16
  dev : BitVec 16
  mark : BitVec 16
  hash : BitVec 16
  queueMapping : BitVec 16
  vlanTci : BitVec 16
  vlanProto : BitVec 16
  ifindex : BitVec 16
  devType : BitVec 16

/-! ## Instruction macros -/

def bpfMov64Reg (dst src : Reg) : Insn := ⟨.mov64 .x, dst, src, 0, 0⟩

def bpfMov32Imm (dst : Reg) (imm : BitVec 32) : Insn := ⟨.mov .k, dst, .r0, 0, imm⟩

def bpfMov32Raw (type : Src) (dst src : Reg) (imm : BitVec 32) : Insn := ⟨.mov type, dst, src, 0, imm⟩

def bpfAlu32Imm (op : AluOp) (dst : Reg) (imm : BitVec 32) : Insn := ⟨.alu op .k, dst, .r0, 0, imm⟩

def bpfAlu32Reg (op : AluOp) (dst src : Reg) : Insn := ⟨.alu op .x, dst, src, 0, 0⟩

def bpfEndian (dst : Reg) (len : BitVec 32) : Insn := ⟨.toBe, dst, .r0, 0, len⟩

def bpfLdAbs (size : Size) (imm : BitVec 32) : Insn := ⟨.ldAbs size, .r0, .r0, 0, imm⟩

def bpfLdxMem (size : Size) (dst src : Reg) (off : BitVec 16) : Insn := ⟨.ldx size, dst, src, off, 0⟩

def bpfStxMem (size : Size) (dst src : Reg) (off : BitVec 16) : Insn := ⟨.stx size, dst, src, off, 0⟩

def bpfJmpImm (op : EJmpOp) (dst : Reg) (imm : BitVec 32) (off : BitVec 16) : Insn :=
  ⟨.jmp op .k, dst, .r0, off, imm⟩

def bpfEmitCall (h : Helper) : Insn := ⟨.call h, .r0, .r0, 0, 0⟩

def bpfExitInsn : Insn := ⟨.exit, .r0, .r0, 0, 0⟩

/-! ## Ancillary loads -/

def callInsns (h : Helper) : List Insn :=
  [bpfMov64Reg .r1 regCtx, bpfMov64Reg .r2 regA, bpfMov64Reg .r3 regX, bpfEmitCall h]

def devInsns (l : Layout) (size : Size) (off : BitVec 16) : List Insn :=
  [bpfLdxMem .dw regTmp regCtx l.dev, bpfJmpImm .jne regTmp 0 1, bpfExitInsn,
    bpfLdxMem size regA regTmp off]

/-- `convert_bpf_extensions`, with `convert_skb_access` in it. -/
def convertBpfExtensions (l : Layout) : Anc → List Insn
  | .protocol => [bpfLdxMem .h regA regCtx l.protocol, bpfEndian regA 16]
  | .pkttype => [bpfLdxMem .b regA regCtx l.pktType, bpfAlu32Imm .and regA 7]
  | .ifindex => devInsns l .w l.ifindex
  | .hatype => devInsns l .h l.devType
  | .mark => [bpfLdxMem .w regA regCtx l.mark]
  | .rxhash => [bpfLdxMem .w regA regCtx l.hash]
  | .queue => [bpfLdxMem .h regA regCtx l.queueMapping]
  | .vlanTag => [bpfLdxMem .h regA regCtx l.vlanTci, bpfAlu32Imm .and regA (~~~ 0x1000)]
  | .vlanTagPresent =>
    [bpfLdxMem .h regA regCtx l.vlanTci, bpfAlu32Imm .rsh regA 12, bpfAlu32Imm .and regA 1]
  | .vlanTpid => [bpfLdxMem .h regA regCtx l.vlanProto, bpfEndian regA 16]
  | .payOffset => callInsns .payOffset
  | .nlattr => callInsns .nlattr
  | .nlattrNest => callInsns .nlattrNest
  | .cpu => callInsns .cpu
  | .random => callInsns .random
  | .aluXorX => [bpfAlu32Reg .xor regA regX]

/-! ## Branches -/

def JmpOp.extended : JmpOp → EJmpOp
  | .jeq => .jeq
  | .jgt => .jgt
  | .jge => .jge
  | .jset => .jset

/-- `BPF_EMIT_JMP`: the offset of the `n`-th instruction emitted for instruction `i`. There are no
addresses yet in the sizing pass. -/
def bpfEmitJmp (len : ℕ) (addrs : Option (ℕ → ℕ)) (i n : ℕ) (target : Int) : Option (BitVec 16) :=
  if target ≥ len ∨ target < 0 then none
  else
    match addrs with
    | some addrs => some (BitVec.ofInt 16 (addrs target.toNat - addrs i - 1) - BitVec.ofNat 16 n)
    | none => some (0 - BitVec.ofNat 16 n)

/-- A constant with its sign bit set goes through the scratch register. -/
structure Compare where
  setup : List Insn
  src : Src
  reg : Reg
  imm : BitVec 32

def compare (f : SockFilter) (src : Src) : Compare :=
  if src = .k ∧ f.k.toInt < 0 then ⟨[bpfMov32Imm regTmp f.k], .x, regTmp, 0⟩
  else
    match src with
    | .k => ⟨[], .k, .r0, f.k⟩
    | .x => ⟨[], .x, regX, f.k⟩

def Compare.insn (c : Compare) (op : EJmpOp) (off : BitVec 16) : Insn :=
  ⟨.jmp op c.src, regA, c.reg, off, c.imm⟩

def convertJmp (len : ℕ) (addrs : Option (ℕ → ℕ)) (i : ℕ) (f : SockFilter) (op : JmpOp) (src : Src) :
    Option (List Insn) :=
  let c := compare f src
  let n := c.setup.length
  if f.jf = 0 then
    (bpfEmitJmp len addrs i n (i + f.jt + 1)).map fun off => c.setup ++ [c.insn op.extended off]
  else if f.jt = 0 ∧ op = .jeq then
    (bpfEmitJmp len addrs i n (i + f.jf + 1)).map fun off => c.setup ++ [c.insn .jne off]
  else
    (bpfEmitJmp len addrs i n (i + f.jt + 1)).bind fun off =>
      (bpfEmitJmp len addrs i (n + 1) (i + f.jf + 1)).map fun off' =>
        c.setup ++ [c.insn op.extended off, ⟨.ja, .r0, .r0, off', 0⟩]

/-! ## Instructions -/

/-- `-(BPF_MEMWORDS - k) * 4` as an offset. -/
def cellOff (k : BitVec 32) : BitVec 16 := (-(16 - k) * 4).setWidth 16

def mshInsns (k : BitVec 32) : List Insn :=
  [bpfMov64Reg regTmp regA, bpfLdAbs .b k, bpfAlu32Imm .and regA 0xf, bpfAlu32Imm .lsh regA 2,
    bpfMov64Reg regX regA, bpfMov64Reg regA regTmp]

/-- What is emitted for instruction `i` with operation `op`; `none` is the jump to `err`. -/
def convertOp (l : Layout) (len : ℕ) (addrs : Option (ℕ → ℕ)) (i : ℕ) (f : SockFilter) :
    Op → Option (List Insn)
  | .alu op src => some [⟨.alu op src, regA, regX, 0, f.k⟩]
  | .neg => some [⟨.neg, regA, regX, 0, f.k⟩]
  | .ldAbs size =>
    match bpfAncHelper f.k with
    | some anc => some (convertBpfExtensions l anc)
    | none => some [⟨.ldAbs size, regA, regX, 0, f.k⟩]
  | .ldInd size => some [⟨.ldInd size, regA, regX, 0, f.k⟩]
  | .ja =>
    (bpfEmitJmp len addrs i 0 (Int.bmod (i + f.k.toNat + 1) (2 ^ 32))).map fun off =>
      [⟨.ja, .r0, .r0, off, 0⟩]
  | .jmp op src => convertJmp len addrs i f op src
  | .ldxMsh => some (mshInsns f.k)
  | .ret .k => some [bpfMov32Raw .k .r0 regA f.k, bpfExitInsn]
  | .ret .a => some [bpfMov32Raw .x .r0 regA f.k, bpfExitInsn]
  | .st => some [bpfStxMem .w regFp regA (cellOff f.k)]
  | .stx => some [bpfStxMem .w regFp regX (cellOff f.k)]
  | .ldMem => some [bpfLdxMem .w regA regFp (cellOff f.k)]
  | .ldxMem => some [bpfLdxMem .w regX regFp (cellOff f.k)]
  | .ldImm => some [bpfMov32Imm regA f.k]
  | .ldxImm => some [bpfMov32Imm regX f.k]
  | .tax => some [bpfMov64Reg regX regA]
  | .txa => some [bpfMov64Reg regA regX]
  | .ldLen => some [bpfLdxMem .w regA regCtx l.len]
  | .ldxLen => some [bpfLdxMem .w regX regCtx l.len]
  | .ldxAbs => some [bpfLdxMem .w regA regCtx (f.k.setWidth 16)]

def convertInsn (l : Layout) (len : ℕ) (addrs : Option (ℕ → ℕ)) (i : ℕ) (f : SockFilter) :
    Option (List Insn) :=
  f.op.bind (convertOp l len addrs i f)

/-! ## Passes -/

/-- The loop of a pass from instruction `i` on, with `pos` the place of the next instruction
emitted. -/
def convertLoop (l : Layout) (len : ℕ) : ℕ → ℕ → Option (ℕ → ℕ) → List SockFilter →
    Option (List Insn × Option (ℕ → ℕ))
  | _, _, addrs, [] => some ([], addrs)
  | i, pos, addrs, f :: fs =>
    let addrs := addrs.map fun a => Function.update a i pos
    (convertInsn l len addrs i f).bind fun insns =>
      (convertLoop l len (i + 1) (pos + insns.length) addrs fs).map fun r => (insns ++ r.1, r.2)

def convertPass (l : Layout) (filter : List SockFilter) (addrs : Option (ℕ → ℕ)) :
    Option (List Insn × Option (ℕ → ℕ)) :=
  (convertLoop l filter.length 0 1 addrs filter).map fun r =>
    (bpfMov64Reg regCtx .r1 :: r.1, r.2)

/-- How a conversion fails: with an error number, or in a `BUG_ON`. -/
inductive Failure where
  | errno (e : Int)
  | bug

/-- `bpf_convert_filter` without a new program: the length. -/
def bpfConvertFilterLen (l : Layout) (filter : List SockFilter) : Except Failure ℕ :=
  if filter.length = 0 ∨ filter.length > bpfMaxinsns then .error (.errno einval)
  else
    match convertPass l filter none with
    | some r => .ok r.1.length
    | none => .error (.errno einval)

def doPass (l : Layout) (filter : List SockFilter) : ℕ → ℕ → Option (ℕ → ℕ) → Option (List Insn)
  | 0, _, _ => none
  | n + 1, newFlen, addrs =>
    match convertPass l filter addrs with
    | none => none
    | some r => if newFlen ≠ r.1.length then doPass l filter n r.1.length r.2 else some r.1

/-- `bpf_convert_filter` with a new program of `newLen` instructions; `alloc` says whether
`kcalloc` finds the memory for the addresses. -/
def bpfConvertFilter (l : Layout) (alloc : Bool) (filter : List SockFilter) (newLen : ℕ) :
    Except Failure (List Insn) :=
  if filter.length = 0 ∨ filter.length > bpfMaxinsns then .error (.errno einval)
  else if alloc = false then .error (.errno enomem)
  else
    match doPass l filter 3 0 (some fun _ => 0) with
    | none => .error (.errno einval)
    | some prog => if newLen ≠ prog.length then .error .bug else .ok prog

/-- Which of the allocations of `bpf_migrate_filter` succeed: the copy of the old filter, the new
program, and the addresses. -/
structure Allocs where
  dup : Bool
  realloc : Bool
  addrs : Bool

def Allocs.all (m : Allocs) : Bool := m.dup && m.realloc && m.addrs

def bpfMigrateFilter (l : Layout) (m : Allocs) (filter : List SockFilter) :
    Except Failure (List Insn) := do
  if m.dup = false then .error (.errno enomem)
  else
    let newLen ← bpfConvertFilterLen l filter
    if m.realloc = false then .error (.errno enomem)
    else bpfConvertFilter l m.addrs filter newLen

end Cupcake.Net.Filter
