import Cupcake.Net.Filter.Skb

/-! Classic socket filters: the instruction codes, and the machine with the registers `A` and `X`
and the scratch cells `M[0..15]` that runs them. -/

namespace Cupcake.Net.Filter

/-! ## Instructions -/

inductive Src where
  | k | x
  deriving DecidableEq, Repr

inductive AluOp where
  | add | sub | mul | div | or | and | lsh | rsh | mod | xor
  deriving DecidableEq, Repr

inductive JmpOp where
  | jeq | jgt | jge | jset
  deriving DecidableEq, Repr

inductive RVal where
  | k | a
  deriving DecidableEq, Repr

/-- The classic instructions. `ldxAbs` stands in converted seccomp filters only, and no filter
that a user passes may contain it. -/
inductive Op where
  | alu (op : AluOp) (src : Src)
  | neg
  | ldAbs (size : Size)
  | ldInd (size : Size)
  | ldLen | ldImm | ldMem
  | ldxLen | ldxMsh | ldxImm | ldxMem | ldxAbs
  | st | stx
  | tax | txa
  | ret (rval : RVal)
  | ja
  | jmp (op : JmpOp) (src : Src)
  deriving DecidableEq, Repr

def Src.code : Src → ℕ
  | .k => 0x00
  | .x => 0x08

def AluOp.code : AluOp → ℕ
  | .add => 0x00
  | .sub => 0x10
  | .mul => 0x20
  | .div => 0x30
  | .or => 0x40
  | .and => 0x50
  | .lsh => 0x60
  | .rsh => 0x70
  | .mod => 0x90
  | .xor => 0xa0

def JmpOp.code : JmpOp → ℕ
  | .jeq => 0x10
  | .jgt => 0x20
  | .jge => 0x30
  | .jset => 0x40

def Size.code : Size → ℕ
  | .w => 0x00
  | .h => 0x08
  | .b => 0x10
  | .dw => 0x18

/-- Class, mode, size, operation and source of an instruction in one number. -/
def Op.code : Op → ℕ
  | .alu op src => 0x04 + op.code + src.code
  | .neg => 0x04 + 0x80
  | .ldAbs size => 0x00 + 0x20 + size.code
  | .ldInd size => 0x00 + 0x40 + size.code
  | .ldLen => 0x00 + 0x80
  | .ldImm => 0x00
  | .ldMem => 0x00 + 0x60
  | .ldxLen => 0x01 + 0x80
  | .ldxMsh => 0x01 + 0xa0 + Size.code .b
  | .ldxImm => 0x01
  | .ldxMem => 0x01 + 0x60
  | .ldxAbs => 0x01 + 0x20
  | .st => 0x02
  | .stx => 0x03
  | .tax => 0x07
  | .txa => 0x07 + 0x80
  | .ret .k => 0x06
  | .ret .a => 0x06 + 0x10
  | .ja => 0x05
  | .jmp op src => 0x05 + op.code + src.code

def ops : List Op :=
  ([AluOp.add, .sub, .mul, .div, .or, .and, .lsh, .rsh, .mod, .xor].flatMap fun op =>
    [Op.alu op .k, .alu op .x]) ++
  [Op.neg, .ldAbs .w, .ldAbs .h, .ldAbs .b, .ldInd .w, .ldInd .h, .ldInd .b, .ldLen, .ldImm, .ldMem,
    .ldxLen, .ldxMsh, .ldxImm, .ldxMem, .ldxAbs, .st, .stx, .tax, .txa, .ret .k, .ret .a, .ja] ++
  ([JmpOp.jeq, .jgt, .jge, .jset].flatMap fun op => [Op.jmp op .k, .jmp op .x])

structure SockFilter where
  code : ℕ
  jt : ℕ
  jf : ℕ
  k : BitVec 32

/-- The instruction that a code stands for in the `switch` statements over `code`. -/
def SockFilter.op (f : SockFilter) : Option Op := ops.find? fun o => o.code = f.code

/-! ## The machine -/

def bpfMemwords : ℕ := 16

/-- `calls` counts the helper calls, `bigShift` records a shift by a register of 32 or more. -/
structure State where
  pc : ℕ
  a : BitVec 32
  x : BitVec 32
  mem : ℕ → Option (BitVec 32)
  calls : ℕ
  bigShift : Bool

/-- The ways a run can end; all but a return give the verdict 0. -/
inductive Stop where
  | ret (verdict : BitVec 32)
  | noLoad
  | divByX
  | noDevice

def Stop.verdict : Stop → BitVec 32
  | .ret v => v
  | _ => 0

inductive Fault where
  | outside | unknownCode | divByConst | shiftByConst | badCell | unsetCell

inductive Result where
  | next (s : State)
  | stop (why : Stop)
  | fault (f : Fault)

def AluOp.eval {n : ℕ} (op : AluOp) (a b : BitVec n) : BitVec n :=
  match op with
  | .add => a + b
  | .sub => a - b
  | .mul => a * b
  | .div => a / b
  | .or => a ||| b
  | .and => a &&& b
  | .lsh => a <<< b.toNat
  | .rsh => a >>> b.toNat
  | .mod => a % b
  | .xor => a ^^^ b

def AluOp.divides : AluOp → Bool
  | .div | .mod => true
  | _ => false

def AluOp.shifts : AluOp → Bool
  | .lsh | .rsh => true
  | _ => false

def JmpOp.eval {n : ℕ} (op : JmpOp) (a b : BitVec n) : Bool :=
  match op with
  | .jeq => a = b
  | .jgt => b.toNat < a.toNat
  | .jge => b.toNat ≤ a.toNat
  | .jset => a &&& b ≠ 0

namespace State

def setA (s : State) (v : BitVec 32) : Result := .next { s with pc := s.pc + 1, a := v }

def setX (s : State) (v : BitVec 32) : Result := .next { s with pc := s.pc + 1, x := v }

def operand (s : State) (f : SockFilter) : Src → BitVec 32
  | .k => f.k
  | .x => s.x

def alu (s : State) (f : SockFilter) (op : AluOp) (src : Src) : Result :=
  let v := s.operand f src
  if op.divides ∧ v = 0 then
    match src with
    | .k => .fault .divByConst
    | .x => .stop .divByX
  else if op.shifts ∧ 32 ≤ v.toNat then
    match src with
    | .k => .fault .shiftByConst
    | .x => .next { s with pc := s.pc + 1, a := op.eval s.a v, bigShift := true }
  else s.setA (op.eval s.a v)

def load (s : State) (v : Option (BitVec 32)) : Result :=
  match v with
  | some v => s.setA v
  | none => .stop .noLoad

def helper (s : State) (env : Env) (h : Helper) : Result :=
  .next { s with
    pc := s.pc + 1
    a := env.call h s.calls (s.a.setWidth 64) (s.x.setWidth 64)
    calls := s.calls + 1 }

def cell (s : State) (k : BitVec 32) (f : BitVec 32 → Result) : Result :=
  if k.toNat < bpfMemwords then
    match s.mem k.toNat with
    | some v => f v
    | none => .fault .unsetCell
  else .fault .badCell

def store (s : State) (k v : BitVec 32) : Result :=
  if k.toNat < bpfMemwords then
    .next { s with pc := s.pc + 1, mem := Function.update s.mem k.toNat (some v) }
  else .fault .badCell

def anc (s : State) (env : Env) : Anc → Result
  | .protocol => s.setA ((swap16 env.skb.protocol).setWidth 32)
  | .pkttype => s.setA (env.skb.pktType.setWidth 32)
  | .ifindex =>
    match env.skb.dev with
    | some dev => s.setA dev.ifindex
    | none => .stop .noDevice
  | .hatype =>
    match env.skb.dev with
    | some dev => s.setA (dev.type.setWidth 32)
    | none => .stop .noDevice
  | .mark => s.setA env.skb.mark
  | .queue => s.setA (env.skb.queueMapping.setWidth 32)
  | .rxhash => s.setA env.skb.hash
  | .vlanTag => s.setA ((env.skb.vlanTci &&& ~~~ 0x1000#16).setWidth 32)
  | .vlanTagPresent => s.setA (((env.skb.vlanTci >>> 12) &&& 1#16).setWidth 32)
  | .vlanTpid => s.setA ((swap16 env.skb.vlanProto).setWidth 32)
  | .aluXorX => s.setA (s.a ^^^ s.x)
  | .payOffset => s.helper env .payOffset
  | .nlattr => s.helper env .nlattr
  | .nlattrNest => s.helper env .nlattrNest
  | .cpu => s.helper env .cpu
  | .random => s.helper env .random

/-- One instruction of a socket filter. `ldxAbs` reads seccomp data, which a packet has not. -/
def exec (s : State) (env : Env) (f : SockFilter) : Op → Result
  | .alu op src => s.alu f op src
  | .neg => s.setA (-s.a)
  | .ldAbs size =>
    match bpfAncHelper f.k with
    | some anc => s.anc env anc
    | none => s.load (env.skb.load size f.k)
  | .ldInd size => s.load (env.skb.load size (s.x + f.k))
  | .ldLen => s.setA env.skb.len
  | .ldImm => s.setA f.k
  | .ldMem => s.cell f.k s.setA
  | .ldxLen => s.setX env.skb.len
  | .ldxMsh =>
    match env.skb.load .b f.k with
    | some v => s.setX ((v &&& 0xf) <<< 2)
    | none => .stop .noLoad
  | .ldxImm => s.setX f.k
  | .ldxMem => s.cell f.k s.setX
  | .ldxAbs => .fault .unknownCode
  | .st => s.store f.k s.a
  | .stx => s.store f.k s.x
  | .tax => s.setX s.a
  | .txa => s.setA s.x
  | .ret .k => .stop (.ret f.k)
  | .ret .a => .stop (.ret s.a)
  | .ja => .next { s with pc := s.pc + f.k.toNat + 1 }
  | .jmp op src =>
    .next { s with pc := s.pc + (if op.eval s.a (s.operand f src) then f.jt else f.jf) + 1 }

end State

def step (filter : List SockFilter) (env : Env) (s : State) : Result :=
  match filter[s.pc]? with
  | none => .fault .outside
  | some f =>
    match f.op with
    | none => .fault .unknownCode
    | some op => s.exec env f op

inductive Outcome where
  | running (s : State)
  | stopped (s : State) (why : Stop)
  | faulted (f : Fault)

def run (filter : List SockFilter) (env : Env) : ℕ → State → Outcome
  | 0, s => .running s
  | n + 1, s =>
    match step filter env s with
    | .next s' => run filter env n s'
    | .stop why => .stopped s why
    | .fault f => .faulted f

def State.init : State := ⟨0, 0, 0, fun _ => none, 0, false⟩

end Cupcake.Net.Filter
