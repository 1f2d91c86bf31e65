import Cupcake.Lib.Word

/-! Packets as a socket filter sees them: `struct sk_buff`, the loads of `bpf_load_pointer`
and the ancillary data behind `SKF_AD_OFF`. -/

namespace Cupcake.Net.Filter

inductive Size where
  | b | h | w | dw
  deriving DecidableEq, Repr

def Size.bytes : Size → ℕ
  | .b => 1
  | .h => 2
  | .w => 4
  | .dw => 8

structure NetDevice where
  ifindex : BitVec 32
  type : BitVec 16

/-- `linear` are the bytes from `head` to the tail pointer, `data` is the offset of `skb->data` in
them, `paged` the fragments. `protocol` and `vlanProto` are in network order. -/
structure Skb where
  linear : List (BitVec 8)
  data : ℕ
  paged : List (BitVec 8)
  networkHeader : ℕ
  macHeader : ℕ
  protocol : BitVec 16
  pktType : BitVec 3
  dev : Option NetDevice
  mark : BitVec 32
  hash : BitVec 32
  queueMapping : BitVec 16
  vlanTci : BitVec 16
  vlanProto : BitVec 16
  data_le : data ≤ linear.length
  len_lt : linear.length + paged.length < 2 ^ 31

/-- The packet proper, without what lies before `skb->data`. -/
def Skb.bytes (skb : Skb) : List (BitVec 8) := skb.linear.drop skb.data ++ skb.paged

def Skb.len (skb : Skb) : BitVec 32 := BitVec.ofNat 32 skb.bytes.length

def slice (l : List (BitVec 8)) (off size : ℕ) : Option (List (BitVec 8)) :=
  if off + size ≤ l.length then some ((l.drop off).take size) else none

def skfNetOff : Int := -0x100000

def skfLlOff : Int := -0x200000

/-- `bpf_internal_load_pointer_neg_helper`: offsets from the network or the link header, up to
the tail pointer. -/
def bpfInternalLoadPointerNegHelper (skb : Skb) (k : Int) (size : ℕ) : Option (List (BitVec 8)) :=
  if k ≥ skfNetOff then slice skb.linear (skb.networkHeader + (k - skfNetOff).toNat) size
  else if k ≥ skfLlOff then slice skb.linear (skb.macHeader + (k - skfLlOff).toNat) size
  else none

def bpfLoadPointer (skb : Skb) (k : BitVec 32) (size : ℕ) : Option (List (BitVec 8)) :=
  if k.toInt ≥ 0 then slice skb.bytes k.toNat size
  else bpfInternalLoadPointerNegHelper skb k.toInt size

/-- `get_unaligned_be32` and its shorter relatives. -/
def getUnalignedBe (l : List (BitVec 8)) : BitVec 32 :=
  l.foldl (fun v b => (v <<< 8) ||| b.setWidth 32) 0

def Skb.load (skb : Skb) (size : Size) (off : BitVec 32) : Option (BitVec 32) :=
  (bpfLoadPointer skb off size.bytes).map getUnalignedBe

def swap16 (v : BitVec 16) : BitVec 16 := (v <<< 8) ||| (v >>> 8)

/-! ## Ancillary data -/

/-- The `SKF_AD_*` numbers. -/
inductive Anc where
  | protocol | pkttype | ifindex | nlattr | nlattrNest | mark | queue | hatype | rxhash | cpu
  | aluXorX | vlanTag | vlanTagPresent | payOffset | random | vlanTpid

def Anc.number : Anc → ℕ
  | .protocol => 0
  | .pkttype => 4
  | .ifindex => 8
  | .nlattr => 12
  | .nlattrNest => 16
  | .mark => 20
  | .queue => 24
  | .hatype => 28
  | .rxhash => 32
  | .cpu => 36
  | .aluXorX => 40
  | .vlanTag => 44
  | .vlanTagPresent => 48
  | .payOffset => 52
  | .random => 56
  | .vlanTpid => 60

def ancs : List Anc :=
  [.protocol, .pkttype, .ifindex, .nlattr, .nlattrNest, .mark, .queue, .hatype, .rxhash, .cpu,
    .aluXorX, .vlanTag, .vlanTagPresent, .payOffset, .random, .vlanTpid]

def skfAdOff : ℕ := 0xfffff000

def bpfAncHelper (k : BitVec 32) : Option Anc := ancs.find? fun a => k.toNat = skfAdOff + a.number

inductive Helper where
  | payOffset | nlattr | nlattrNest | cpu | random

/-- What a run finds outside of the filter: the packet, and the answer of each helper call to its
arguments `a` and `x`, by the number of calls made before it. -/
structure Env where
  skb : Skb
  call : Helper → ℕ → BitVec 64 → BitVec 64 → BitVec 32

end Cupcake.Net.Filter
