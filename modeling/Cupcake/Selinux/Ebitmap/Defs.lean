import Cupcake.Lib.Word
import Mathlib.Data.Fintype.Pi

/-! The extensible bitmaps of `ebitmap.c` and `ebitmap.h` on a 64-bit machine. A `BUG_ON`
that fires gives no result. -/

namespace Cupcake.Selinux

abbrev ebitmapUnitNums : ℕ := 6

instance : NeZero ebitmapUnitNums := ⟨by decide⟩

def ebitmapUnitSize : ℕ := 64

def ebitmapSize : ℕ := 384

structure EbitmapNode where
  maps : Fin ebitmapUnitNums → BitVec 64
  startbit : ℕ
  deriving DecidableEq

structure Ebitmap where
  node : List EbitmapNode
  highbit : ℕ
  deriving DecidableEq

def ebitmapInit : Ebitmap := ⟨[], 0⟩

namespace EbitmapNode

def index (n : EbitmapNode) (bit : ℕ) : ℕ := wsub 32 (bit % 2 ^ 32) n.startbit / ebitmapUnitSize

def offset (n : EbitmapNode) (bit : ℕ) : ℕ := wsub 32 (bit % 2 ^ 32) n.startbit % ebitmapUnitSize

def getBit (n : EbitmapNode) (bit : ℕ) : Option Bool :=
  if h : n.index bit < ebitmapUnitNums then
    some (n.maps ⟨n.index bit, h⟩ &&& (1#64 <<< n.offset bit) ≠ 0)
  else none

def setBit (n : EbitmapNode) (bit : ℕ) : Option EbitmapNode :=
  if h : n.index bit < ebitmapUnitNums then
    some ⟨Function.update n.maps ⟨n.index bit, h⟩
      (n.maps ⟨n.index bit, h⟩ ||| (1#64 <<< n.offset bit)), n.startbit⟩
  else none

def clrBit (n : EbitmapNode) (bit : ℕ) : Option EbitmapNode :=
  if h : n.index bit < ebitmapUnitNums then
    some ⟨Function.update n.maps ⟨n.index bit, h⟩
      (n.maps ⟨n.index bit, h⟩ &&& ~~~(1#64 <<< n.offset bit)), n.startbit⟩
  else none

def test (n : EbitmapNode) (ofs : ℕ) : Bool :=
  if h : ofs / 64 < ebitmapUnitNums then (n.maps ⟨ofs / 64, h⟩).getLsbD (ofs % 64) else false

/-- `find_next_bit(maps, EBITMAP_SIZE, ofs)` -/
def findNextBit (n : EbitmapNode) (ofs : ℕ) : ℕ :=
  ((List.range' ofs (ebitmapSize - ofs)).find? n.test).getD ebitmapSize

/-- `find_first_bit(maps, EBITMAP_SIZE)` -/
def findFirstBit (n : EbitmapNode) : ℕ := n.findNextBit 0

end EbitmapNode

/-! ## Reading -/

def getBitLoop (bit : ℕ) : List EbitmapNode → Option Bool
  | [] => some false
  | n :: ns =>
    if n.startbit ≤ bit then
      if n.startbit + ebitmapSize > bit then n.getBit bit else getBitLoop bit ns
    else some false

def ebitmapGetBit (e : Ebitmap) (bit : ℕ) : Option Bool :=
  if e.highbit < bit then some false else getBitLoop bit e.node

def cmpLoop : List EbitmapNode → List EbitmapNode → Bool
  | n₁ :: l₁, n₂ :: l₂ =>
    if n₁.startbit = n₂.startbit ∧ n₁.maps = n₂.maps then cmpLoop l₁ l₂ else false
  | [], [] => true
  | _, _ => false

def ebitmapCmp (e₁ e₂ : Ebitmap) : Bool :=
  if e₁.highbit ≠ e₂.highbit then false else cmpLoop e₁.node e₂.node

/-- `__fls` -/
def fls (w : BitVec 64) : ℕ := Nat.log2 w.toNat

def lastUnit (n : EbitmapNode) : Option (Fin ebitmapUnitNums) :=
  (List.finRange ebitmapUnitNums).reverse.find? fun i => n.maps i ≠ 0

/-- The body of the loop of `ebitmap_contains` at two nodes that start at one bit. -/
def nodeContains (lastE2bit : ℕ) (n₁ n₂ : EbitmapNode) : Bool :=
  match lastUnit n₂ with
  | none => true
  | some i =>
    if lastE2bit ≠ 0 ∧
        (n₂.startbit + i.val * ebitmapUnitSize + fls (n₂.maps i)) % 2 ^ 32 > lastE2bit then false
    else (List.finRange ebitmapUnitNums).all fun j =>
      i < j ∨ n₁.maps j &&& n₂.maps j = n₂.maps j

def containsLoop (lastE2bit : ℕ) : List EbitmapNode → List EbitmapNode → Bool
  | n₁ :: l₁, n₂ :: l₂ =>
    if n₁.startbit ≤ n₂.startbit then
      if n₁.startbit < n₂.startbit then containsLoop lastE2bit l₁ (n₂ :: l₂)
      else if nodeContains lastE2bit n₁ n₂ then containsLoop lastE2bit l₁ l₂ else false
    else false
  | [], _ :: _ => false
  | _, [] => true

def ebitmapContains (e₁ e₂ : Ebitmap) (lastE2bit : ℕ) : Bool :=
  if e₁.highbit < e₂.highbit then false else containsLoop lastE2bit e₁.node e₂.node

/-! ## Iterating -/

/-- The first bit from a node on, with the node it was found in at the head; `length` at
the end of the list. -/
def firstPositive (length : ℕ) : List EbitmapNode → ℕ × List EbitmapNode
  | [] => (length, [])
  | n :: ns =>
    if n.findFirstBit < ebitmapSize then ((n.startbit + n.findFirstBit) % 2 ^ 32, n :: ns)
    else firstPositive length ns

def ebitmapStartPositive (e : Ebitmap) : ℕ × List EbitmapNode := firstPositive e.highbit e.node

def ebitmapNextPositive (e : Ebitmap) (bit : ℕ) :
    List EbitmapNode → Option (ℕ × List EbitmapNode)
  | [] => none
  | n :: ns =>
    let ofs := n.findNextBit (wadd 32 (wsub 32 bit n.startbit) 1)
    if ofs < ebitmapSize then some ((ofs + n.startbit) % 2 ^ 32, n :: ns)
    else some (firstPositive e.highbit ns)

/-- The rounds of `ebitmap_for_each_positive_bit` from a bit on. -/
def positiveBitsFrom (e : Ebitmap) : ℕ → ℕ × List EbitmapNode → Option (List ℕ)
  | 0, _ => none
  | fuel + 1, (bit, cur) =>
    if bit < e.highbit then do
      let next ← ebitmapNextPositive e bit cur
      let bits ← positiveBitsFrom e fuel next
      return bit :: bits
    else some []

/-- The bits that `ebitmap_for_each_positive_bit` visits. -/
def forEachPositiveBit (e : Ebitmap) : Option (List ℕ) :=
  positiveBitsFrom e (ebitmapSize * e.node.length + 1) (ebitmapStartPositive e)

/-! ## Changing -/

def enomem : Int := -12

/-- The end of the node before, where `highbit` goes when the last node is dropped. -/
def prevEnd : Option EbitmapNode → ℕ
  | none => 0
  | some n => (n.startbit + ebitmapSize) % 2 ^ 32

def newNode (bit : ℕ) : Option EbitmapNode :=
  EbitmapNode.setBit ⟨fun _ => 0, (bit - bit % ebitmapSize) % 2 ^ 32⟩ bit

/-- The loop of `ebitmap_set_bit` behind the node `prev`: the nodes from there on, `highbit`
and the result. -/
def setBitLoop (bit : ℕ) (value alloc : Bool) (highbit : ℕ) :
    Option EbitmapNode → List EbitmapNode → Option (List EbitmapNode × ℕ × Int)
  | _, [] =>
    if value then
      if alloc then do
        let new ← newNode bit
        return ([new], (new.startbit + ebitmapSize) % 2 ^ 32, 0)
      else some ([], highbit, enomem)
    else some ([], highbit, 0)
  | prev, n :: ns =>
    if n.startbit ≤ bit then
      if n.startbit + ebitmapSize > bit then
        if value then do
          let n ← n.setBit bit
          return (n :: ns, highbit, 0)
        else do
          let n ← n.clrBit bit
          if n.findFirstBit < ebitmapSize then return (n :: ns, highbit, 0)
          else return (ns, if ns = [] then prevEnd prev else highbit, 0)
      else do
        let (ns, highbit, ret) ← setBitLoop bit value alloc highbit (some n) ns
        return (n :: ns, highbit, ret)
    else if value then
      if alloc then do
        let new ← newNode bit
        return (new :: n :: ns, highbit, 0)
      else some (n :: ns, highbit, enomem)
    else some (n :: ns, highbit, 0)

/-- `ebitmap_set_bit`; `alloc` says whether `kzalloc` succeeds. -/
def ebitmapSetBit (e : Ebitmap) (bit : ℕ) (value alloc : Bool) : Option (Ebitmap × Int) := do
  let (ns, highbit, ret) ← setBitLoop bit value alloc e.highbit none e.node
  return (⟨ns, highbit⟩, ret)

def cpyLoop : ℕ → List EbitmapNode → Option (List EbitmapNode)
  | _, [] => some []
  | 0, _ :: _ => none
  | allocs + 1, n :: ns => (cpyLoop allocs ns).map (⟨n.maps, n.startbit⟩ :: ·)

def ebitmapCpy (src : Ebitmap) (allocs : ℕ) : Ebitmap × Int :=
  match cpyLoop allocs src.node with
  | some ns => (⟨ns, src.highbit⟩, 0)
  | none => (ebitmapInit, enomem)

end Cupcake.Selinux
