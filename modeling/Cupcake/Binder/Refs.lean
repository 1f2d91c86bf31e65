import Cupcake.Lib.Except
import Cupcake.Lib.Tree
import Cupcake.Lib.Word
import Mathlib.Order.Interval.Finset.Nat

/-! The handles of a process in `binder.c`: `binder_get_ref_for_node` and
`binder_delete_ref`, with the two trees they keep. -/

namespace Cupcake.Binder

open List

/-- A `struct binder_node *` from `kzalloc`: in the linear map of a kernel with 39 address bits,
and aligned to `ARCH_KMALLOC_MINALIGN`. -/
structure NodePtr where
  addr : ℕ
  low : 2 ^ 64 - 2 ^ 38 ≤ addr
  high : addr < 2 ^ 64
  aligned : addr % 128 = 0
  deriving DecidableEq

/-- `struct binder_ref`, as far as the trees read it. -/
structure Ref where
  node : NodePtr
  desc : ℕ
  deriving DecidableEq

/-- The refs of a process, and `binder_context_mgr_node`. -/
structure Refs where
  refsByDesc : Tree Ref
  refsByNode : Tree Ref
  contextMgrNode : Option NodePtr

inductive Bug
  /-- the `BUG()` at a descriptor that is in use -/
  | descInUse
  /-- two refs for one node -/
  | nodeInUse

/-- The walk down `refs_by_node`. -/
def findByNode (node : NodePtr) : Tree Ref → Option Ref
  | .leaf => none
  | .node _ l ref r =>
    if node.addr < ref.node.addr then findByNode node l
    else if node.addr > ref.node.addr then findByNode node r
    else some ref

/-- The scan over `refs_by_desc` in order, from the descriptor `desc` on. -/
def scanDesc (desc : ℕ) : List Ref → ℕ
  | [] => desc
  | ref :: refs => if ref.desc > desc then desc else scanDesc (wadd 32 ref.desc 1) refs

def goLeft (bug : Bug) (x y : ℕ) : Except Bug Bool :=
  if x < y then .ok true else if x > y then .ok false else .error bug

def Refs.lowest (s : Refs) (node : NodePtr) : ℕ := if s.contextMgrNode = some node then 0 else 1

variable (B : Tree.Balancer Ref)

/-- `binder_get_ref_for_node`; `alloc` says whether there is memory for a new ref. -/
def binderGetRefForNode (s : Refs) (node : NodePtr) (alloc : Bool) :
    Except Bug (Refs × Option Ref) :=
  match findByNode node s.refsByNode with
  | some ref => .ok (s, some ref)
  | none =>
    if alloc then do
      let newRef : Ref := ⟨node, scanDesc (s.lowest node) s.refsByDesc.toList⟩
      -- the place where the walk ended, which met no ref for the node
      let byNode ← s.refsByNode.link (fun ref => goLeft .nodeInUse node.addr ref.node.addr) newRef
      let byDesc ← s.refsByDesc.link (fun ref => goLeft .descInUse newRef.desc ref.desc) newRef
      return ({ s with refsByNode := B.insertColor byNode, refsByDesc := B.insertColor byDesc },
        some newRef)
    else .ok (s, none)

def binderDeleteRef (s : Refs) (ref : Ref) : Refs :=
  { s with refsByDesc := B.erase ref s.refsByDesc, refsByNode := B.erase ref s.refsByNode }

inductive RefOp
  | get (node : NodePtr) (alloc : Bool)
  | delete (ref : Ref)
  /-- The context manager is set, or its process dies. -/
  | setContextMgr (node : Option NodePtr)

/-- What happens to the refs of a process; only a ref of the process is deleted. -/
def refCall (s : Refs) : RefOp → Except Bug Refs
  | .get node alloc => (binderGetRefForNode B s node alloc).map Prod.fst
  | .delete ref => .ok (if ref ∈ s.refsByDesc.toList then binderDeleteRef B s ref else s)
  | .setContextMgr node => .ok { s with contextMgrNode := node }

def Refs.init (node : Option NodePtr) : Refs := ⟨.leaf, .leaf, node⟩

variable {B} {s : Refs} {node : NodePtr} {ref : Ref} {l : List Ref} {t t' : Tree Ref}

/-! ## The walks -/

def NodePtr.slot (p : NodePtr) : ℕ := (p.addr - (2 ^ 64 - 2 ^ 38)) / 128

theorem NodePtr.slot_lt (p : NodePtr) : p.slot < 2 ^ 31 := by
  have := p.high
  rw [slot]
  omega

theorem NodePtr.ext_addr {a b : NodePtr} (h : a.addr = b.addr) : a = b := by
  cases a
  cases b
  simpa using h

theorem NodePtr.slot_injective : Function.Injective slot := by
  intro p q h
  rw [slot, slot] at h
  have := p.low
  have := q.low
  have := p.aligned
  have := q.aligned
  exact ext_addr (by omega)

theorem findByNode_eq_some_iff (ht : t.toList.Pairwise fun a b => a.node.addr < b.node.addr) :
    findByNode node t = some ref ↔ ref ∈ t.toList ∧ ref.node = node := by
  induction t with
  | leaf => simp [findByNode]
  | node c l a r ihl ihr =>
    rw [Tree.toList_node] at ht ⊢
    obtain ⟨hl, har, hla⟩ := pairwise_append.mp ht
    obtain ⟨ha, hr⟩ := pairwise_cons.mp har
    rw [findByNode, mem_append, mem_cons]
    split_ifs with hlt hgt
    · rw [ihl hl]
      constructor
      · exact fun h => ⟨.inl h.1, h.2⟩
      · rintro ⟨h | rfl | h, rfl⟩
        · exact ⟨h, rfl⟩
        · omega
        · have := ha _ h
          omega
    · rw [ihr hr]
      constructor
      · exact fun h => ⟨.inr (.inr h.1), h.2⟩
      · rintro ⟨h | rfl | h, rfl⟩
        · have := hla _ h a (mem_cons_self ..)
          omega
        · omega
        · exact ⟨h, rfl⟩
    · have heq : a.node = node := NodePtr.ext_addr (by omega)
      constructor
      · rintro h
        obtain rfl := Option.some.inj h
        exact ⟨.inr (.inl rfl), heq⟩
      · rintro ⟨h | rfl | h, rfl⟩
        · have := hla _ h a (mem_cons_self ..)
          omega
        · rfl
        · have := ha _ h
          omega

def Unused (l : List Ref) (low : ℕ) : Set ℕ := {d | low ≤ d ∧ ∀ ref ∈ l, ref.desc ≠ d}

theorem isLeast_scanDesc (low : ℕ) (hl : l.Pairwise fun a b => a.desc < b.desc)
    (hlow : ∀ ref ∈ l, low ≤ ref.desc + 1) (hsmall : ∀ ref ∈ l, ref.desc + 1 < 2 ^ 32) :
    IsLeast (Unused l low) (scanDesc low l) := by
  induction l generalizing low with
  | nil => exact ⟨⟨le_rfl, by simp⟩, fun d hd => hd.1⟩
  | cons a l ih =>
    obtain ⟨ha, hl⟩ := pairwise_cons.mp hl
    have hlow := hlow a (mem_cons_self ..)
    rw [scanDesc]
    split_ifs with hgt
    · refine ⟨⟨le_rfl, forall_mem_cons.mpr ⟨hgt.ne', fun ref href => ?_⟩⟩, fun d hd => hd.1⟩
      exact (hgt.trans (ha ref href)).ne'
    · rw [wadd_of_lt (hsmall a (mem_cons_self ..))]
      obtain ⟨⟨hle, hnot⟩, hleast⟩ := ih (a.desc + 1) hl
        (fun ref href => (ha ref href).trans_le (Nat.le_succ _))
        fun ref href => hsmall ref (mem_cons_of_mem a href)
      refine ⟨⟨by omega, forall_mem_cons.mpr ⟨by omega, hnot⟩⟩, fun d hd => ?_⟩
      obtain ⟨hd, hother⟩ := hd
      have hne := hother a (mem_cons_self ..)
      exact hleast ⟨by omega, fun ref href => hother ref (mem_cons_of_mem a href)⟩

/-! ## The invariant -/

def Refs.refs (s : Refs) : List Ref := s.refsByDesc.toList

structure RefsOk (s : Refs) : Prop where
  perm : s.refsByNode.toList.Perm s.refs
  descs : s.refs.Pairwise fun a b => a.desc < b.desc
  nodes : s.refsByNode.toList.Pairwise fun a b => a.node.addr < b.node.addr
  le_card : ∀ ref ∈ s.refs, ref.desc ≤ 2 ^ 31

theorem RefsOk.nodup_nodes (h : RefsOk s) : (s.refs.map Ref.node).Nodup := by
  refine ((h.perm.map Ref.node).nodup_iff).mp (pairwise_map.mpr (h.nodes.imp ?_))
  exact fun hlt heq => absurd hlt (by rw [heq]; exact lt_irrefl _)

-- Nodes are 128 bytes apart, so there are at most `2 ^ 31` of them.
theorem RefsOk.length_lt (h : RefsOk s) (hnew : ∀ ref ∈ s.refs, ref.node ≠ node) :
    s.refs.length < 2 ^ 31 := by
  have hnd : ((node :: s.refs.map Ref.node).map NodePtr.slot).Nodup := by
    refine (nodup_cons.mpr ⟨fun hmem => ?_, h.nodup_nodes⟩).map NodePtr.slot_injective
    obtain ⟨ref, href, heq⟩ := mem_map.mp hmem
    exact hnew ref href heq
  have hsub : ((node :: s.refs.map Ref.node).map NodePtr.slot).toFinset ⊆ Finset.range (2 ^ 31) := by
    intro x hx
    obtain ⟨p, -, rfl⟩ := mem_map.mp (mem_toFinset.mp hx)
    exact Finset.mem_range.mpr p.slot_lt
  have hcard := Finset.card_le_card hsub
  rw [toFinset_card_of_nodup hnd, Finset.card_range] at hcard
  simp only [length_map, length_cons] at hcard
  omega

theorem RefsOk.le_of_isLeast (h : RefsOk s) (hnew : ∀ ref ∈ s.refs, ref.node ≠ node) {low d : ℕ}
    (hlow : low ≤ 1) (hd : IsLeast (Unused s.refs low) d) : d ≤ 2 ^ 31 := by
  have hsub : Finset.Ico low d ⊆ (s.refs.map Ref.desc).toFinset := by
    intro x hx
    obtain ⟨hle, hlt⟩ := Finset.mem_Ico.mp hx
    by_contra hnot
    refine absurd (hd.2 ⟨hle, fun ref href heq => hnot ?_⟩) (not_le.mpr hlt)
    exact mem_toFinset.mpr (heq ▸ mem_map_of_mem href)
  have hcard := (Finset.card_le_card hsub).trans (toFinset_card_le _)
  rw [Nat.card_Ico, length_map] at hcard
  have := h.length_lt hnew
  omega

theorem pairwise_lt_of_link {key : Ref → ℕ} (hle : t'.toList.Pairwise fun a b => key a ≤ key b)
    (hperm : t'.toList.Perm (ref :: t.toList)) (ht : t.toList.Pairwise fun a b => key a < key b)
    (hne : ∀ a ∈ t.toList, key a ≠ key ref) : t'.toList.Pairwise fun a b => key a < key b := by
  have hnd : t'.toList.Pairwise fun a b => key a ≠ key b := by
    refine hperm.symm.pairwise ?_ Ne.symm
    exact pairwise_cons.mpr ⟨fun a ha => (hne a ha).symm, ht.imp Nat.ne_of_lt⟩
  exact (hle.and hnd).imp fun h => lt_of_le_of_ne h.1 h.2

theorem link_goLeft (key : Ref → ℕ) (bug : Bug) (ref : Ref)
    (ht : t.toList.Pairwise fun a b => key a < key b) (hne : ∀ a ∈ t.toList, key a ≠ key ref) :
    ∃ t', t.link (fun a => goLeft bug (key ref) (key a)) ref = .ok t' ∧
      t'.toList.Perm (ref :: t.toList) ∧ t'.toList.Pairwise fun a b => key a < key b := by
  have hgo : ∀ y ∈ t.toList, goLeft bug (key ref) (key y) = .ok (decide (key ref < key y)) := by
    intro y hy
    have := hne y hy
    rw [goLeft]
    split_ifs with hlt hgt
    · rw [decide_eq_true hlt]
    · rw [decide_eq_false hlt]
    · omega
  obtain ⟨t', hlink, hperm, hle⟩ := Tree.exists_link key _ ref hgo (ht.imp le_of_lt)
  exact ⟨t', hlink, hperm, pairwise_lt_of_link hle hperm ht hne⟩

structure NewRef (s s' : Refs) (node : NodePtr) (ref : Ref) : Prop where
  node_eq : ref.node = node
  least : IsLeast (Unused s.refs (s.lowest node)) ref.desc
  lt : ref.desc < 2 ^ 32
  perm : s'.refs.Perm (ref :: s.refs)

theorem RefsOk.findByNode_eq_none (h : RefsOk s) (hnew : ∀ ref ∈ s.refs, ref.node ≠ node) :
    findByNode node s.refsByNode = none := by
  rw [Option.eq_none_iff_forall_ne_some]
  intro ref hsome
  obtain ⟨hmem, heq⟩ := (findByNode_eq_some_iff h.nodes).mp hsome
  exact hnew ref (h.perm.mem_iff.mp hmem) heq

theorem RefsOk.binderGetRefForNode_new (h : RefsOk s) (hnew : ∀ ref ∈ s.refs, ref.node ≠ node) :
    ∃ s' ref, binderGetRefForNode B s node true = .ok (s', some ref) ∧ RefsOk s' ∧
      NewRef s s' node ref := by
  have hlow : s.lowest node ≤ 1 := by
    rw [Refs.lowest]
    split_ifs <;> omega
  have hleast := isLeast_scanDesc (s.lowest node) h.descs (fun ref _ => by omega)
    fun ref href => by have := h.le_card ref href; omega
  have hle := h.le_of_isLeast hnew hlow hleast
  set ref : Ref := ⟨node, scanDesc (s.lowest node) s.refs⟩ with href
  obtain ⟨byNode, hnode, hpermN, hsortN⟩ := link_goLeft (fun a => a.node.addr) .nodeInUse ref h.nodes
    fun a ha heq => hnew a (h.perm.mem_iff.mp ha) (NodePtr.ext_addr heq)
  obtain ⟨byDesc, hdesc, hpermD, hsortD⟩ := link_goLeft Ref.desc .descInUse ref h.descs hleast.1.2
  refine ⟨⟨B.insertColor byDesc, B.insertColor byNode, s.contextMgrNode⟩, ref, ?_, ⟨?_, ?_, ?_, ?_⟩,
    ⟨rfl, hleast, hle.trans_lt (by decide), ?_⟩⟩
  · simp only [binderGetRefForNode, h.findByNode_eq_none hnew, if_true]
    rw [← Refs.refs, ← href, hnode, ok_bind, hdesc]
    rfl
  · simp only [Refs.refs, B.toList_insertColor]
    exact (hpermN.trans (h.perm.cons ref)).trans hpermD.symm
  · simp only [Refs.refs, B.toList_insertColor]
    exact hsortD
  · simp only [B.toList_insertColor]
    exact hsortN
  · simp only [Refs.refs, B.toList_insertColor]
    intro a ha
    rcases mem_cons.mp (hpermD.mem_iff.mp ha) with rfl | ha
    · exact hle
    · exact h.le_card a ha
  · simp only [Refs.refs, B.toList_insertColor]
    exact hpermD

theorem RefsOk.binderGetRefForNode_old (h : RefsOk s) (hmem : ref ∈ s.refs) (alloc : Bool) :
    binderGetRefForNode B s ref.node alloc = .ok (s, some ref) := by
  have hfind : findByNode ref.node s.refsByNode = some ref :=
    (findByNode_eq_some_iff h.nodes).mpr ⟨h.perm.mem_iff.mpr hmem, rfl⟩
  rw [binderGetRefForNode, hfind]

theorem RefsOk.binderGetRefForNode_failed (h : RefsOk s) (hnew : ∀ ref ∈ s.refs, ref.node ≠ node) :
    binderGetRefForNode B s node false = .ok (s, none) := by
  rw [binderGetRefForNode, h.findByNode_eq_none hnew]
  rfl

theorem RefsOk.binderDeleteRef (h : RefsOk s) (ref : Ref) : RefsOk (binderDeleteRef B s ref) := by
  have hdesc : (Binder.binderDeleteRef B s ref).refs = s.refs.erase ref := B.toList_erase ..
  have hnode : (Binder.binderDeleteRef B s ref).refsByNode.toList = s.refsByNode.toList.erase ref :=
    B.toList_erase ..
  refine ⟨?_, ?_, ?_, fun a ha => ?_⟩
  · rw [hdesc, hnode]
    exact h.perm.erase ref
  · rw [hdesc]
    exact h.descs.sublist erase_sublist
  · rw [hnode]
    exact h.nodes.sublist erase_sublist
  · rw [hdesc] at ha
    exact h.le_card a (mem_of_mem_erase ha)

theorem RefsOk.refCall (h : RefsOk s) (op : RefOp) : ∃ s', refCall B s op = .ok s' ∧ RefsOk s' := by
  cases op with
  | get node alloc =>
    by_cases hold : ∃ ref ∈ s.refs, ref.node = node
    · obtain ⟨ref, hmem, rfl⟩ := hold
      exact ⟨s, by rw [Binder.refCall, h.binderGetRefForNode_old hmem]; rfl, h⟩
    · have hnew : ∀ ref ∈ s.refs, ref.node ≠ node := fun ref hmem heq => hold ⟨ref, hmem, heq⟩
      cases alloc with
      | true =>
        obtain ⟨s', ref, heq, hok, -⟩ := h.binderGetRefForNode_new (B := B) hnew
        exact ⟨s', by rw [Binder.refCall, heq]; rfl, hok⟩
      | false => exact ⟨s, by rw [Binder.refCall, h.binderGetRefForNode_failed hnew]; rfl, h⟩
  | delete ref =>
    refine ⟨_, rfl, ?_⟩
    split_ifs
    · exact h.binderDeleteRef ref
    · exact h
  | setContextMgr node => exact ⟨_, rfl, h.perm, h.descs, h.nodes, h.le_card⟩

/-- What the handles of a process are like. -/
structure Numbered (B : Tree.Balancer Ref) (s : Refs) : Prop where
  same : s.refsByNode.toList.Perm s.refs
  descs : (s.refs.map Ref.desc).Nodup
  nodes : (s.refs.map Ref.node).Nodup
  old : ∀ ref ∈ s.refs, ∀ alloc, binderGetRefForNode B s ref.node alloc = .ok (s, some ref)
  new : ∀ node, (∀ ref ∈ s.refs, ref.node ≠ node) →
    ∃ s' ref, binderGetRefForNode B s node true = .ok (s', some ref) ∧ NewRef s s' node ref
  failed : ∀ node, (∀ ref ∈ s.refs, ref.node ≠ node) →
    binderGetRefForNode B s node false = .ok (s, none)

theorem RefsOk.numbered (h : RefsOk s) : Numbered B s where
  same := h.perm
  descs := pairwise_map.mpr (h.descs.imp Nat.ne_of_lt)
  nodes := h.nodup_nodes
  old _ hmem alloc := h.binderGetRefForNode_old hmem alloc
  new _ hnew := by
    obtain ⟨s', ref, heq, -, href⟩ := h.binderGetRefForNode_new (B := B) hnew
    exact ⟨s', ref, heq, href⟩
  failed _ hnew := h.binderGetRefForNode_failed hnew

/-- No sequence of calls meets the `BUG()`. Each leaves unique handles, and a new one is the
lowest that is not in use. -/
theorem numbered_of_calls (B : Tree.Balancer Ref) (mgr : Option NodePtr) (ops : List RefOp) :
    ∃ s, ops.foldlM (refCall B) (Refs.init mgr) = .ok s ∧ Numbered B s := by
  have hinit : RefsOk (Refs.init mgr) := ⟨.refl _, .nil, .nil, by simp [Refs.init, Refs.refs]⟩
  obtain ⟨s, heq, h⟩ := exists_foldlM (fun _ op h => RefsOk.refCall h op) ops hinit
  exact ⟨s, heq, h.numbered⟩

end Cupcake.Binder
