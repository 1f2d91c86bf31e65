import Cupcake.Fs.Ext4.Extents

/-! What the searches in the tree find, and what inserting an extent and carving out a range do to
the map that the tree stands for. -/

namespace Cupcake.Ext4

open ExtentStatus Segment Option

variable {ι : Type*} [DecidableEq ι] {i : ι} {rb : Tree.Balancer Node} {fit : Prop}

def segsOf (l : List Node) : List (Segment (ℕ × Option ℕ)) := l.map fun n => n.es.seg

@[simp] theorem segsOf_nil : segsOf [] = [] := rfl

@[simp] theorem segsOf_cons (n : Node) (l : List Node) :
    segsOf (n :: l) = n.es.seg :: segsOf l := rfl

@[simp] theorem segsOf_append (l₁ l₂ : List Node) :
    segsOf (l₁ ++ l₂) = segsOf l₁ ++ segsOf l₂ := List.map_append

theorem mem_segsOf {l : List Node} {n : Node} (h : n ∈ l) : n.es.seg ∈ segsOf l :=
  List.mem_map.mpr ⟨n, h, rfl⟩

theorem forall_segsOf {l : List Node} {p : Segment (ℕ × Option ℕ) → Prop}
    (h : ∀ n ∈ l, p n.es.seg) : ∀ r ∈ segsOf l, p r := by
  intro r hr
  obtain ⟨n, hn, rfl⟩ := List.mem_map.mp hr
  exact h n hn

namespace Inode

def nodes (ino : Inode) : List Node := ino.root.toList

def segs (ino : Inode) : List (Segment (ℕ × Option ℕ)) := segsOf ino.nodes

structure Stored (ino : Inode) : Prop where
  nodup : (ino.nodes.map Node.addr).Nodup
  fresh : ∀ n ∈ ino.nodes, n.addr < ino.nextAddr
  few : ino.nodes.length < 2 ^ 32
  all : ino.allNr = ino.nodes.length
  shk : ino.shkNr = ino.nodes.countP fun n => !n.es.isDelayed

structure Sound (fit : Prop) (ino : Inode) : Prop extends Stored ino where
  wf : Wf (2 ^ 32 - 1) ino.segs
  fits : ∀ n ∈ ino.nodes, fit → hasPblock n.es.type → n.es.pblock + n.es.len ≤ 2 ^ esShift

/-- Moreover `cache_es` points at an extent of the tree. -/
structure Ok (fit : Prop) (ino : Inode) : Prop extends Sound fit ino where
  cache : ∀ a, ino.cacheEs = some a → ∃ n ∈ ino.nodes, n.addr = a

variable {ino : Inode} {n m : Node} {l₁ l₂ : List Node}

theorem Sound.good (h : ino.Sound fit) (hn : n ∈ ino.nodes) : n.es.Good fit := by
  have hg := h.wf.good _ (mem_segsOf hn)
  have hstop : n.es.lblk + n.es.len ≤ 2 ^ 32 - 1 := hg.2
  exact ⟨hg.1, by omega, h.fits n hn⟩

section

variable (h : ino.Stored) (hn : ino.nodes = l₁ ++ n :: l₂)

include h hn

theorem Stored.not_mem : (∀ m ∈ l₁, m.addr ≠ n.addr) ∧ ∀ m ∈ l₂, m.addr ≠ n.addr := by
  have := h.nodup
  rw [hn, List.map_append, List.map_cons, List.nodup_append] at this
  obtain ⟨-, h₂, h₁⟩ := this
  refine ⟨fun m hm => h₁ _ (List.mem_map_of_mem hm) _ (by simp), fun m hm he => ?_⟩
  exact (List.nodup_cons.mp h₂).1 (List.mem_map.mpr ⟨m, hm, he⟩)

theorem Stored.not_mem_left : n ∉ l₁ :=
  fun hm => (h.not_mem hn).1 n hm rfl

theorem Stored.nodes_setNode (hm : m.addr = n.addr) : (ino.setNode m).nodes = l₁ ++ m :: l₂ := by
  obtain ⟨h₁, h₂⟩ := h.not_mem hn
  have hl : ∀ l : List Node, (∀ x ∈ l, x.addr ≠ n.addr) →
      l.map (fun x => if x.addr = m.addr then m else x) = l := fun l hl =>
    (List.map_congr_left fun x hx => if_neg (hm ▸ hl x hx)).trans (List.map_id' l)
  rw [nodes, setNode, Tree.toList_map, ← nodes, hn, List.map_append, List.map_cons, hl l₁ h₁,
    hl l₂ h₂, if_pos hm.symm]

theorem Stored.setNode (hm : m.addr = n.addr)
    (hd : m.es.isDelayed = n.es.isDelayed) : (ino.setNode m).Stored := by
  have hnodes := h.nodes_setNode hn hm
  obtain ⟨hnodup, hfresh, hfew, hall, hshk⟩ := h
  rw [hn] at hnodup hfresh hfew hall hshk
  refine ⟨?_, fun x hx => ?_, ?_, ?_, ?_⟩
  · rw [hnodes]
    simpa [hm] using hnodup
  · rw [hnodes] at hx
    rcases List.mem_append.mp hx with hx | hx
    · exact hfresh x (by simp [hx])
    · rcases List.mem_cons.mp hx with rfl | hx
      · exact hm ▸ hfresh n (by simp)
      · exact hfresh x (by simp [hx])
  · rw [hnodes]
    simpa using hfew
  · rw [hnodes]
    show ino.allNr = _
    simpa using hall
  · rw [hnodes]
    show ino.shkNr = _
    simpa [List.countP_cons, hd] using hshk

end

theorem stored_of_nodes {l : List Node} (hl : ino.nodes = l) (hnodup : (l.map Node.addr).Nodup)
    (hfresh : ∀ n ∈ l, n.addr < ino.nextAddr) (hfew : l.length < 2 ^ 32)
    (hall : ino.allNr = l.length) (hshk : ino.shkNr = l.countP fun n => !n.es.isDelayed) :
    ino.Stored := by
  subst hl
  exact ⟨hnodup, hfresh, hfew, hall, hshk⟩

theorem Sound.setNode (h : ino.Sound fit) (hn : ino.nodes = l₁ ++ n :: l₂) (hm : m.addr = n.addr)
    (hd : m.es.isDelayed = n.es.isDelayed)
    (hwf : Wf (2 ^ 32 - 1) (segsOf l₁ ++ m.es.seg :: segsOf l₂))
    (hf : fit → hasPblock m.es.type → m.es.pblock + m.es.len ≤ 2 ^ esShift) :
    (ino.setNode m).Sound fit := by
  have hnodes := h.nodes_setNode hn hm
  refine ⟨h.toStored.setNode hn hm hd, ?_, fun x hx => ?_⟩
  · rw [segs, hnodes, segsOf_append, segsOf_cons]
    exact hwf
  · rw [hnodes] at hx
    have hold := h.fits
    rw [hn] at hold
    rcases List.mem_append.mp hx with hx | hx
    · exact hold x (by simp [hx])
    · rcases List.mem_cons.mp hx with rfl | hx
      · exact hf
      · exact hold x (by simp [hx])

theorem exists_split {lo hi : ℕ} {l : List Node} (hs : (segsOf l).Pairwise Segment.Before)
    (hd : ∀ n ∈ l, hi ≤ n.es.lblk ∨ n.es.lblk + n.es.len ≤ lo) :
    ∃ l₁ l₂, l = l₁ ++ l₂ ∧ (∀ n ∈ l₁, n.es.lblk + n.es.len ≤ lo) ∧ ∀ n ∈ l₂, hi ≤ n.es.lblk := by
  induction l with
  | nil => exact ⟨[], [], rfl, by simp, by simp⟩
  | cons n l ih =>
    rw [segsOf_cons, List.pairwise_cons] at hs
    rcases hd n (by simp) with hn | hn
    · refine ⟨[], n :: l, rfl, by simp, fun m hm => ?_⟩
      rcases List.mem_cons.mp hm with rfl | hm
      · exact hn
      · have hb : n.es.lblk + n.es.len ≤ m.es.lblk := hs.1 _ (mem_segsOf hm)
        omega
    · obtain ⟨l₁, l₂, rfl, h₁, h₂⟩ := ih hs.2 fun m hm => hd m (by simp [hm])
      exact ⟨n :: l₁, l₂, rfl, by simpa using ⟨hn, h₁⟩, h₂⟩

/-! A new extent `newes` with room for it after the extents `l₁`. -/

section Room

variable {newes : ExtentStatus} (hs : ino.Sound fit) (hg : newes.Good fit)
  (hl : ino.nodes = l₁ ++ l₂) (h₁ : ∀ n ∈ l₁, n.es.lblk + n.es.len ≤ newes.lblk)
  (h₂ : ∀ n ∈ l₂, newes.lblk + newes.len ≤ n.es.lblk)

include hs hg hl h₁ h₂

theorem wf_insert : Wf (2 ^ 32 - 1) (segsOf l₁ ++ newes.seg :: segsOf l₂) := by
  have hwf := hs.wf
  rw [segs, hl, segsOf_append] at hwf
  obtain ⟨hw₁, hw₂, h₁₂⟩ := wf_append.mp hwf
  have hstop := hg.stop
  refine hw₁.append (wf_cons.mpr ⟨⟨hg.pos, ?_⟩, forall_segsOf h₂, hw₂⟩) fun a ha b hb => ?_
  · show newes.lblk + newes.len ≤ _
    omega
  · rcases List.mem_cons.mp hb with rfl | hb
    · exact forall_segsOf (p := fun r => r.base + r.size ≤ newes.lblk) h₁ a ha
    · exact h₁₂ a ha b hb

theorem lookup_wf_insert (b : ℕ) : lookup (segsOf l₁ ++ newes.seg :: segsOf l₂) b =
    if newes.lblk ≤ b ∧ b < newes.lblk + newes.len then some newes.attr else lookup ino.segs b := by
  rw [segs, hl, segsOf_append]
  exact lookup_insert (wf_insert hs hg hl h₁ h₂) b

theorem eq_cons_of_touch (hn : n ∈ ino.nodes) (ht : newes.lblk + newes.len = n.es.lblk) :
    ∃ l₂', l₂ = n :: l₂' := by
  have hpos := hg.pos
  have hgood : ∀ m ∈ ino.nodes, 0 < m.es.len := fun m hm => (hs.good hm).pos
  have hwf := wf_insert hs hg hl h₁ h₂
  rw [hl] at hn hgood
  have hn₂ : n ∈ l₂ := by
    refine (List.mem_append.mp hn).resolve_left fun hn₁ => ?_
    have := h₁ n hn₁
    omega
  cases l₂ with
  | nil => cases hn₂
  | cons m l₂ =>
    rcases List.mem_cons.mp hn₂ with rfl | hmem
    · exact ⟨l₂, rfl⟩
    · have hb : m.es.lblk + m.es.len ≤ n.es.lblk :=
        (wf_cons.mp (wf_cons.mp (wf_append.mp hwf).2.1).2.2).2.1 _ (mem_segsOf hmem)
      have := h₂ m (by simp)
      have := hgood m (by simp)
      omega

theorem eq_concat_of_touch (hn : n ∈ ino.nodes) (ht : n.es.lblk + n.es.len = newes.lblk) :
    ∃ l₁', l₁ = l₁' ++ [n] := by
  have hpos := hg.pos
  have hgood : ∀ m ∈ ino.nodes, 0 < m.es.len := fun m hm => (hs.good hm).pos
  have hwf := (wf_append.mp (wf_insert hs hg hl h₁ h₂)).1
  rw [hl] at hn hgood
  have hn₁ : n ∈ l₁ := by
    refine (List.mem_append.mp hn).resolve_right fun hn₂ => ?_
    have := h₂ n hn₂
    omega
  rcases List.eq_nil_or_concat' l₁ with rfl | ⟨l₁, m, rfl⟩
  · cases hn₁
  · rcases List.mem_append.mp hn₁ with hmem | hmem
    · rw [segsOf_append] at hwf
      have hb : n.es.lblk + n.es.len ≤ m.es.lblk :=
        (wf_append.mp hwf).2.2 _ (mem_segsOf hmem) m.es.seg (by simp)
      have := h₁ m (by simp)
      have := hgood m (by simp)
      omega
    · rw [List.mem_singleton.mp hmem]
      exact ⟨l₁, rfl⟩

theorem sound_insert {ino' : Inode} (hn : ino'.nodes = l₁ ++ ⟨ino.nextAddr, newes⟩ :: l₂)
    (hnext : ino'.nextAddr = ino.nextAddr + 1) (hall : ino'.allNr = wadd 32 ino.allNr 1)
    (hshk : ino'.shkNr = if newes.isDelayed then ino.shkNr else wadd 32 ino.shkNr 1) :
    ino'.Sound fit := by
  have hwf := wf_insert hs hg hl h₁ h₂
  have hlen : l₁.length + l₂.length + 1 < 2 ^ 32 := by
    have := hwf.length_le (m := 0) (fun _ _ => Nat.zero_le _) (Nat.zero_le _)
    simp only [segsOf, List.length_append, List.length_cons, List.length_map] at this
    omega
  have hcount : ((l₁ ++ l₂).countP fun n => !n.es.isDelayed) ≤ (l₁ ++ l₂).length :=
    List.countP_le_length
  obtain ⟨⟨hnodup, hfresh, -, hall₀, hshk₀⟩, -, hfits⟩ := hs
  rw [hl] at hnodup hfresh hall₀ hshk₀ hfits
  rw [List.length_append] at hall₀ hcount
  refine ⟨stored_of_nodes hn ?_ (fun x hx => ?_) ?_ ?_ ?_, ?_, fun x hx => ?_⟩
  · have hnot : ino.nextAddr ∉ (l₁ ++ l₂).map Node.addr := fun hm => by
      obtain ⟨x, hx, he⟩ := List.mem_map.mp hm
      have := hfresh x hx
      omega
    rw [List.map_append, List.map_cons]
    refine List.nodup_middle.mpr (List.nodup_cons.mpr ⟨?_, ?_⟩) <;> rwa [← List.map_append]
  · rw [hnext]
    rcases List.mem_append.mp hx with hx | hx
    · have := hfresh x (by simp [hx])
      omega
    · rcases List.mem_cons.mp hx with rfl | hx
      · exact Nat.lt_succ_self _
      · have := hfresh x (by simp [hx])
        omega
  · rw [List.length_append, List.length_cons]
    omega
  · rw [hall, hall₀, wadd_of_lt (by omega), List.length_append, List.length_cons]
    omega
  · rw [hshk, hshk₀, List.countP_append, List.countP_append, List.countP_cons]
    rw [List.countP_append] at hcount
    cases newes.isDelayed with
    | true => simp
    | false =>
      rw [if_neg Bool.false_ne_true, wadd_of_lt (by omega)]
      simp [Nat.add_assoc]
  · rw [segs, hn, segsOf_append, segsOf_cons]
    exact hwf
  · rw [hn] at hx
    rcases List.mem_append.mp hx with hx | hx
    · exact hfits x (by simp [hx])
    · rcases List.mem_cons.mp hx with rfl | hx
      · exact hg.fits
      · exact hfits x (by simp [hx])

end Room

theorem Sound.setCache (hs : ino.Sound fit) (hn : n ∈ ino.nodes) :
    Ok fit { ino with cacheEs := some n.addr } :=
  ⟨⟨⟨hs.nodup, hs.fresh, hs.few, hs.all, hs.shk⟩, hs.wf, hs.fits⟩,
    fun _ ha => ⟨n, hn, some.inj ha⟩⟩

end Inode

namespace Held

open Inode

variable {h : Held ι} {n m : Node} {l₁ l₂ : List Node}

theorem eraseExtent_spec (rb : Tree.Balancer Node) (i : ι) (hs : h.toInode.Stored)
    (hn : h.nodes = l₁ ++ n :: l₂) :
    ∃ h', h.eraseExtent rb i n = some h' ∧ h'.nodes = l₁ ++ l₂ ∧ h'.toInode.Stored ∧
      h'.cacheEs = h.cacheEs ∧ h'.shrinkLblk = h.shrinkLblk := by
  have hnot := hs.not_mem_left hn
  obtain ⟨hnodup, hfresh, hfew, hall, hshk⟩ := hs
  have herase : (rb.erase n h.root).toList = l₁ ++ l₂ := by
    rw [rb.toList_erase, show h.root.toList = l₁ ++ n :: l₂ from hn,
      List.erase_append_right _ hnot, List.erase_cons_head]
  rw [hn] at hnodup hfresh hfew hall hshk
  have hnodup' : ((l₁ ++ l₂).map Node.addr).Nodup := by
    refine hnodup.sublist (List.Sublist.map _ ?_)
    exact (List.sublist_cons_self n l₂).append_left l₁
  have hfresh' : ∀ x ∈ l₁ ++ l₂, x.addr < h.nextAddr := fun x hx =>
    hfresh x ((List.mem_append.mp hx).elim (by simp +contextual) (by simp +contextual))
  have hle : ((l₁ ++ l₂).countP fun n => !n.es.isDelayed) ≤ (l₁ ++ l₂).length :=
    List.countP_le_length
  simp only [List.length_append, List.length_cons] at hfew hall hle
  have hall' : wsub 32 h.allNr 1 = (l₁ ++ l₂).length := by
    rw [wsub_of_le (by omega) (by omega), List.length_append]
    omega
  have hfew' : (l₁ ++ l₂).length < 2 ^ 32 := by
    rw [List.length_append]
    omega
  rw [eraseExtent, freeExtent]
  by_cases hd : n.es.isDelayed = true
  · have hshk' : h.shkNr = (l₁ ++ l₂).countP fun n => !n.es.isDelayed := by
      simpa [List.countP_cons, hd] using hshk
    exact ⟨_, if_pos hd, herase, stored_of_nodes herase hnodup' hfresh' hfew' hall' hshk', rfl, rfl⟩
  · have hshk' : h.shkNr = ((l₁ ++ l₂).countP fun n => !n.es.isDelayed) + 1 := by
      simpa [List.countP_cons, hd, Nat.add_assoc] using hshk
    have hsub : wsub 32 h.shkNr 1 = (l₁ ++ l₂).countP fun n => !n.es.isDelayed := by
      rw [wsub_of_le (by omega) (by omega)]
      omega
    rw [if_neg hd, if_neg (show ¬h.shkNr = 0 by omega)]
    exact ⟨_, rfl, herase, stored_of_nodes herase hnodup' hfresh' hfew' hall' hsub, rfl, rfl⟩

theorem absorb_spec (rb : Tree.Balancer Node) (i : ι) (hs : h.toInode.Sound fit)
    (hn : h.nodes = l₁ ++ n :: m :: l₂) (hmerge : canBeMerged n.es m.es = true) :
    ∃ h', (h.setNode (n.absorb m.es)).eraseExtent rb i m = some h' ∧ h'.toInode.Sound fit ∧
      n.absorb m.es ∈ h'.nodes ∧ ∀ b, lookup h'.segs b = lookup h.segs b := by
  have hj := Node.joined_absorb hmerge (hs.good (show m ∈ h.nodes by simp [hn]))
  have haddr : (n.absorb m.es).addr = n.addr := rfl
  have hset : (h.setNode (n.absorb m.es)).nodes = l₁ ++ [n.absorb m.es] ++ m :: l₂ :=
    (hs.nodes_setNode hn haddr).trans (List.append_cons ..)
  obtain ⟨h', heq, hnodes, hst, -, -⟩ :=
    eraseExtent_spec rb i (hs.toStored.setNode hn haddr hj.delayed.2) hset
  rw [List.append_assoc, List.singleton_append] at hnodes
  have hwf := hs.wf
  rw [segs, hn, segsOf_append, segsOf_cons, segsOf_cons] at hwf
  obtain ⟨hwf', hlook⟩ := join_mid hwf hj.touch hj.same
  have hsegs : h'.segs = segsOf l₁ ++ { n.es.seg with size := n.es.len + m.es.len } :: segsOf l₂ := by
    rw [segs, hnodes, segsOf_append, segsOf_cons, hj.seg]
  refine ⟨h', heq, ⟨hst, hsegs ▸ hwf', fun x hx => ?_⟩, by simp [hnodes], fun b => ?_⟩
  · have hold := hs.fits
    rw [hn] at hold
    rw [hnodes] at hx
    rcases List.mem_append.mp hx with hx | hx
    · exact hold x (by simp [hx])
    · rcases List.mem_cons.mp hx with rfl | hx
      · exact hj.fits
      · exact hold x (by simp [hx])
  · rw [hsegs, segs, hn, segsOf_append, segsOf_cons, segsOf_cons]
    exact hlook b

theorem tryToMergeLeft_spec (rb : Tree.Balancer Node) (i : ι) (hs : h.toInode.Sound fit)
    (hn : n ∈ h.nodes) :
    ∃ n' h', h.tryToMergeLeft rb i n = some (n', h') ∧ h'.toInode.Sound fit ∧ n' ∈ h'.nodes ∧
      ∀ b, lookup h'.segs b = lookup h.segs b := by
  obtain ⟨l₁, l₂, hl⟩ := List.append_of_mem hn
  have hprev : h.root.prev n = l₁.getLast? := Tree.prev_eq hl (hs.not_mem_left hl)
  rw [tryToMergeLeft, hprev]
  rcases List.eq_nil_or_concat' l₁ with rfl | ⟨l₁, n₁, rfl⟩
  · exact ⟨n, h, rfl, hs, hn, fun _ => rfl⟩
  · rw [List.getLast?_concat]
    dsimp only
    split_ifs with hmerge
    · obtain ⟨h', heq, hs', hmem, hlook⟩ := absorb_spec rb i hs (by simpa using hl) hmerge
      exact ⟨_, h', by rw [heq]; rfl, hs', hmem, hlook⟩
    · exact ⟨n, h, rfl, hs, hn, fun _ => rfl⟩

theorem tryToMergeRight_spec (rb : Tree.Balancer Node) (i : ι) (hs : h.toInode.Sound fit)
    (hn : n ∈ h.nodes) :
    ∃ n' h', h.tryToMergeRight rb i n = some (n', h') ∧ h'.toInode.Sound fit ∧ n' ∈ h'.nodes ∧
      ∀ b, lookup h'.segs b = lookup h.segs b := by
  obtain ⟨l₁, l₂, hl⟩ := List.append_of_mem hn
  have hnext : h.root.next n = l₂.head? := Tree.next_eq hl (hs.not_mem_left hl)
  rw [tryToMergeRight, hnext]
  cases l₂ with
  | nil => exact ⟨n, h, rfl, hs, hn, fun _ => rfl⟩
  | cons n₁ l₂ =>
    rw [List.head?_cons]
    dsimp only
    split_ifs with hmerge
    · obtain ⟨h', heq, hs', hmem, hlook⟩ := absorb_spec rb i hs hl hmerge
      exact ⟨_, h', by rw [heq]; rfl, hs', hmem, hlook⟩
    · exact ⟨n, h, rfl, hs, hn, fun _ => rfl⟩

/-! ## Inserting -/

variable {newes : ExtentStatus}

def Free (newes : ExtentStatus) (l : List Node) : Prop :=
  ∀ n ∈ l, newes.lblk + newes.len ≤ n.es.lblk ∨ n.es.lblk + n.es.len ≤ newes.lblk

theorem findSpot_spec (hg : newes.Good fit) {t : Tree Node}
    (ht : ∀ n ∈ t.toList, n.es.Good fit) (hd : Free newes t.toList) :
    findSpot newes t = some .leaf ∨
      (∃ n ∈ t.toList, canBeMerged newes n.es = true ∧ findSpot newes t = some (.before n)) ∨
      ∃ n ∈ t.toList, canBeMerged n.es newes = true ∧ findSpot newes t = some (.after n) := by
  induction t with
  | leaf => exact .inl rfl
  | node c l n r ihl ihr =>
    have hn := ht n (by simp)
    have hpos := hg.pos
    have hpos' := hn.pos
    rw [findSpot]
    by_cases hlt : newes.lblk < n.es.lblk
    · rw [if_pos hlt]
      by_cases hm : canBeMerged newes n.es = true
      · exact .inr (.inl ⟨n, by simp, hm, if_pos hm⟩)
      · rw [if_neg hm]
        refine (ihl (fun m hm => ht m (by simp [hm])) fun m hm => hd m (by simp [hm])).imp_right
          fun h => h.imp ?_ ?_
        · rintro ⟨m, hmem, hmm⟩
          exact ⟨m, by simp [hmem], hmm⟩
        · rintro ⟨m, hmem, hmm⟩
          exact ⟨m, by simp [hmem], hmm⟩
    · have hend := hd n (by simp)
      rw [if_neg hlt, hn.esEnd, bind_some, if_pos (by omega)]
      by_cases hm : canBeMerged n.es newes = true
      · exact .inr (.inr ⟨n, by simp, hm, if_pos hm⟩)
      · rw [if_neg hm]
        refine (ihr (fun m hm => ht m (by simp [hm])) fun m hm => hd m (by simp [hm])).imp_right
          fun h => h.imp ?_ ?_
        · rintro ⟨m, hmem, hmm⟩
          exact ⟨m, by simp [hmem], hmm⟩
        · rintro ⟨m, hmem, hmm⟩
          exact ⟨m, by simp [hmem], hmm⟩

def Inserted (fit : Prop) (newes : ExtentStatus) (h h' : Held ι) : Prop :=
  h'.toInode.Ok fit ∧ ∀ b, lookup h'.segs b =
    if newes.lblk ≤ b ∧ b < newes.lblk + newes.len then some newes.attr else lookup h.segs b

theorem allocExtent_spec (h : Held ι) (i : ι) (es : ExtentStatus) :
    ∃ h', h.allocExtent i es true = some (⟨h.nextAddr, es⟩, h') ∧ h'.root = h.root ∧
      h'.nextAddr = h.nextAddr + 1 ∧ h'.allNr = wadd 32 h.allNr 1 ∧
      h'.shkNr = if es.isDelayed then h.shkNr else wadd 32 h.shkNr 1 :=
  ⟨_, if_pos rfl, rfl, rfl, rfl, rfl⟩

section Insert

variable (hs : h.toInode.Sound fit) (hg : newes.Good fit) (hl : h.nodes = l₁ ++ l₂)
  (h₁ : ∀ n ∈ l₁, n.es.lblk + n.es.len ≤ newes.lblk)
  (h₂ : ∀ n ∈ l₂, newes.lblk + newes.len ≤ n.es.lblk)

include hs hg hl h₁ h₂

theorem insert_before (rb : Tree.Balancer Node) (i : ι) (hn : n ∈ h.nodes)
    (hm : canBeMerged newes n.es = true) :
    ∃ n' h', (h.setNode (n.absorbFront newes)).tryToMergeLeft rb i (n.absorbFront newes) =
      some (n', h') ∧ Inserted fit newes h (h'.setCache (some n'.addr)) := by
  obtain ⟨l₂', rfl⟩ := eq_cons_of_touch hs hg hl h₁ h₂ hn (canBeMerged_spec hm).2.1
  have hj := Node.joined_absorbFront hm (hs.good hn)
  obtain ⟨hwf', hlook⟩ := join_mid (wf_insert hs hg hl h₁ h₂) hj.touch hj.same
  have hseg : (n.absorbFront newes).es.seg =
    { newes.seg with size := newes.len + n.es.len } := hj.seg
  have haddr : (n.absorbFront newes).addr = n.addr := rfl
  have hnodes : (h.setNode (n.absorbFront newes)).nodes = l₁ ++ n.absorbFront newes :: l₂' :=
    hs.nodes_setNode hl haddr
  have hs' : (h.setNode (n.absorbFront newes)).toInode.Sound fit :=
    hs.setNode hl haddr hj.delayed.1 (hseg ▸ hwf') hj.fits
  obtain ⟨n', h', heq, hs'', hn', hsame⟩ :=
    tryToMergeLeft_spec rb i hs' (show n.absorbFront newes ∈ _ by simp [hnodes])
  refine ⟨n', h', heq, hs''.setCache hn', fun b => (hsame b).trans ?_⟩
  rw [segs, hnodes, segsOf_append, segsOf_cons, hseg]
  exact (hlook b).trans (lookup_wf_insert hs hg hl h₁ h₂ b)

theorem insert_after (rb : Tree.Balancer Node) (i : ι) (hn : n ∈ h.nodes)
    (hm : canBeMerged n.es newes = true) {grown : Node}
    (hgrown : grown = { n with es := { n.es with len := wadd 32 n.es.len newes.len } }) :
    ∃ n' h', (h.setNode grown).tryToMergeRight rb i grown = some (n', h') ∧
      Inserted fit newes h (h'.setCache (some n'.addr)) := by
  obtain ⟨l₁', rfl⟩ := eq_concat_of_touch hs hg hl h₁ h₂ hn (canBeMerged_spec hm).2.1
  have hj : Joined fit n.es newes grown.es := hgrown ▸ Node.joined_grown hm hg
  have happ : segsOf (l₁' ++ [n]) ++ newes.seg :: segsOf l₂ =
      segsOf l₁' ++ n.es.seg :: newes.seg :: segsOf l₂ := by simp
  obtain ⟨hwf', hlook⟩ := join_mid (happ ▸ wf_insert hs hg hl h₁ h₂) hj.touch hj.same
  have hseg : grown.es.seg = { n.es.seg with size := n.es.len + newes.len } := hj.seg
  have haddr : grown.addr = n.addr := by rw [hgrown]
  have hl' : h.nodes = l₁' ++ n :: l₂ := hl.trans (List.append_cons ..).symm
  have hnodes : (h.setNode grown).nodes = l₁' ++ grown :: l₂ := hs.nodes_setNode hl' haddr
  have hs' : (h.setNode grown).toInode.Sound fit :=
    hs.setNode hl' haddr hj.delayed.2 (hseg ▸ hwf') hj.fits
  obtain ⟨n', h', heq, hs'', hn', hsame⟩ :=
    tryToMergeRight_spec rb i hs' (show grown ∈ _ by simp [hnodes])
  refine ⟨n', h', heq, hs''.setCache hn', fun b => (hsame b).trans ?_⟩
  rw [segs, hnodes, segsOf_append, segsOf_cons, hseg]
  exact (hlook b).trans (happ ▸ lookup_wf_insert hs hg hl h₁ h₂ b)

theorem insert_leaf (rb : Tree.Balancer Node) (i : ι) :
    ∃ n' h', h.allocExtent i newes true = some (n', h') ∧
      Inserted fit newes h ((h'.linkExtent rb n').setCache (some n'.addr)) := by
  obtain ⟨h', heq, hroot, hnext, hall, hshk⟩ := allocExtent_spec h i newes
  have hpos := hg.pos
  have hlink : (h'.linkExtent rb ⟨h.nextAddr, newes⟩).nodes = l₁ ++ ⟨h.nextAddr, newes⟩ :: l₂ := by
    rw [nodes, linkExtent, rb.toList_insertColor]
    refine Tree.toList_linkAt ((congrArg Tree.toList hroot).trans hl) (fun m hm => ?_) fun m hm => ?_
    · have := h₁ m hm
      refine decide_eq_false (not_lt.mpr (show m.es.lblk ≤ newes.lblk from ?_))
      omega
    · have := h₂ m hm
      refine decide_eq_true (show newes.lblk < m.es.lblk from ?_)
      omega
  refine ⟨_, h', heq, (sound_insert hs hg hl h₁ h₂ hlink hnext hall hshk).setCache ?_, fun b => ?_⟩
  · rw [hlink]
    simp
  · rw [← lookup_wf_insert hs hg hl h₁ h₂ b]
    show lookup (segsOf (h'.linkExtent rb ⟨h.nextAddr, newes⟩).nodes) b = _
    rw [hlink, segsOf_append, segsOf_cons]

end Insert

theorem esInsertExtent_spec (rb : Tree.Balancer Node) (i : ι) (hs : h.toInode.Sound fit)
    (hg : newes.Good fit) (hd : Free newes h.nodes) (ok : Bool) :
    (∃ h', h.esInsertExtent rb i newes ok = some (.ok, h') ∧ Inserted fit newes h h') ∨
      ok = false ∧ h.esInsertExtent rb i newes ok = some (.enomem, h) := by
  obtain ⟨l₁, l₂, hl, h₁, h₂⟩ := exists_split hs.wf.sorted hd
  rw [esInsertExtent]
  rcases findSpot_spec hg (t := h.root) (fun n hn => hs.good hn) hd with hf | ⟨n, hn, hm, hf⟩ |
    ⟨n, hn, hm, hf⟩
  · rw [hf, bind_some]
    cases ok with
    | false => exact .inr ⟨rfl, rfl⟩
    | true =>
      obtain ⟨n', h', heq, hins⟩ := insert_leaf hs hg hl h₁ h₂ rb i
      exact .inl ⟨_, by simp only [heq], hins⟩
  · obtain ⟨n', h', heq, hins⟩ := insert_before hs hg hl h₁ h₂ rb i hn hm
    exact .inl ⟨_, by simp only [hf, bind_some, heq, map_some], hins⟩
  · obtain ⟨n', h', heq, hins⟩ := insert_after hs hg hl h₁ h₂ rb i hn hm rfl
    exact .inl ⟨_, by simp only [hf, bind_some, heq, map_some], hins⟩

end Held

end Cupcake.Ext4
