import Cupcake.Binder.Alloc.PageRange

/-! The two trees over the buffers: the free ones by size, the allocated ones by
address. -/

namespace Cupcake.Binder.Alloc

open List

variable {B : Tree.Balancer ℕ} {m : Mapping} {p : Proc} {pre post bs bs' L : List Buffer}
  {b c : Buffer} {t : Tree ℕ} {lo hi : ℕ}

theorem Tiles.find (h : Tiles lo bs hi) (hb : b ∈ bs) : Chain.find Buffer.addr b.addr bs = some b := by
  obtain ⟨pre, post, rfl⟩ := append_of_mem hb
  exact Chain.find_split post h.ne_of_split

theorem Tiles.lookup (h : Tiles lo bs hi) (hb : b ∈ bs) : lookup bs b.addr = .ok b := by
  rw [Alloc.lookup, h.find hb]

/-! ## Sizes -/

theorem binderBufferSize_split (h : Tiles m.buffer (pre ++ b :: post) m.stop) :
    b.addr + headerSize + binderBufferSize m (pre ++ b :: post) b.addr = stop post m.stop := by
  obtain ⟨-, hle, ht⟩ := h.split
  have hend := ht.le
  have hhigh := m.high
  have hsize : binderBufferSize m (pre ++ b :: post) b.addr =
      wsub 64 (stop post m.stop) (b.addr + headerSize) := by
    rw [binderBufferSize, Chain.next_split post h.ne_of_split]
    cases post <;> rfl
  rw [hsize, wsub_of_le hle]
  · omega
  · unfold Mapping.stop at *
    unfold pageSize at hhigh
    omega

theorem binderBufferSize_congr {a : ℕ} (h : (Chain.next Buffer.addr a bs).map Buffer.addr =
    (Chain.next Buffer.addr a bs').map Buffer.addr) :
    binderBufferSize m bs a = binderBufferSize m bs' a := by
  unfold binderBufferSize
  cases h₁ : Chain.next Buffer.addr a bs <;> cases h₂ : Chain.next Buffer.addr a bs' <;> simp_all

theorem binderBufferSize_map (h : bs.map Buffer.addr = bs'.map Buffer.addr) (a : ℕ) :
    binderBufferSize m bs a = binderBufferSize m bs' a := by
  refine binderBufferSize_congr ?_
  rw [Chain.next_map, Chain.next_map, h]

theorem binderBufferSize_left (hc : c ∈ pre)
    (hhead : bs.head?.map Buffer.addr = bs'.head?.map Buffer.addr) :
    binderBufferSize m (pre ++ bs) c.addr = binderBufferSize m (pre ++ bs') c.addr :=
  binderBufferSize_congr (Chain.next_append_left (mem_map_of_mem hc) hhead)

theorem binderBufferSize_right (h : ∀ a ∈ bs, a.addr ≠ c.addr) (h' : ∀ a ∈ bs', a.addr ≠ c.addr) :
    binderBufferSize m (bs ++ post) c.addr = binderBufferSize m (bs' ++ post) c.addr := by
  refine binderBufferSize_congr ?_
  rw [Chain.next_append_right h, Chain.next_append_right h']

theorem binderBufferSize_splice {hi' lo' : ℕ} (s s' : List Buffer)
    (h : Tiles lo (pre ++ (s ++ post)) hi) (h' : Tiles lo' (pre ++ (s' ++ post)) hi')
    (hhead : (s ++ post).head?.map Buffer.addr = (s' ++ post).head?.map Buffer.addr)
    (hc : c ∈ pre ++ post) :
    binderBufferSize m (pre ++ (s ++ post)) c.addr =
      binderBufferSize m (pre ++ (s' ++ post)) c.addr := by
  rcases mem_append.mp hc with hc | hc
  · exact binderBufferSize_left hc hhead
  · rw [← append_assoc] at h h' ⊢
    rw [← append_assoc]
    exact binderBufferSize_right
      (fun a ha => ((pairwise_append.mp h.sorted).2.2 a ha c hc).ne)
      (fun a ha => ((pairwise_append.mp h'.sorted).2.2 a ha c hc).ne)

/-! ## The tree of free buffers -/

def addrsOf (f : Bool) (bs : List Buffer) : List ℕ := (bs.filter (·.free == f)).map Buffer.addr

abbrev freeAddrs := addrsOf true

abbrev allocAddrs := addrsOf false

structure FreeTree (m : Mapping) (bs L : List Buffer) (t : Tree ℕ) : Prop where
  perm : t.toList.Perm (freeAddrs L)
  sorted : t.toList.Pairwise fun x y => binderBufferSize m bs x ≤ binderBufferSize m bs y

theorem mem_addrsOf {f : Bool} {a : ℕ} : a ∈ addrsOf f bs ↔ ∃ c ∈ bs, c.free = f ∧ c.addr = a := by
  simp [addrsOf, and_assoc]

theorem addrsOf_perm {f : Bool} (hf : b.free = f) :
    (addrsOf f (pre ++ b :: post)).Perm (b.addr :: addrsOf f (pre ++ post)) := by
  have h : (pre ++ b :: post).Perm (b :: (pre ++ post)) := perm_middle
  have hfree := h.filter (·.free == f)
  rw [filter_cons_of_pos (by simp [hf])] at hfree
  exact hfree.map Buffer.addr

theorem addrsOf_drop {f : Bool} (hf : b.free = !f) :
    addrsOf f (pre ++ b :: post) = addrsOf f (pre ++ post) := by
  simp [addrsOf, hf]

theorem FreeTree.congr (h : FreeTree m bs L t)
    (hs : ∀ c ∈ L, c.free = true → binderBufferSize m bs c.addr = binderBufferSize m bs' c.addr) :
    FreeTree m bs' L t := by
  have hmem : ∀ x ∈ t.toList, binderBufferSize m bs x = binderBufferSize m bs' x := by
    intro x hx
    obtain ⟨c, hc, hf, rfl⟩ := mem_addrsOf.mp (h.perm.mem_iff.mp hx)
    exact hs c hc hf
  refine ⟨h.perm, h.sorted.imp_of_mem ?_⟩
  intro x y hx hy hxy
  rwa [← hmem x hx, ← hmem y hy]

theorem FreeTree.of_eq {L' : List Buffer} (h : FreeTree m bs L t) (hL : freeAddrs L = freeAddrs L') :
    FreeTree m bs L' t := ⟨hL ▸ h.perm, h.sorted⟩

theorem FreeTree.erase (h : FreeTree m bs (pre ++ b :: post) t) (hf : b.free = true) :
    FreeTree m bs (pre ++ post) (B.erase b.addr t) := by
  refine ⟨?_, ?_⟩
  · rw [B.toList_erase]
    refine ((h.perm.trans (addrsOf_perm hf)).erase b.addr).trans ?_
    rw [erase_cons_head]
  · rw [B.toList_erase]
    exact h.sorted.sublist erase_sublist

theorem insertFree_spec (ht : Tiles m.buffer p.buffers m.stop) (hbs : p.buffers = pre ++ b :: post)
    (hf : b.free = true) (h : FreeTree m p.buffers (pre ++ post) p.freeBuffers) :
    ∃ t, binderInsertFreeBuffer B m p b.addr = .ok { p with freeBuffers := t } ∧
      FreeTree m p.buffers p.buffers t := by
  have hb : b ∈ p.buffers := by simp [hbs]
  have hsub : ∀ c ∈ pre ++ post, c ∈ p.buffers := by
    intro c hc
    rw [hbs]
    exact mem_append.mpr ((mem_append.mp hc).imp_right (mem_cons_of_mem _))
  obtain ⟨t, hlink, hperm, hsorted⟩ := Tree.exists_link (binderBufferSize m p.buffers)
    (fun y => do
      let c ← Alloc.lookup p.buffers y
      bugOn (c.free = false) .notFree
      return decide (binderBufferSize m p.buffers b.addr < binderBufferSize m p.buffers y))
    b.addr (t := p.freeBuffers) (by
      intro y hy
      obtain ⟨c, hc, hcf, rfl⟩ := mem_addrsOf.mp (h.perm.mem_iff.mp hy)
      simp [ht.lookup (hsub c hc), bugOn, hcf]) h.sorted
  refine ⟨B.insertColor t, ?_, ?_, ?_⟩
  · simp only [binderInsertFreeBuffer, ht.lookup hb, ok_bind,
      bugOn_of_not (by simp [hf] : ¬ b.free = false),
      hlink]
    rfl
  · rw [B.toList_insertColor]
    refine hperm.trans ((h.perm.cons _).trans ?_)
    rw [hbs]
    exact (addrsOf_perm hf).symm
  · rw [B.toList_insertColor]
    exact hsorted

theorem bestFit_spec (size : ℕ) (ht : Tiles lo bs hi)
    (hmem : ∀ y ∈ t.toList, ∃ c ∈ bs, c.free = true ∧ c.addr = y)
    (hsort : t.toList.Pairwise fun x y => binderBufferSize m bs x ≤ binderBufferSize m bs y)
    (best : Option ℕ) :
    ∃ o exact, bestFit m bs size t best = .ok (o, exact) ∧
      ((o = best ∧ exact = false ∧ ∀ y ∈ t.toList, binderBufferSize m bs y < size) ∨
      ∃ a ∈ t.toList, o = some a ∧ (if exact then binderBufferSize m bs a = size
        else size < binderBufferSize m bs a) ∧
        ∀ y ∈ t.toList, size ≤ binderBufferSize m bs y →
          binderBufferSize m bs a ≤ binderBufferSize m bs y) := by
  induction t generalizing best with
  | leaf => exact ⟨best, false, rfl, .inl ⟨rfl, rfl, by simp⟩⟩
  | node c l a r ihl ihr =>
    simp only [Tree.toList_node] at hmem hsort ⊢
    obtain ⟨hsl, hsort, hlr⟩ := pairwise_append.mp hsort
    obtain ⟨har, hsr⟩ := pairwise_cons.mp hsort
    obtain ⟨d, hd, hf, rfl⟩ := hmem a (by simp)
    have hbug : ¬ d.free = false := by simp [hf]
    simp only [bestFit, ht.lookup hd, ok_bind, bugOn_of_not hbug]
    by_cases hlt : size < binderBufferSize m bs d.addr
    · obtain ⟨o, exact, heq, h⟩ := ihl (fun y hy => hmem y (by simp [hy])) hsl (some d.addr)
      refine ⟨o, exact, by simp only [hlt, if_true]; exact heq, .inr ?_⟩
      rcases h with ⟨rfl, rfl, hsmall⟩ | ⟨y, hy, ho, hfit, hleast⟩
      · refine ⟨d.addr, by simp, rfl, hlt, fun z hz hle => ?_⟩
        rcases mem_append.mp hz with hz | hz
        · exact absurd hle (not_le.mpr (hsmall z hz))
        · exact (mem_cons.mp hz).elim (fun h => h ▸ le_rfl) (har z)
      · refine ⟨y, by simp [hy], ho, hfit, fun z hz hle => ?_⟩
        exact (mem_append.mp hz).elim (fun hz => hleast z hz hle) (hlr y hy z)
    by_cases hgt : size > binderBufferSize m bs d.addr
    · obtain ⟨o, exact, heq, h⟩ := ihr (fun y hy => hmem y (by simp [hy])) hsr best
      have hleft : ∀ y ∈ l.toList ++ [d.addr], binderBufferSize m bs y < size := by
        intro y hy
        rcases mem_append.mp hy with hy | hy
        · exact (hlr y hy d.addr (by simp)).trans_lt hgt
        · exact mem_singleton.mp hy ▸ hgt
      refine ⟨o, exact, by simp only [hlt, hgt, if_true, if_false]; exact heq, ?_⟩
      rw [append_cons]
      refine h.imp ?_ ?_
      · rintro ⟨ho, hexact, hsmall⟩
        exact ⟨ho, hexact, fun y hy => (mem_append.mp hy).elim (hleft y) (hsmall y)⟩
      · rintro ⟨y, hy, ho, hfit, hleast⟩
        refine ⟨y, by simp [hy], ho, hfit, fun z hz hle => ?_⟩
        rcases mem_append.mp hz with hz | hz
        · exact absurd hle (not_le.mpr (hleft z hz))
        · exact hleast z hz hle
    · have heq : binderBufferSize m bs d.addr = size := by omega
      exact ⟨some d.addr, true, by simp [hlt, hgt], .inr ⟨d.addr, by simp, rfl, heq,
        fun y _ hle => heq.trans_le hle⟩⟩

/-! ## The tree of allocated buffers -/

structure AllocTree (bs : List Buffer) (t : Tree ℕ) : Prop where
  perm : t.toList.Perm (allocAddrs bs)
  sorted : t.toList.Pairwise (· ≤ ·)

theorem AllocTree.of_eq {bs' : List Buffer} (h : AllocTree bs t)
    (hL : allocAddrs bs = allocAddrs bs') : AllocTree bs' t := ⟨hL ▸ h.perm, h.sorted⟩

theorem allocTree_merge {q : Buffer} (hb : b.free = true) :
    AllocTree (pre ++ q :: b :: post) t ↔ AllocTree (pre ++ q :: post) t := by
  have hdrop : allocAddrs ((pre ++ [q]) ++ b :: post) = allocAddrs ((pre ++ [q]) ++ post) :=
    addrsOf_drop hb
  simp only [append_assoc, cons_append, nil_append] at hdrop
  exact ⟨fun h => h.of_eq hdrop, fun h => h.of_eq hdrop.symm⟩

theorem AllocTree.erase (h : AllocTree (pre ++ b :: post) t) (hf : b.free = false) :
    AllocTree (pre ++ post) (B.erase b.addr t) := by
  refine ⟨?_, ?_⟩
  · rw [B.toList_erase]
    refine ((h.perm.trans (addrsOf_perm hf)).erase b.addr).trans ?_
    rw [erase_cons_head]
  · rw [B.toList_erase]
    exact h.sorted.sublist erase_sublist

theorem insertAllocated_spec (ht : Tiles lo p.buffers hi) (hbs : p.buffers = pre ++ b :: post)
    (hf : b.free = false) (h : AllocTree (pre ++ post) p.allocatedBuffers) :
    ∃ t, binderInsertAllocatedBuffer B p b.addr = .ok { p with allocatedBuffers := t } ∧
      AllocTree p.buffers t := by
  have hb : b ∈ p.buffers := by simp [hbs]
  have hsub : ∀ c ∈ pre ++ post, c ∈ p.buffers ∧ c.addr ≠ b.addr := by
    intro c hc
    rw [hbs] at ht
    rw [hbs]
    rcases mem_append.mp hc with hc | hc
    · exact ⟨by simp [hc], ht.ne_of_split c hc⟩
    · exact ⟨by simp [hc], ht.ne_of_split_right c hc⟩
  obtain ⟨t, hlink, hperm, hsorted⟩ := Tree.exists_link id
    (fun y => do
      let c ← Alloc.lookup p.buffers y
      bugOn (c.free = true) .notAllocated
      if b.addr < y then return true
      else if b.addr > y then return false
      else .error .duplicate)
    b.addr (t := p.allocatedBuffers) (by
      intro y hy
      obtain ⟨c, hc, hcf, rfl⟩ := mem_addrsOf.mp (h.perm.mem_iff.mp hy)
      obtain ⟨hcb, hne⟩ := hsub c hc
      by_cases hlt : b.addr < c.addr
      · simp [ht.lookup hcb, bugOn, hcf, hlt]
      · have hgt : c.addr < b.addr := by omega
        simp [ht.lookup hcb, bugOn, hcf, hlt, hgt]) h.sorted
  refine ⟨B.insertColor t, ?_, ?_, ?_⟩
  · simp only [binderInsertAllocatedBuffer, ht.lookup hb, ok_bind,
      bugOn_of_not (by simp [hf] : ¬ b.free = true), hlink]
    rfl
  · rw [B.toList_insertColor]
    refine hperm.trans ((h.perm.cons _).trans ?_)
    rw [hbs]
    exact (addrsOf_perm hf).symm
  · rw [B.toList_insertColor]
    exact hsorted

end Cupcake.Binder.Alloc
