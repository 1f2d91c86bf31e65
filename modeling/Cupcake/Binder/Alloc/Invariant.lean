import Cupcake.Binder.Alloc.Trees

/-! The invariant of the allocator, and that allocating keeps it. -/

namespace Cupcake.Binder.Alloc

open List

variable {B : Tree.Balancer ℕ} {m : Mapping} {p p' : Proc} {pre post bs bs' : List Buffer}
  {b b' c : Buffer} {pages : PageMap} {lo hi : ℕ} {env : PageEnv}

def NotBothFree (a b : Buffer) : Prop := ¬ (a.free = true ∧ b.free = true)

/-- What was asked for, as `binder_free_buf` computes it again. -/
def Buffer.need (b : Buffer) : ℕ := wadd 64 (alignPtr b.dataSize) (alignPtr b.offsetsSize)

def PagesOk (m : Mapping) (bs : List Buffer) (pages : PageMap) : Prop :=
  ∀ j, pages j = true ↔ Owned m.stop bs (m.page j)

def Fits (m : Mapping) (bs : List Buffer) : Prop :=
  ∀ c ∈ bs, c.free = false → c.need ≤ binderBufferSize m bs c.addr

structure Inv (m : Mapping) (p : Proc) : Prop where
  tiles : Tiles m.buffer p.buffers m.stop
  sparse : p.buffers.IsChain NotBothFree
  fits : Fits m p.buffers
  freeTree : FreeTree m p.buffers p.buffers p.freeBuffers
  allocTree : AllocTree p.buffers p.allocatedBuffers
  pages : PagesOk m p.buffers p.pages

/-! ## Writing to the fields of one buffer -/

section

variable (ha : b'.addr = b.addr)

include ha

theorem tiles_replace (h : Tiles lo (pre ++ b :: post) hi) :
    Tiles lo (pre ++ b' :: post) hi := by
  obtain ⟨h₁, h₂, h₃⟩ := h.split
  exact .of_split (ha ▸ h₁) (ha ▸ h₂) h₃

theorem owned_replace {x : ℕ} (hf : b'.free = b.free) :
    Owned hi (pre ++ b' :: post) x ↔ Owned hi (pre ++ b :: post) x := by
  simp only [owned_append, Owned, stop_cons, ha, hf]

theorem addrs_replace :
    (pre ++ b' :: post).map Buffer.addr = (pre ++ b :: post).map Buffer.addr := by
  simp [ha]

theorem addrsOf_replace {f : Bool} (hf : b'.free = b.free) :
    addrsOf f (pre ++ b' :: post) = addrsOf f (pre ++ b :: post) := by
  simp only [addrsOf, filter_append, filter_cons, hf]
  split_ifs <;> simp [ha]

end

theorem FreeTree.replace {t : Tree ℕ} (h : FreeTree m (pre ++ b :: post) (pre ++ b :: post) t)
    (ha : b'.addr = b.addr) (hf : b'.free = b.free) :
    FreeTree m (pre ++ b' :: post) (pre ++ b' :: post) t :=
  (h.congr fun c _ _ => binderBufferSize_map (addrs_replace ha).symm c.addr).of_eq
    (addrsOf_replace ha hf).symm

theorem AllocTree.replace {t : Tree ℕ} (h : AllocTree (pre ++ b :: post) t) (ha : b'.addr = b.addr)
    (hf : b'.free = b.free) : AllocTree (pre ++ b' :: post) t :=
  h.of_eq (addrsOf_replace ha hf).symm

theorem chain_split : (pre ++ b :: post).IsChain NotBothFree ↔ pre.IsChain NotBothFree ∧
    (∀ a ∈ pre.getLast?, NotBothFree a b) ∧ post.IsChain NotBothFree ∧
    ∀ c ∈ post.head?, NotBothFree b c := by
  rw [isChain_append, isChain_cons]
  simp only [List.head?_cons, Option.mem_def, Option.some.injEq, forall_eq']
  tauto

theorem chain_replace (hf : b'.free = true → b.free = true)
    (h : (pre ++ b :: post).IsChain NotBothFree) : (pre ++ b' :: post).IsChain NotBothFree := by
  obtain ⟨h₁, h₂, h₃, h₄⟩ := chain_split.mp h
  exact chain_split.mpr ⟨h₁, fun a ha hab => h₂ a ha ⟨hab.1, hf hab.2⟩, h₃,
    fun c hc hbc => h₄ c hc ⟨hf hbc.1, hbc.2⟩⟩

theorem fits_replace (ha : b'.addr = b.addr) (h : Fits m (pre ++ b :: post))
    (hb : b'.free = false → b'.need ≤ binderBufferSize m (pre ++ b :: post) b.addr) :
    Fits m (pre ++ b' :: post) := by
  intro c hc hcf
  rw [binderBufferSize_map (addrs_replace ha)]
  simp only [mem_append, mem_cons] at hc
  rcases hc with hc | rfl | hc
  · exact h c (by simp [hc]) hcf
  · rw [ha]
    exact hb hcf
  · exact h c (by simp [hc]) hcf

theorem Inv.replace (h : Inv m p) (hbs : p.buffers = pre ++ b :: post) (ha : b'.addr = b.addr)
    (hf : b'.free = b.free) (hn : b'.need = b.need) :
    Inv m { p with buffers := pre ++ b' :: post } := by
  obtain ⟨ht, hs, hfit, hfree, halloc, hp⟩ := h
  rw [hbs] at ht hs hfit hfree halloc hp
  refine ⟨tiles_replace ha ht, chain_replace (fun h => hf ▸ h) hs, fits_replace ha hfit ?_, ?_, ?_, ?_⟩
  · intro hbf
    rw [hn]
    exact hfit b (by simp) (hf ▸ hbf)
  · exact hfree.replace ha hf
  · exact halloc.replace ha hf
  · exact fun j => (hp j).trans (owned_replace ha hf).symm

theorem Inv.modify (h : Inv m p) (a : ℕ) {f : Buffer → Buffer} (ha : ∀ b, (f b).addr = b.addr)
    (hf : ∀ b, (f b).free = b.free) (hn : ∀ b, (f b).need = b.need) :
    Inv m { p with buffers := Chain.modify Buffer.addr a f p.buffers } := by
  by_cases hmem : ∃ b ∈ p.buffers, b.addr = a
  · obtain ⟨b, hb, rfl⟩ := hmem
    obtain ⟨pre, post, hbs⟩ := append_of_mem hb
    have ht := h.tiles
    rw [hbs] at ht
    rw [hbs, Chain.modify_split post ht.ne_of_split]
    exact h.replace hbs (ha b) (hf b) (hn b)
  · rw [Chain.modify_of_not_mem fun b hb hba => hmem ⟨b, hb, hba⟩]
    exact h

/-! ## Allocating -/

section Take

variable {dataSize offsetsSize : ℕ} {isAsync : Bool}

def Buffer.claimed (b : Buffer) : Buffer := { b with free := false, allowUserFree := false }

def Buffer.taken (b : Buffer) (dataSize offsetsSize : ℕ) (isAsync : Bool) : Buffer :=
  { b.claimed with dataSize := dataSize, offsetsSize := offsetsSize, asyncTransaction := isAsync }

def Took (p p' : Proc) (a dataSize offsetsSize : ℕ) (isAsync : Bool) : Prop :=
  ∃ pre b post rest, p.buffers = pre ++ b :: post ∧ b.addr = a ∧ b.free = true ∧
    p'.buffers = pre ++ b.taken dataSize offsetsSize isAsync :: (rest ++ post) ∧
    (∀ c ∈ rest, c.free = true) ∧
    p'.freeAsyncSpace = if isAsync then wsub 64 p.freeAsyncSpace (wadd 64
      (b.taken dataSize offsetsSize isAsync).need headerSize) else p.freeAsyncSpace

theorem Inv.takeBuffer_whole (h : Inv m p) (hbs : p.buffers = pre ++ b :: post)
    (hf : b.free = true) {size : ℕ} (hsize : size = wadd 64 (alignPtr dataSize) (alignPtr offsetsSize))
    (hfit : size ≤ binderBufferSize m p.buffers b.addr)
    (hp : PagesOk m (pre ++ b.taken dataSize offsetsSize isAsync :: post) pages) :
    ∃ p', takeBuffer B m { p with pages := pages } b.addr size size dataSize offsetsSize isAsync =
      .ok p' ∧ Inv m p' ∧ Took p p' b.addr dataSize offsetsSize isAsync := by
  obtain ⟨ht, hs, hfits, hfree, halloc, -⟩ := h
  rw [hbs] at ht hs hfits hfree halloc hfit
  have hne := ht.ne_of_split
  have hne' : ∀ a ∈ pre, a.addr ≠ b.claimed.addr := hne
  obtain ⟨t, hins, htree⟩ := insertAllocated_spec (B := B) (b := b.claimed)
    (p := { p with
      pages := pages
      freeBuffers := B.erase b.addr p.freeBuffers
      buffers := pre ++ b.claimed :: post })
    (tiles_replace (b := b) rfl ht) rfl rfl (halloc.of_eq (addrsOf_drop hf))
  have ha : (b.taken dataSize offsetsSize isAsync).addr = b.addr := rfl
  have heq : takeBuffer B m { p with pages := pages } b.addr size size dataSize offsetsSize isAsync =
      .ok { p with
        pages := pages
        freeBuffers := B.erase b.addr p.freeBuffers
        allocatedBuffers := t
        buffers := pre ++ b.taken dataSize offsetsSize isAsync :: post
        freeAsyncSpace := if isAsync then wsub 64 p.freeAsyncSpace (wadd 64 size headerSize)
          else p.freeAsyncSpace } := by
    have hmod := Chain.modify_split post hne (fun b : Buffer =>
      { b with free := false, allowUserFree := false })
    have hmod₂ := Chain.modify_split post hne' (fun b : Buffer =>
      { b with dataSize := dataSize, offsetsSize := offsetsSize, asyncTransaction := isAsync })
    simp only [takeBuffer, hbs, hmod, ne_eq, not_true_eq_false, if_false, pure_eq_ok]
    rw [Buffer.claimed] at hins hmod₂
    simp only [hins, ok_bind, hmod₂]
    rfl
  refine ⟨_, heq, ⟨tiles_replace ha ht,
    chain_replace (fun h => absurd h (by simp [Buffer.taken, Buffer.claimed])) hs,
    fits_replace ha hfits fun _ => hsize.symm.le.trans hfit, ?_, ?_, hp⟩,
    pre, b, post, [], hbs, rfl, hf, rfl, by simp, hsize ▸ rfl⟩
  · refine (FreeTree.erase hfree hf).congr ?_ |>.of_eq (addrsOf_drop rfl).symm
    exact fun c _ _ => binderBufferSize_map (addrs_replace ha).symm _
  · exact htree.replace rfl rfl

theorem Inv.takeBuffer_split (h : Inv m p) (hbs : p.buffers = pre ++ b :: post)
    (hf : b.free = true) {size bufferSize : ℕ}
    (hsize : size = wadd 64 (alignPtr dataSize) (alignPtr offsetsSize)) (hbsize : bufferSize ≠ size)
    (hfit : size + headerSize ≤ binderBufferSize m p.buffers b.addr)
    (hp : PagesOk m (pre ++ b.taken dataSize offsetsSize isAsync ::
      ⟨b.addr + headerSize + size, true, false, false, false, 0, 0⟩ :: post) pages) :
    ∃ p', takeBuffer B m { p with pages := pages } b.addr bufferSize size dataSize offsetsSize
      isAsync = .ok p' ∧ Inv m p' ∧ Took p p' b.addr dataSize offsetsSize isAsync := by
  obtain ⟨ht, hs, hfits, hfree, halloc, -⟩ := h
  rw [hbs] at ht hs hfits hfree halloc hfit
  have hne := ht.ne_of_split
  have hne' : ∀ a ∈ pre, a.addr ≠ b.claimed.addr := hne
  have hend := binderBufferSize_split ht
  obtain ⟨t, hins, htree⟩ := insertAllocated_spec (B := B) (b := b.claimed)
    (p := { p with
      pages := pages
      freeBuffers := B.erase b.addr p.freeBuffers
      buffers := pre ++ b.claimed :: post })
    (tiles_replace (b := b) rfl ht) rfl rfl (halloc.of_eq (addrsOf_drop hf))
  generalize hnew : (⟨b.addr + headerSize + size, true, false, false, false, 0, 0⟩ : Buffer) = new at hp
  have hna : new.addr = b.addr + headerSize + size := by rw [← hnew]
  have hnf : new.free = true := by rw [← hnew]
  -- the list with the rest of the buffer linked in
  have ht₂ : Tiles m.buffer (pre ++ b.claimed :: new :: post) m.stop := by
    obtain ⟨h₁, h₂, h₃⟩ := ht.split
    refine .of_split (b := b.claimed) h₁ ?_ ⟨rfl, ?_, h₃⟩
    · show b.addr + headerSize ≤ new.addr
      omega
    · show new.addr + headerSize ≤ stop post m.stop
      omega
  have hsizes : ∀ c ∈ pre ++ post, binderBufferSize m (pre ++ b :: post) c.addr =
      binderBufferSize m (pre ++ b.claimed :: new :: post) c.addr :=
    fun c hc => binderBufferSize_splice [b] [b.claimed, new] ht ht₂ rfl hc
  have hrest : FreeTree m (pre ++ b.claimed :: new :: post) ((pre ++ [b.claimed]) ++ post)
      (B.erase b.addr p.freeBuffers) := by
    refine ((FreeTree.erase hfree hf).congr fun c hc _ => hsizes c hc).of_eq ?_
    rw [append_assoc]
    exact (addrsOf_drop rfl).symm
  obtain ⟨t', hins', htree'⟩ := insertFree_spec (B := B) (m := m) (b := new)
    (p := { p with
      pages := pages
      freeBuffers := B.erase b.addr p.freeBuffers
      allocatedBuffers := t
      buffers := pre ++ b.claimed :: new :: post })
    ht₂ (append_cons pre b.claimed (new :: post)) hnf hrest
  have ha : (b.taken dataSize offsetsSize isAsync).addr = b.addr := rfl
  have heq : takeBuffer B m { p with pages := pages } b.addr bufferSize size dataSize offsetsSize
      isAsync = .ok { p with
        pages := pages
        freeBuffers := t'
        allocatedBuffers := t
        buffers := pre ++ b.taken dataSize offsetsSize isAsync :: new :: post
        freeAsyncSpace := if isAsync then wsub 64 p.freeAsyncSpace (wadd 64 size headerSize)
          else p.freeAsyncSpace } := by
    have hmod := Chain.modify_split post hne (fun b : Buffer =>
      { b with free := false, allowUserFree := false })
    have hadd := Chain.insertAfter_split post hne' new
    have hmod₂ := Chain.modify_split (new :: post) hne' (fun b : Buffer =>
      { b with dataSize := dataSize, offsetsSize := offsetsSize, asyncTransaction := isAsync })
    rw [Buffer.claimed] at hins hins' hadd hmod₂
    rw [hna] at hins'
    simp only [takeBuffer, hbs, hmod, ne_eq, hbsize, not_false_eq_true, if_true, pure_eq_ok, hins,
      ok_bind, hnew, hadd, hins', hmod₂]
    rfl
  have hmem : ∀ c ∈ pre ++ post, c ∈ pre ++ b :: post := by
    intro c hc
    exact mem_append.mpr ((mem_append.mp hc).imp_right (mem_cons_of_mem _))
  refine ⟨_, heq, ⟨tiles_replace (b := b.claimed) rfl ht₂, ?_, ?_, ?_, ?_, hp⟩,
    pre, b, post, [new], hbs, rfl, hf, rfl, by simp [hnf], hsize ▸ rfl⟩
  · obtain ⟨h₁, -, h₃, h₄⟩ := chain_split.mp hs
    refine chain_split.mpr ⟨h₁, ?_, isChain_cons.mpr ⟨?_, h₃⟩, ?_⟩
    · exact fun a _ hab => absurd hab.2 (by simp [Buffer.taken, Buffer.claimed])
    · exact fun c hc hcn => h₄ c hc ⟨hf, hcn.2⟩
    · exact fun c _ hbc => absurd hbc.1 (by simp [Buffer.taken, Buffer.claimed])
  · intro c hc hcf
    have hmap : (pre ++ b.taken dataSize offsetsSize isAsync :: new :: post).map Buffer.addr =
        (pre ++ b.claimed :: new :: post).map Buffer.addr := addrs_replace rfl
    rw [binderBufferSize_map hmap]
    simp only [mem_append, mem_cons] at hc
    rcases hc with hc | rfl | rfl | hc
    · rw [← hsizes c (by simp [hc])]
      exact hfits c (by simp [hc]) hcf
    · have hend₂ := binderBufferSize_split ht₂
      simp only [stop_cons] at hend₂
      have hneed : (b.taken dataSize offsetsSize isAsync).need = size := hsize.symm
      have haddr : b.claimed.addr = b.addr := rfl
      rw [hneed, ha, ← haddr]
      omega
    · simp [hnf] at hcf
    · rw [← hsizes c (by simp [hc])]
      exact hfits c (by simp [hc]) hcf
  · exact htree'.replace rfl rfl
  · exact (allocTree_merge hnf).mpr (htree.replace rfl rfl)

end Take

theorem Inv.update_alloc (h : Inv m p) (hbs : p.buffers = pre ++ b :: post) (hf : b.free = true)
    (env : PageEnv) {n : ℕ} (hn : n ≤ binderBufferSize m p.buffers b.addr) :
    (∃ pages, binderUpdatePageRange m p.pages true (pageAlign (b.addr + headerSize))
        (min (pageAlign (b.addr + headerSize + n))
          (pageFloor (b.addr + headerSize + binderBufferSize m p.buffers b.addr))) env =
        .ok (pages, true) ∧
      ∀ j, pages j = true ↔ Owned m.stop (pre ++ b :: post) (m.page j) ∨
        (b.addr + headerSize ≤ m.page j ∧ m.page j < b.addr + headerSize + n ∧
          m.page j + pageSize ≤ stop post m.stop)) ∨
    binderUpdatePageRange m p.pages true (pageAlign (b.addr + headerSize))
        (min (pageAlign (b.addr + headerSize + n))
          (pageFloor (b.addr + headerSize + binderBufferSize m p.buffers b.addr))) env =
      .ok (p.pages, false) := by
  have ht := h.tiles
  have hp := h.pages
  rw [hbs] at ht hn hp ⊢
  have hend := binderBufferSize_split ht
  obtain ⟨h₁, h₂, h₃⟩ := ht.split
  have hlo := h₁.le
  have hhi := h₃.le
  have hhigh := m.high
  have hstop : m.stop = m.buffer + m.bufferSize := rfl
  rw [hend]
  have hrange : ∀ j, (pageAlign (b.addr + headerSize) ≤ m.page j ∧
      m.page j < min (pageAlign (b.addr + headerSize + n)) (pageFloor (stop post m.stop))) ↔
      (b.addr + headerSize ≤ m.page j ∧ m.page j < b.addr + headerSize + n ∧
        m.page j + pageSize ≤ stop post m.stop) := by
    intro j
    have hx := m.page_aligned j
    rw [lt_min_iff, pageAlign_le_iff hx (by omega), lt_pageAlign_iff hx (by omega),
      lt_pageFloor_iff hx]
  have hmod : min (pageAlign (b.addr + headerSize + n)) (pageFloor (stop post m.stop)) %
      pageSize = 0 := by
    rcases min_choice (pageAlign (b.addr + headerSize + n)) (pageFloor (stop post m.stop)) with hm | hm
    · rw [hm]; exact pageAlign_mod _
    · rw [hm]; exact pageFloor_mod _
  have hle : m.buffer ≤ pageAlign (b.addr + headerSize) := by
    have := le_pageAlign (show b.addr + headerSize + pageSize ≤ 2 ^ 64 by omega)
    omega
  have hlast : min (pageAlign (b.addr + headerSize + n)) (pageFloor (stop post m.stop)) ≤ m.stop :=
    (min_le_right _ _).trans ((pageFloor_le _).trans hhi)
  refine (update_alloc_spec _ _ _ env (pageAlign_mod _) hmod hle hlast ?_).imp_left ?_
  · intro j hj₁ hj₂
    have hj := (hrange j).mp ⟨hj₁, hj₂⟩
    rw [Bool.eq_false_iff, ne_eq, hp]
    exact not_owned_of_inside ht hf ⟨hj.1, hj.2.2⟩
  · rintro ⟨pages, heq, hspec⟩
    exact ⟨pages, heq, fun j => by rw [hspec, hrange, hp]⟩

theorem cutSize_cases {exact : Bool} {size realSize : ℕ} (hlt : realSize + headerSize + 4 < 2 ^ 64)
    (hfit : if exact then realSize = size else size < realSize) :
    (cutSize exact size realSize = size ∧ size ≤ realSize ∧ realSize ≤ size + headerSize + 4) ∨
    (cutSize exact size realSize = size + headerSize ∧ size + headerSize + 4 < realSize) := by
  unfold cutSize
  cases exact with
  | true =>
    rw [if_pos rfl] at hfit ⊢
    exact .inl (by omega)
  | false =>
    simp only [Bool.false_eq_true, if_false] at hfit ⊢
    rw [wadd_of_lt (by omega), wadd_of_lt (by omega)]
    split_ifs with hroom
    · exact .inl (by omega)
    · exact .inr (by omega)

def NoPages (m : Mapping) (env : PageEnv) (p : Proc) (a n : ℕ) : Prop :=
  binderUpdatePageRange m p.pages true (pageAlign (a + headerSize))
    (min (pageAlign (a + headerSize + n))
      (pageFloor (a + headerSize + binderBufferSize m p.buffers a))) env = .ok (p.pages, false)

theorem Inv.allocFrom (h : Inv m p) (hbs : p.buffers = pre ++ b :: post) (hf : b.free = true)
    (env : PageEnv) {exact : Bool} {size dataSize offsetsSize : ℕ} (isAsync : Bool)
    (hsize : size = wadd 64 (alignPtr dataSize) (alignPtr offsetsSize))
    (hfit : if exact then binderBufferSize m p.buffers b.addr = size
      else size < binderBufferSize m p.buffers b.addr) :
    ∃ p' o, allocFrom B m env p b.addr exact size dataSize offsetsSize isAsync = .ok (p', o) ∧
      Inv m p' ∧ (o = some b.addr ∧ Took p p' b.addr dataSize offsetsSize isAsync ∨
        o = none ∧ p' = p ∧
          NoPages m env p b.addr (cutSize exact size (binderBufferSize m p.buffers b.addr))) := by
  have ht := h.tiles
  rw [hbs] at ht
  have hend := binderBufferSize_split ht
  rw [← hbs] at hend
  have hhi := ht.split.2.2.le
  have hhigh := m.high
  have hstop : m.stop = m.buffer + m.bufferSize := rfl
  have hlo := ht.split.1.le
  have hlow := m.low
  have hpage : headerSize + 4 < pageSize := by decide
  have ha : (b.taken dataSize offsetsSize isAsync).addr = b.addr := rfl
  have hbf : (b.taken dataSize offsetsSize isAsync).free = false := rfl
  rw [Alloc.allocFrom]
  obtain ⟨hcut, hle, hsmall⟩ | ⟨hcut, hroom⟩ := cutSize_cases (by omega) hfit
  · rw [hcut]
    obtain ⟨pages, heq, hspec⟩ | heq := h.update_alloc hbs hf env hle
    · have hp : PagesOk m (pre ++ b.taken dataSize offsetsSize isAsync :: post) pages := by
        intro j
        rw [hspec, owned_allocate ha hf hbf]
        refine or_congr_right ?_
        unfold Inside
        omega
      obtain ⟨p', htake, hinv, htook⟩ := h.takeBuffer_whole (B := B) hbs hf hsize hle hp
      exact ⟨p', some b.addr, by rw [heq]; simp [htake], hinv, .inl ⟨rfl, htook⟩⟩
    · exact ⟨p, none, by rw [heq]; simp, h, .inr ⟨rfl, rfl, heq⟩⟩
  · rw [hcut]
    obtain ⟨pages, heq, hspec⟩ | heq := h.update_alloc hbs hf env (n := size + headerSize) (by omega)
    · have hp : PagesOk m (pre ++ b.taken dataSize offsetsSize isAsync ::
          ⟨b.addr + headerSize + size, true, false, false, false, 0, 0⟩ :: post) pages := by
        intro j
        have hnf : (⟨b.addr + headerSize + size, true, false, false, false, 0, 0⟩ : Buffer).free =
          true := rfl
        rw [hspec, owned_split ht (m.page_aligned j) m.stop_aligned ha hf hbf hnf
          (Nat.le_add_right ..)
          (by show b.addr + headerSize + size + headerSize < stop post m.stop; omega)]
        rw [add_assoc (b.addr + headerSize) size headerSize]
      have hcut' : size + headerSize ≠ size := by
        unfold headerSize
        omega
      obtain ⟨p', htake, hinv, htook⟩ := h.takeBuffer_split (B := B) hbs hf hsize hcut' (by omega) hp
      exact ⟨p', some b.addr, by rw [heq]; simp [htake], hinv, .inl ⟨rfl, htook⟩⟩
    · exact ⟨p, none, by rw [heq]; simp, h, .inr ⟨rfl, rfl, heq⟩⟩

def request (dataSize offsetsSize : ℕ) : ℕ := wadd 64 (alignPtr dataSize) (alignPtr offsetsSize)

def Passes (m : Mapping) (env : PageEnv) (p : Proc) (dataSize offsetsSize : ℕ) (isAsync : Bool) :
    Prop :=
  env.vma = true ∧ dataSize ≤ request dataSize offsetsSize ∧
    offsetsSize ≤ request dataSize offsetsSize ∧
    wadd 64 (request dataSize offsetsSize) headerSize ≤ procMaxSize m isAsync ∧
    (isAsync = true → wadd 64 (request dataSize offsetsSize) headerSize ≤ p.freeAsyncSpace)

structure BestFit (m : Mapping) (p : Proc) (size a : ℕ) : Prop where
  mem : a ∈ freeAddrs p.buffers
  le : size ≤ binderBufferSize m p.buffers a
  least : ∀ c ∈ freeAddrs p.buffers, size ≤ binderBufferSize m p.buffers c →
    binderBufferSize m p.buffers a ≤ binderBufferSize m p.buffers c

/-- What `binder_alloc_buf` comes back with: a part of the best fit, or nothing and why. -/
inductive Allocated (m : Mapping) (env : PageEnv) (p : Proc) (dataSize offsetsSize : ℕ)
    (isAsync : Bool) : Proc → Option ℕ → Prop
  | took {p' : Proc} {a : ℕ} (hpass : Passes m env p dataSize offsetsSize isAsync)
      (hfit : BestFit m p (request dataSize offsetsSize) a)
      (htook : Took p p' a dataSize offsetsSize isAsync) :
      Allocated m env p dataSize offsetsSize isAsync p' (some a)
  | refused (h : ¬ Passes m env p dataSize offsetsSize isAsync) :
      Allocated m env p dataSize offsetsSize isAsync p none
  | noAddressSpace (h : ∀ a ∈ freeAddrs p.buffers,
        binderBufferSize m p.buffers a < request dataSize offsetsSize) :
      Allocated m env p dataSize offsetsSize isAsync p none
  | noPages {a : ℕ} {exact : Bool} (hfit : BestFit m p (request dataSize offsetsSize) a)
      (hexact : exact = true ↔ binderBufferSize m p.buffers a = request dataSize offsetsSize)
      (h : NoPages m env p a (cutSize exact (request dataSize offsetsSize)
        (binderBufferSize m p.buffers a))) :
      Allocated m env p dataSize offsetsSize isAsync p none

theorem Inv.alloc (h : Inv m p) (env : PageEnv) (dataSize offsetsSize : ℕ) (isAsync : Bool) :
    ∃ p' o, binderAllocBuf B m env p dataSize offsetsSize isAsync = .ok (p', o) ∧ Inv m p' ∧
      Allocated m env p dataSize offsetsSize isAsync p' o := by
  simp only [binderAllocBuf]
  rw [show wadd 64 (alignPtr dataSize) (alignPtr offsetsSize) = request dataSize offsetsSize from rfl]
  split_ifs with h₁ h₂ h₃ h₄
  · exact ⟨p, none, rfl, h, .refused fun hp => by simp [hp.1] at h₁⟩
  · exact ⟨p, none, rfl, h, .refused fun hp => by have := hp.2; omega⟩
  · exact ⟨p, none, rfl, h, .refused fun hp => by have := hp.2.2.2.1; omega⟩
  · exact ⟨p, none, rfl, h, .refused fun hp => by have := hp.2.2.2.2 h₄.1; omega⟩
  · have hmem : ∀ y ∈ p.freeBuffers.toList, ∃ c ∈ p.buffers, c.free = true ∧ c.addr = y :=
      fun y hy => mem_addrsOf.mp (h.freeTree.perm.mem_iff.mp hy)
    have hpass : Passes m env p dataSize offsetsSize isAsync :=
      ⟨by simpa using h₁, by omega, by omega, by omega, fun ha => by
        by_contra hlt
        exact h₄ ⟨ha, not_le.mp hlt⟩⟩
    obtain ⟨o, exact, heq, hcase⟩ := bestFit_spec (m := m) (request dataSize offsetsSize)
      h.tiles hmem h.freeTree.sorted none
    simp only [h.freeTree.perm.mem_iff] at hcase
    rw [heq, ok_bind]
    rcases hcase with ⟨rfl, rfl, hsmall⟩ | ⟨a, ha, rfl, hfit, hleast⟩
    · exact ⟨p, none, rfl, h, .noAddressSpace hsmall⟩
    · have hexact : request dataSize offsetsSize ≤ binderBufferSize m p.buffers a ∧
          (exact = true ↔ binderBufferSize m p.buffers a = request dataSize offsetsSize) := by
        cases exact with
        | true => exact ⟨hfit.ge, fun _ => hfit, fun _ => rfl⟩
        | false => exact ⟨Nat.le_of_lt hfit, fun h => absurd h Bool.false_ne_true,
            fun h => absurd h hfit.ne'⟩
      have hbest : BestFit m p (request dataSize offsetsSize) a := ⟨ha, hexact.1, hleast⟩
      obtain ⟨b, hb, hf, rfl⟩ := mem_addrsOf.mp ha
      obtain ⟨pre, post, hbs⟩ := append_of_mem hb
      obtain ⟨p', o, heq', hinv, ⟨rfl, htook⟩ | ⟨rfl, rfl, hpages⟩⟩ :=
        h.allocFrom (B := B) hbs hf env isAsync rfl hfit
      · exact ⟨p', _, heq', hinv, .took hpass hbest htook⟩
      · exact ⟨p', _, heq', hinv, .noPages hbest hexact.2 hpages⟩

end Cupcake.Binder.Alloc
