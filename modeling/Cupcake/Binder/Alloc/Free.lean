import Cupcake.Binder.Alloc.Invariant

/-! Freeing keeps the allocator's invariant, and with it every run of the allocator. -/

namespace Cupcake.Binder.Alloc

open List

variable {B : Tree.Balancer ℕ} {m : Mapping} {p p' : Proc} {pre post : List Buffer}
  {b q : Buffer} {env : PageEnv}

/-! ## Dissolving a header -/

theorem freedPages_spec {q a x : ℕ} {n : Option ℕ} (hqa : q + headerSize ≤ a)
    (han : ∀ c ∈ n, a + headerSize ≤ c) (hx : x % pageSize = 0) :
    ((freedPages q a n).1 = true ∨ (freedPages q a n).2 = true) ∧
      (if (freedPages q a n).1 then bufferStartPage a else bufferEndPage a) ≤ x ∧
      x < (if (freedPages q a n).2 then bufferEndPage a else bufferStartPage a) + pageSize ↔
    Hits a x ∧ ¬ Hits q x ∧ ∀ c ∈ n, ¬ Hits c x := by
  -- compare page numbers first, and look at addresses only then
  rcases n with _ | c
  · cases h₁ : bufferEndPage q == bufferStartPage a <;> cases h₂ : bufferEndPage q == bufferEndPage a
    all_goals
      simp only [freedPages, h₁, h₂, Bool.not_true, Bool.not_false, Bool.and_true, Bool.and_false,
        Bool.false_eq_true, if_true, if_false, or_true, or_self, true_and, false_and, false_iff,
        Option.not_mem_none, false_imp_iff, implies_true, and_true]
      simp only [beq_iff_eq, beq_eq_false_iff_ne] at h₁ h₂
      unfold Hits
      simp only [bufferStartPage, bufferEndPage, pageFloor, headerSize, pageSize] at *
      omega
  · have hac := han c rfl
    cases h₁ : bufferEndPage q == bufferStartPage a <;>
      cases h₂ : bufferEndPage q == bufferEndPage a <;>
    cases h₃ : bufferStartPage c == bufferStartPage a <;>
    cases h₄ : bufferStartPage c == bufferEndPage a
    all_goals
      simp only [freedPages, h₁, h₂, h₃, h₄, Bool.not_true, Bool.not_false, Bool.and_true,
        Bool.and_false, Bool.and_self, Bool.false_eq_true, if_true, if_false, or_true, or_false,
        or_self, true_and,
        false_and, false_iff, Option.mem_some_iff, forall_eq']
      simp only [beq_iff_eq, beq_eq_false_iff_ne] at h₁ h₂ h₃ h₄
      unfold Hits
      simp only [bufferStartPage, bufferEndPage, pageFloor, headerSize, pageSize] at *
      omega

theorem delete_spec (ht : Tiles m.buffer p.buffers m.stop) (hbs : p.buffers = pre ++ q :: b :: post)
    (hq : q.free = true) (hb : b.free = true) (hp : PagesOk m p.buffers p.pages) (env : PageEnv) :
    ∃ pages, binderDeleteFreeBuffer m env p b.addr =
        .ok { p with buffers := pre ++ q :: post, pages := pages } ∧
      PagesOk m (pre ++ q :: post) pages := by
  have hsplit : p.buffers = (pre ++ [q]) ++ b :: post := by simp [hbs]
  have ht' := ht
  rw [hsplit] at ht'
  have hne := ht'.ne_of_split
  obtain ⟨h₁, h₂, h₃⟩ := ht'.split
  have hqb := (h₁.mem (by simp : q ∈ pre ++ [q])).2
  have hlo := h₁.le
  have hhi := h₃.le
  have hnext : ∀ c ∈ post.head?.map Buffer.addr, b.addr + headerSize ≤ c := by
    intro c hc
    cases post with
    | nil => cases hc
    | cons d post =>
      obtain rfl : d.addr = c := by simpa using hc
      exact h₂
  have hfreed := fun j => freedPages_spec hqb hnext (m.page_aligned j)
  simp only [Option.mem_map, forall_exists_index, and_imp, forall_apply_eq_imp_iff₂] at hfreed
  have hhead : ¬ p.buffers.head?.map Buffer.addr = some b.addr := by
    rw [hsplit]
    cases pre with
    | nil => simpa using hne q (by simp)
    | cons c pre => simpa using hne c (by simp)
  have hprev : Chain.prev Buffer.addr b.addr p.buffers = some q := by
    rw [hsplit, Chain.prev_split post hne (by simp)]
    simp
  have hnxt : Chain.next Buffer.addr b.addr p.buffers = post.head? := by
    rw [hsplit, Chain.next_split post hne]
  have hremove : Chain.remove Buffer.addr b.addr p.buffers = pre ++ q :: post := by
    rw [hsplit, Chain.remove_split post hne]
    simp
  have hmerge := fun j => owned_merge (x := m.page j) (hbs ▸ ht) hb hq
  rw [hbs] at hp
  simp only [binderDeleteFreeBuffer, bugOn_of_not hhead, ok_bind, hprev,
    bugOn_of_not (by simp [hq] : ¬ q.free = false), hnxt, hremove, Bool.or_eq_true]
  generalize freedPages q.addr b.addr (post.head?.map Buffer.addr) = f at *
  by_cases hf : f.1 = true ∨ f.2 = true
  · simp only [hf, true_and, if_true] at hfreed ⊢
    have hmod : m.buffer % pageSize = 0 := m.buffer_aligned
    have hmod' : m.stop % pageSize = 0 := m.stop_aligned
    have hstart : m.buffer ≤ bufferStartPage b.addr ∧ bufferStartPage b.addr ≤ bufferEndPage b.addr ∧
        bufferEndPage b.addr + pageSize ≤ m.stop := by
      unfold bufferStartPage bufferEndPage pageFloor headerSize pageSize at *
      omega
    have hS : bufferStartPage b.addr % pageSize = 0 := pageFloor_mod _
    have hT : bufferEndPage b.addr % pageSize = 0 := pageFloor_mod _
    obtain ⟨pages, r, heq, hspec⟩ := update_free_spec (m := m) p.pages
      (if f.1 then bufferStartPage b.addr else bufferEndPage b.addr)
      ((if f.2 then bufferEndPage b.addr else bufferStartPage b.addr) + pageSize) env
      (by split_ifs; exacts [hS, hT])
      (by rw [Nat.add_mod_right]; split_ifs; exacts [hT, hS])
      (by split_ifs <;> omega)
      (by split_ifs <;> omega)
      (fun j h₁ h₂ => (hp j).mpr (by
        have hits := ((hfreed j).mp ⟨h₁, h₂⟩).1
        rw [owned_append]
        exact .inr (.inr (.inr (.inl hits)))))
    refine ⟨pages, by rw [heq]; rfl, fun j => ?_⟩
    rw [hspec, hp, hfreed, hmerge]
  · rw [if_neg hf]
    refine ⟨p.pages, rfl, fun j => ?_⟩
    rw [hp, hmerge, ← hfreed]
    exact ⟨fun h => ⟨h, fun h' => hf h'.1⟩, fun h => h.1⟩

/-! ## Merging -/

def Buffer.charge (b : Buffer) : ℕ := if b.asyncTransaction then wadd 64 b.need headerSize else 0

def charges (bs : List Buffer) : List (ℕ × ℕ) :=
  (bs.filter fun b => !b.free).map fun b => (b.addr, b.charge)

def SameUse (p p' : Proc) : Prop :=
  charges p'.buffers = charges p.buffers ∧ p'.freeAsyncSpace = p.freeAsyncSpace

theorem charges_drop (hb : b.free = true) :
    charges (pre ++ b :: post) = charges (pre ++ post) := by
  simp [charges, hb]

theorem charges_perm (hb : b.free = false) :
    (charges (pre ++ b :: post)).Perm ((b.addr, b.charge) :: charges (pre ++ post)) := by
  simp [charges, hb, perm_middle]

/-- The state while a freed buffer `b` is merged: it is on the list, but not yet in the
tree of free buffers, and its neighbours may be free. -/
structure Loose (m : Mapping) (p : Proc) (pre : List Buffer) (b : Buffer) (post : List Buffer) :
    Prop where
  buffers : p.buffers = pre ++ b :: post
  free : b.free = true
  tiles : Tiles m.buffer p.buffers m.stop
  preSparse : pre.IsChain NotBothFree
  postSparse : post.IsChain NotBothFree
  fits : Fits m p.buffers
  freeTree : FreeTree m p.buffers (pre ++ post) p.freeBuffers
  allocTree : AllocTree p.buffers p.allocatedBuffers
  pages : PagesOk m p.buffers p.pages

theorem Loose.insert (h : Loose m p pre b post) (hpre : ∀ a ∈ pre.getLast?, a.free = false)
    (hpost : ∀ c ∈ post.head?, c.free = false) :
    ∃ p', binderInsertFreeBuffer B m p b.addr = .ok p' ∧ Inv m p' ∧ SameUse p p' := by
  obtain ⟨t, heq, htree⟩ := insertFree_spec (B := B) h.tiles h.buffers h.free h.freeTree
  refine ⟨_, heq, ⟨h.tiles, ?_, h.fits, htree, h.allocTree, h.pages⟩, rfl, rfl⟩
  show p.buffers.IsChain NotBothFree
  rw [h.buffers]
  refine chain_split.mpr ⟨h.preSparse, ?_, h.postSparse, ?_⟩
  · exact fun a ha hab => absurd hab.1 (by simp [hpre a ha])
  · exact fun c hc hbc => absurd hbc.2 (by simp [hpost c hc])

theorem Tiles.merge {lo hi : ℕ} (h : Tiles lo (pre ++ q :: b :: post) hi) :
    Tiles lo (pre ++ q :: post) hi := by
  obtain ⟨h₁, h₂⟩ := tiles_append.mp h
  obtain ⟨-, hqb, -, hle, h₃⟩ := h₂
  simp only [stop_cons] at hqb hle
  exact .of_split h₁ (by omega) h₃

theorem size_merge (h : Tiles m.buffer (pre ++ q :: b :: post) m.stop) {c : Buffer}
    (hc : c ∈ pre ++ post) : binderBufferSize m (pre ++ q :: b :: post) c.addr =
      binderBufferSize m (pre ++ q :: post) c.addr :=
  binderBufferSize_splice [q, b] [q] h h.merge rfl hc

theorem fits_merge (h : Tiles m.buffer (pre ++ q :: b :: post) m.stop) (hq : q.free = true)
    (hfit : Fits m (pre ++ q :: b :: post)) : Fits m (pre ++ q :: post) := by
  intro c hc hcf
  simp only [mem_append, mem_cons] at hc
  rcases hc with hc | rfl | hc
  · rw [← size_merge h (by simp [hc])]
    exact hfit c (by simp [hc]) hcf
  · rw [hq] at hcf
    cases hcf
  · rw [← size_merge h (by simp [hc])]
    exact hfit c (by simp [hc]) hcf

theorem Loose.mergeNext {n : Buffer} (h : Loose m p pre b (n :: post)) (hn : n.free = true)
    (env : PageEnv) :
    ∃ p', binderDeleteFreeBuffer m env { p with freeBuffers := B.erase n.addr p.freeBuffers } n.addr =
      .ok p' ∧ Loose m p' pre b post ∧ SameUse p p' := by
  have ht := h.tiles
  have hfit := h.fits
  have hfree := h.freeTree
  have halloc := h.allocTree
  rw [h.buffers] at ht hfit hfree halloc
  obtain ⟨pages, heq, hpages⟩ := delete_spec
    (p := { p with freeBuffers := B.erase n.addr p.freeBuffers }) h.tiles h.buffers h.free hn
    h.pages env
  refine ⟨_, heq, ⟨rfl, h.free, ht.merge, h.preSparse, (isChain_cons.mp h.postSparse).2,
    fits_merge ht h.free hfit, ?_, (allocTree_merge hn).mp halloc, hpages⟩, ?_, rfl⟩
  · exact (hfree.erase hn).congr fun c hc _ => size_merge ht hc
  · simp [h.buffers, charges, h.free, hn]

theorem Loose.mergePrev (h : Loose m p (pre ++ [q]) b post) (hq : q.free = true) (env : PageEnv) :
    ∃ p', binderDeleteFreeBuffer m env p b.addr = .ok p' ∧
      Loose m { p' with freeBuffers := B.erase q.addr p'.freeBuffers } pre q post ∧
      SameUse p p' := by
  have hbs : p.buffers = pre ++ q :: b :: post := by simp [h.buffers]
  have ht := h.tiles
  have hfit := h.fits
  have hfree := h.freeTree
  have halloc := h.allocTree
  rw [hbs] at ht hfit hfree halloc
  obtain ⟨pages, heq, hpages⟩ := delete_spec h.tiles hbs hq h.free h.pages env
  refine ⟨_, heq, ⟨rfl, hq, ht.merge, (isChain_append.mp h.preSparse).1, h.postSparse,
    fits_merge ht hq hfit, ?_, (allocTree_merge h.free).mp halloc, hpages⟩, ?_, rfl⟩
  · rw [append_assoc] at hfree
    exact (hfree.erase hq).congr fun c hc _ => size_merge ht hc
  · simp [hbs, charges, hq, h.free]

theorem mergeNext_spec (h : Loose m p pre b post) (env : PageEnv) :
    ∃ p' post', mergeNext B m env p b.addr = .ok p' ∧ Loose m p' pre b post' ∧
      (∀ c ∈ post'.head?, c.free = false) ∧ SameUse p p' := by
  have hne : ∀ a ∈ pre, a.addr ≠ b.addr := by
    have ht := h.tiles
    rw [h.buffers] at ht
    exact ht.ne_of_split
  have hnext : Chain.next Buffer.addr b.addr p.buffers = post.head? := by
    rw [h.buffers, Chain.next_split post hne]
  rw [mergeNext, hnext]
  cases post with
  | nil => exact ⟨p, [], rfl, h, by simp, rfl, rfl⟩
  | cons n post =>
    by_cases hn : n.free = true
    · obtain ⟨p', heq, hloose, hsame⟩ := h.mergeNext (B := B) hn env
      refine ⟨p', post, by simp only [List.head?_cons, hn, if_true]; exact heq, hloose, ?_, hsame⟩
      intro c hc
      have := (isChain_cons.mp h.postSparse).1 c hc
      simpa [NotBothFree, hn] using this
    · refine ⟨p, n :: post, by simp [hn], h, ?_, rfl, rfl⟩
      simpa using hn

theorem mergePrev_spec (h : Loose m p pre b post) (env : PageEnv) :
    ∃ p' pre' b', mergePrev B m env p b.addr = .ok (p', b'.addr) ∧ Loose m p' pre' b' post ∧
      (∀ a ∈ pre'.getLast?, a.free = false) ∧ SameUse p p' := by
  have hne : ∀ a ∈ pre, a.addr ≠ b.addr := by
    have ht := h.tiles
    rw [h.buffers] at ht
    exact ht.ne_of_split
  rcases eq_nil_or_concat pre with rfl | ⟨pre, q, rfl⟩
  · exact ⟨p, [], b, by simp [mergePrev, h.buffers], h, by simp, rfl, rfl⟩
  · rw [concat_eq_append] at h hne
    have hhead : ¬ p.buffers.head?.map Buffer.addr = some b.addr := by
      rw [h.buffers]
      cases pre with
      | nil => simpa using hne q (by simp)
      | cons c pre => simpa using hne c (by simp)
    have hprev : Chain.prev Buffer.addr b.addr p.buffers = some q := by
      rw [h.buffers, Chain.prev_split post hne (by simp)]
      simp
    by_cases hq : q.free = true
    · obtain ⟨p', heq, hloose, hsame⟩ := h.mergePrev (B := B) hq env
      refine ⟨_, pre, q, ?_, hloose, ?_, hsame⟩
      · simp only [mergePrev, hhead, if_false, hprev, hq, if_true, heq, ok_bind]
        rfl
      intro a ha
      have := (isChain_append.mp h.preSparse).2.2 a ha q (by simp)
      simpa [NotBothFree, hq] using this
    · refine ⟨p, pre ++ [q], b, by simp [mergePrev, hhead, hprev, hq], h, ?_, rfl, rfl⟩
      simpa using hq

/-! ## Freeing -/

def Buffer.freed (b : Buffer) : Buffer := { b with free := true }

theorem Inv.update_free (h : Inv m p) (hbs : p.buffers = pre ++ b :: post) (hf : b.free = false)
    (env : PageEnv) :
    ∃ pages r, binderUpdatePageRange m p.pages false (pageAlign (b.addr + headerSize))
        (pageFloor (b.addr + headerSize + binderBufferSize m p.buffers b.addr)) env =
        .ok (pages, r) ∧ PagesOk m (pre ++ b.freed :: post) pages := by
  have ht := h.tiles
  have hp := h.pages
  rw [hbs] at ht hp ⊢
  rw [binderBufferSize_split ht]
  obtain ⟨h₁, h₂, h₃⟩ := ht.split
  have hlo := h₁.le
  have hhi := h₃.le
  have hhigh := m.high
  have hstop : m.stop = m.buffer + m.bufferSize := rfl
  have hrange : ∀ j, (pageAlign (b.addr + headerSize) ≤ m.page j ∧
      m.page j < pageFloor (stop post m.stop)) ↔
      Inside (b.addr + headerSize) (stop post m.stop) (m.page j) := by
    intro j
    have hx := m.page_aligned j
    rw [pageAlign_le_iff hx (by omega), lt_pageFloor_iff hx, Inside]
  have howned : ∀ j, Owned m.stop (pre ++ b :: post) (m.page j) ↔
      Owned m.stop (pre ++ b.freed :: post) (m.page j) ∨
        Inside (b.addr + headerSize) (stop post m.stop) (m.page j) :=
    fun j => owned_allocate rfl rfl hf
  have hle : m.buffer ≤ pageAlign (b.addr + headerSize) := by
    have := le_pageAlign (show b.addr + headerSize + pageSize ≤ 2 ^ 64 by omega)
    omega
  obtain ⟨pages, r, heq, hspec⟩ := update_free_spec p.pages _ _ env (pageAlign_mod _)
    (pageFloor_mod _) hle ((pageFloor_le _).trans hhi)
    fun j hj₁ hj₂ => (hp j).mpr ((howned j).mpr (.inr ((hrange j).mp ⟨hj₁, hj₂⟩)))
  have ht' : Tiles m.buffer (pre ++ b.freed :: post) m.stop := tiles_replace (b := b) rfl ht
  refine ⟨pages, r, heq, fun j => ?_⟩
  rw [hspec, hp, hrange, howned]
  constructor
  · rintro ⟨ho | ho, hno⟩
    · exact ho
    · exact absurd ho hno
  · intro ho
    exact ⟨.inl ho, fun hin => not_owned_of_inside ht' rfl hin ho⟩

def Released (p p' : Proc) (b : Buffer) : Prop :=
  (charges p.buffers).Perm ((b.addr, b.charge) :: charges p'.buffers) ∧
    (p.freeAsyncSpace + b.charge < 2 ^ 64 → p'.freeAsyncSpace = p.freeAsyncSpace + b.charge)

theorem Inv.free (h : Inv m p) (hbs : p.buffers = pre ++ b :: post) (hf : b.free = false)
    (htr : b.transaction = false) (env : PageEnv) :
    ∃ p', binderFreeBuf B m env p b.addr = .ok p' ∧ Inv m p' ∧ Released p p' b := by
  obtain ⟨pages, r, hpg, hpages⟩ := h.update_free hbs hf env
  have hfit := h.fits b (by simp [hbs]) hf
  have hlook := h.tiles.lookup (b := b) (by simp [hbs])
  obtain ⟨hin, hin'⟩ := h.tiles.mem (b := b) (by simp [hbs])
  have hstop : m.stop = m.buffer + m.bufferSize := rfl
  have ht := h.tiles
  rw [hbs] at ht
  have hmod := Chain.modify_split post ht.ne_of_split (fun b : Buffer => { b with free := true })
  have hloose : Loose m { p with
      freeAsyncSpace := if b.asyncTransaction then
        wadd 64 p.freeAsyncSpace (wadd 64 b.need headerSize) else p.freeAsyncSpace
      pages := pages
      allocatedBuffers := B.erase b.addr p.allocatedBuffers
      buffers := pre ++ b.freed :: post } pre b.freed post := by
    have hs := h.sparse
    have hfits := h.fits
    have hfree := h.freeTree
    have halloc := h.allocTree
    rw [hbs] at hs hfits hfree halloc
    obtain ⟨h₁, -, h₃, -⟩ := chain_split.mp hs
    refine ⟨rfl, rfl, tiles_replace (b := b) rfl ht, h₁, h₃, ?_, ?_, ?_, hpages⟩
    · exact fits_replace (b := b) rfl hfits fun hbf => absurd hbf (by simp [Buffer.freed])
    · have hmap : (pre ++ b.freed :: post).map Buffer.addr = (pre ++ b :: post).map Buffer.addr :=
        addrs_replace rfl
      exact (hfree.congr fun c _ _ => binderBufferSize_map hmap.symm c.addr).of_eq (addrsOf_drop hf)
    · exact (halloc.erase hf).of_eq (addrsOf_drop (b := b.freed) rfl).symm
  obtain ⟨p₁, post', heq₁, hloose₁, hpost, hsame₁⟩ := mergeNext_spec (B := B) hloose env
  obtain ⟨p₂, pre', b', heq₂, hloose₂, hpre, hsame₂⟩ := mergePrev_spec (B := B) hloose₁ env
  obtain ⟨p₃, heq₃, hinv, hsame₃⟩ := hloose₂.insert (B := B) hpre hpost
  have hrel : Released p p₃ b := by
    constructor
    · rw [hsame₃.1, hsame₂.1, hsame₁.1, charges_drop (b := b.freed) rfl, hbs]
      exact charges_perm hf
    · intro hlt
      rw [hsame₃.2, hsame₂.2, hsame₁.2]
      unfold Buffer.charge at hlt ⊢
      split_ifs at hlt ⊢
      · exact wadd_of_lt hlt
      · rfl
  refine ⟨p₃, ?_, hinv, hrel⟩
  rw [binderFreeBuf, hlook]
  simp only [ok_bind, bugOn_of_not (by simp [hf] : ¬ b.free = true),
    bugOn_of_not (by simp [htr] : ¬ b.transaction = true),
    bugOn_of_not (by omega : ¬ b.addr < m.buffer),
    bugOn_of_not (by omega : ¬ b.addr > m.buffer + m.bufferSize)]
  rw [show wadd 64 (alignPtr b.dataSize) (alignPtr b.offsetsSize) = b.need from rfl,
    bugOn_of_not (not_lt.mpr hfit)]
  simp only [ok_bind, hpg]
  rw [hbs, hmod]
  simp only [Buffer.freed] at heq₁ heq₂
  simp only [heq₁, ok_bind, heq₂, heq₃]

/-! ## Whole runs -/

theorem hits_buffer_iff (j : ℕ) : Hits m.buffer (m.page j) ↔ j = 0 := by
  unfold Hits Mapping.page headerSize pageSize
  omega

theorem binderMmap_eq (env : PageEnv) :
    binderMmap B m env = .ok none ∨ binderMmap B m env = .ok (some (mapped B m)) := by
  have hsize := m.bufferSize_aligned
  have hpos := m.bufferSize_pos
  have hstop : m.stop = m.buffer + m.bufferSize := rfl
  obtain ⟨pages, heq, hspec⟩ | heq := update_alloc_spec (m := m) (fun _ => false) m.buffer
    (m.buffer + pageSize) env m.buffer_aligned (by rw [Nat.add_mod_right]; exact m.buffer_aligned)
    le_rfl (by unfold pageSize at *; omega) (by simp)
  · right
    have hpages : pages = Function.update (fun _ => false) 0 true := by
      funext j
      have hj : (m.buffer ≤ m.page j ∧ m.page j < m.buffer + pageSize) ↔ j = 0 := by
        unfold Mapping.page pageSize
        omega
      by_cases h0 : j = 0
      · subst h0
        simpa [hj] using hspec 0
      · simpa [hj, h0] using hspec j
    rw [binderMmap, heq]
    simp [binderInsertFreeBuffer, lookup, Chain.find, bugOn, Tree.link, mapped, hpages]
  · left
    rw [binderMmap, heq]
    rfl

theorem Inv.mapped : Inv m (mapped B m) := by
  have hsize := m.bufferSize_aligned
  have hpos := m.bufferSize_pos
  have hroom : m.buffer + headerSize ≤ m.stop := by
    unfold Mapping.stop headerSize pageSize at *
    omega
  refine ⟨⟨rfl, hroom, rfl⟩, isChain_singleton _, ?_, ⟨?_, ?_⟩, ⟨.nil, .nil⟩, ?_⟩
  · intro c hc hcf
    obtain rfl := mem_singleton.mp hc
    cases hcf
  · rw [Alloc.mapped, B.toList_insertColor]
    exact .rfl
  · rw [Alloc.mapped, B.toList_insertColor]
    exact pairwise_singleton ..
  · intro j
    simp only [Alloc.mapped, Owned, hits_buffer_iff, Bool.true_eq_false, false_and, or_false]
    by_cases hj : j = 0
    · simp [hj]
    · simp [hj]

structure Ready (m : Mapping) (p : Proc) : Prop where
  inv : Inv m p
  async : p.freeAsyncSpace + ((charges p.buffers).map Prod.snd).sum = m.bufferSize / 2

theorem Ready.mapped : Ready m (mapped B m) := ⟨.mapped, rfl⟩

theorem charges_setTransaction (a : ℕ) (v : Bool) (bs : List Buffer) :
    charges (Chain.modify Buffer.addr a (fun b => { b with transaction := v }) bs) = charges bs := by
  induction bs with
  | nil => rfl
  | cons b bs ih =>
    rw [Chain.modify]
    split_ifs
    · cases hf : b.free with
      | false => simp [charges, hf, Buffer.charge, Buffer.need]
      | true => simp [charges, hf]
    · unfold charges at ih ⊢
      cases hf : b.free with
      | false => simp [hf, ih]
      | true => simp [hf, ih]

theorem Ready.alloc (h : Ready m p) (env : PageEnv) (dataSize offsetsSize : ℕ) (isAsync : Bool) :
    ∃ p' o, binderAllocBuf B m env p dataSize offsetsSize isAsync = .ok (p', o) ∧ Ready m p' ∧
      Allocated m env p dataSize offsetsSize isAsync p' o := by
  obtain ⟨p', o, heq, hinv, hres⟩ := h.inv.alloc (B := B) env dataSize offsetsSize isAsync
  refine ⟨p', o, heq, ⟨hinv, ?_⟩, hres⟩
  have hasync := h.async
  cases hres with
  | refused _ => exact hasync
  | noAddressSpace _ => exact hasync
  | noPages _ _ _ => exact hasync
  | took hpass _ htook =>
    obtain ⟨pre, b, post, rest, hbs, -, hf, hbs', hrest, hspace⟩ := htook
    have hempty : charges (pre ++ (rest ++ post)) = charges (pre ++ post) := by
      have : rest.filter (fun c => !c.free) = [] := by simpa using hrest
      simp [charges, this]
    have hperm := (show (charges (pre ++ b.taken dataSize offsetsSize isAsync :: (rest ++ post))).Perm _
      from charges_perm rfl).map Prod.snd
    have hle := m.bufferSize_le
    rw [hbs, charges_drop hf] at hasync
    rw [hbs', hperm.sum_nat, hempty, hspace, map_cons, sum_cons, Buffer.charge]
    cases isAsync with
    | false => simpa [Buffer.taken] using hasync
    | true =>
      have hroom : wadd 64 (b.taken dataSize offsetsSize true).need headerSize ≤ p.freeAsyncSpace :=
        hpass.2.2.2.2 rfl
      have htaken : (b.taken dataSize offsetsSize true).asyncTransaction = true := rfl
      rw [if_pos rfl, if_pos htaken, wsub_of_le hroom (by omega)]
      omega

theorem Ready.free (h : Ready m p) {a : ℕ} (ha : a ∈ allocAddrs p.buffers) (env : PageEnv) :
    ∃ p', call B m p (.free env a) = .ok p' ∧ Ready m p' ∧
      (allocAddrs p.buffers).Perm (a :: allocAddrs p'.buffers) := by
  obtain ⟨b, hb, hf, rfl⟩ := mem_addrsOf.mp ha
  obtain ⟨pre, post, hbs⟩ := append_of_mem hb
  have ht := h.inv.tiles
  rw [hbs] at ht
  have hmod := Chain.modify_split post ht.ne_of_split fun b : Buffer => { b with transaction := false }
  rw [← hbs] at hmod
  have hinv : Inv m { p with
      buffers := Chain.modify Buffer.addr b.addr (fun b => { b with transaction := false })
        p.buffers } :=
    h.inv.modify b.addr (fun _ => rfl) (fun _ => rfl) (fun _ => rfl)
  obtain ⟨p', heq, hinv', hperm, hspace⟩ := hinv.free (B := B) hmod hf rfl env
  dsimp only at hperm hspace
  rw [charges_setTransaction] at hperm
  have hasync := h.async
  have hle := m.bufferSize_le
  rw [(hperm.map Prod.snd).sum_nat, map_cons, sum_cons] at hasync
  refine ⟨p', ?_, ⟨hinv', ?_⟩, ?_⟩
  · simp only [Alloc.call, h.inv.tiles.find hb, hf]
    exact heq
  · rw [hspace (by omega)]
    omega
  · simpa [charges, addrsOf, Function.comp_def] using hperm.map Prod.fst

theorem Ready.call (h : Ready m p) (op : Op) : ∃ p', call B m p op = .ok p' ∧ Ready m p' := by
  cases op with
  | alloc env dataSize offsetsSize isAsync =>
    obtain ⟨p', o, heq, hready, -⟩ := h.alloc (B := B) env dataSize.val offsetsSize.val isAsync
    cases o with
    | none => exact ⟨p', by simp [Alloc.call, heq], hready⟩
    | some a =>
      refine ⟨_, by simp only [Alloc.call, heq, ok_bind]; rfl, hready.inv.modify a ?_ ?_ ?_, ?_⟩
      · exact fun _ => rfl
      · exact fun _ => rfl
      · exact fun _ => rfl
      · rw [charges_setTransaction]
        exact hready.async
  | free env a =>
    by_cases ha : a ∈ allocAddrs p.buffers
    · obtain ⟨p', heq, hready, -⟩ := h.free (B := B) ha env
      exact ⟨p', heq, hready⟩
    · refine ⟨p, ?_, h⟩
      rw [Alloc.call]
      cases hfind : Chain.find Buffer.addr a p.buffers with
      | none => rfl
      | some b =>
        obtain ⟨hb, rfl⟩ := Chain.mem_of_find hfind
        have hf : b.free = true := by
          by_contra hf
          exact ha (mem_addrsOf.mpr ⟨b, hb, by simpa using hf, rfl⟩)
        simp [hf]

theorem owned_iff_exists {hi x : ℕ} {bs : List Buffer} : Owned hi bs x ↔
    ∃ pre b post, bs = pre ++ b :: post ∧
      (Hits b.addr x ∨ b.free = false ∧ Inside (b.addr + headerSize) (stop post hi) x) := by
  constructor
  · intro h
    induction bs with
    | nil => exact h.elim
    | cons b bs ih =>
      rcases h with h | h | h
      · exact ⟨[], b, bs, rfl, .inl h⟩
      · exact ⟨[], b, bs, rfl, .inr h⟩
      · obtain ⟨pre, c, post, rfl, hc⟩ := ih h
        exact ⟨b :: pre, c, post, rfl, hc⟩
  · rintro ⟨pre, b, post, rfl, h⟩
    rw [owned_append]
    exact .inr (h.imp_right .inl)

/-- What holds of the allocator between two calls. -/
structure AllocOk (m : Mapping) (p : Proc) : Prop where
  /-- the buffers tile the area: the first starts it, and each ends where the next
  begins, the last where the area ends -/
  first : stop p.buffers m.stop = m.buffer
  tiles : ∀ pre b post, p.buffers = pre ++ b :: post →
    b.addr + headerSize + binderBufferSize m p.buffers b.addr = stop post m.stop
  sparse : p.buffers.IsChain fun a b => ¬ (a.free = true ∧ b.free = true)
  free : p.freeBuffers.toList.Perm ((p.buffers.filter (·.free)).map Buffer.addr)
  freeSorted : p.freeBuffers.toList.Pairwise fun x y =>
    binderBufferSize m p.buffers x ≤ binderBufferSize m p.buffers y
  allocated : p.allocatedBuffers.toList.Perm ((p.buffers.filter fun b => !b.free).map Buffer.addr)
  allocatedSorted : p.allocatedBuffers.toList.Pairwise (· < ·)
  pages : ∀ j, p.pages j = true ↔ ∃ b ∈ p.buffers, Hits b.addr (m.page j) ∨
    b.free = false ∧ Inside (b.addr + headerSize)
      (b.addr + headerSize + binderBufferSize m p.buffers b.addr) (m.page j)

theorem Inv.allocOk (h : Inv m p) : AllocOk m p := by
  have hsize : ∀ pre b post, p.buffers = pre ++ b :: post →
      b.addr + headerSize + binderBufferSize m p.buffers b.addr = stop post m.stop := by
    intro pre b post hbs
    have ht := h.tiles
    rw [hbs] at ht ⊢
    exact binderBufferSize_split ht
  refine ⟨h.tiles.stop_eq, hsize, h.sparse, by simpa [addrsOf] using h.freeTree.perm,
    h.freeTree.sorted, by simpa [addrsOf] using h.allocTree.perm, ?_, ?_⟩
  · have hnodup : p.allocatedBuffers.toList.Nodup := by
      refine h.allocTree.perm.nodup_iff.mpr (List.Pairwise.map _ (fun a b => ?_)
        (h.tiles.sorted.filter _))
      exact Nat.ne_of_lt
    exact (h.allocTree.sorted.and hnodup).imp fun hab => lt_of_le_of_ne hab.1 hab.2
  · intro j
    rw [h.pages, owned_iff_exists]
    constructor
    · rintro ⟨pre, b, post, hbs, hb⟩
      exact ⟨b, by simp [hbs], hsize pre b post hbs ▸ hb⟩
    · rintro ⟨b, hb, h⟩
      obtain ⟨pre, post, hbs⟩ := append_of_mem hb
      exact ⟨pre, b, post, hbs, hsize pre b post hbs ▸ h⟩

/-- Every sequence of calls on a mapped process goes through without a `BUG_ON`, and
leaves the allocator in order. -/
theorem allocOk_of_calls (B : Tree.Balancer ℕ) (m : Mapping) (ops : List Op) :
    ∃ p, ops.foldlM (call B m) (mapped B m) = .ok p ∧ AllocOk m p := by
  obtain ⟨p, heq, h⟩ := exists_foldlM (fun _ op h => Ready.call h op) ops (Ready.mapped (B := B))
  exact ⟨p, heq, h.inv.allocOk⟩

end Cupcake.Binder.Alloc
