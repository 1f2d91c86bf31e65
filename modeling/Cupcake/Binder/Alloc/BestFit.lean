import Cupcake.Binder.Alloc.Free

/-! The allocator hands out the best fit, and is as after `binder_mmap` again once every buffer is
freed. -/

namespace Cupcake.Binder.Alloc

open List

variable {B : Tree.Balancer ℕ} {m : Mapping} {p : Proc}

/-- One free buffer over the whole area, with only its first page mapped. -/
structure Fresh (m : Mapping) (p : Proc) : Prop where
  buffers : ∃ b, p.buffers = [b] ∧ b.addr = m.buffer ∧ b.free = true
  size : headerSize + binderBufferSize m p.buffers m.buffer = m.bufferSize
  freeBuffers : p.freeBuffers.toList = [m.buffer]
  allocatedBuffers : p.allocatedBuffers.toList = []
  pages : ∀ j, p.pages j = true ↔ j = 0
  freeAsyncSpace : p.freeAsyncSpace = m.bufferSize / 2

theorem Ready.fresh (h : Ready m p) (hnone : allocAddrs p.buffers = []) : Fresh m p := by
  have hfree : ∀ b ∈ p.buffers, b.free = true := by
    intro b hb
    by_contra hf
    have : b.addr ∈ allocAddrs p.buffers := mem_addrsOf.mpr ⟨b, hb, by simpa using hf, rfl⟩
    rw [hnone] at this
    cases this
  have hcharges : charges p.buffers = [] := by
    simpa [charges] using hfree
  have hasync := h.async
  rw [hcharges] at hasync
  obtain ⟨ht, hs, -, hft, hat, hp⟩ := h.inv
  have hpos := m.bufferSize_pos
  have hstop : m.stop = m.buffer + m.bufferSize := rfl
  have hempty : p.allocatedBuffers.toList = [] := perm_nil.mp (hnone ▸ hat.perm)
  generalize hbs : p.buffers = bs at *
  rcases bs with - | ⟨b, - | ⟨c, bs⟩⟩
  · -- without a buffer, the area would be empty
    have : m.stop = m.buffer := ht.symm
    omega
  · have hf := hfree b (by simp)
    obtain ⟨haddr, hle, -⟩ := ht
    have hend : b.addr + headerSize + binderBufferSize m ([] ++ [b]) b.addr = m.stop :=
      binderBufferSize_split ⟨haddr, hle, rfl⟩
    have hone : freeAddrs [b] = [m.buffer] := by simp [addrsOf, hf, haddr]
    refine ⟨⟨b, hbs, haddr, hf⟩, ?_, perm_singleton.mp (hone ▸ hft.perm), hempty, ?_, hasync⟩
    · rw [haddr] at hend
      rw [nil_append] at hend
      rw [hbs]
      omega
    · intro j
      rw [hp, Owned, hf, haddr, hits_buffer_iff]
      simp [Owned]
  · exact absurd ⟨hfree b (by simp), hfree c (by simp)⟩ (isChain_cons_cons.mp hs).1

def freeAll (B : Tree.Balancer ℕ) (m : Mapping) (p : Proc) (order : List (PageEnv × ℕ)) :
    Except Bug Proc :=
  order.foldlM (fun p e => call B m p (.free e.1 e.2)) p

theorem Ready.freeAll (h : Ready m p) {order : List (PageEnv × ℕ)}
    (horder : (order.map Prod.snd).Perm (allocAddrs p.buffers)) :
    ∃ p', freeAll B m p order = .ok p' ∧ Fresh m p' := by
  induction order generalizing p with
  | nil => exact ⟨p, rfl, h.fresh (nil_perm.mp horder)⟩
  | cons e order ih =>
    obtain ⟨p₁, heq, hready, hperm⟩ :=
      h.free (B := B) (horder.mem_iff.mp mem_cons_self) e.1
    obtain ⟨p', heq', hfresh⟩ := ih hready (List.Perm.cons_inv (horder.trans hperm))
    refine ⟨p', ?_, hfresh⟩
    rw [Alloc.freeAll, foldlM_cons, heq]
    exact heq'

/-- An allocation takes a part of a best fit, and freeing all buffers undoes all allocations. -/
theorem bestFit_and_fresh (B : Tree.Balancer ℕ) (m : Mapping) (env₀ : PageEnv) :
    binderMmap B m env₀ = .ok none ∨ ∃ p₀, binderMmap B m env₀ = .ok (some p₀) ∧ Fresh m p₀ ∧
      ∀ ops : List Op, ∃ p, ops.foldlM (call B m) p₀ = .ok p ∧
        (∀ env dataSize offsetsSize isAsync, ∃ p' o,
          binderAllocBuf B m env p dataSize offsetsSize isAsync = .ok (p', o) ∧
          Allocated m env p dataSize offsetsSize isAsync p' o) ∧
        ∀ order : List (PageEnv × ℕ), (order.map Prod.snd).Perm (allocAddrs p.buffers) →
          ∃ p', freeAll B m p order = .ok p' ∧ Fresh m p' := by
  refine (binderMmap_eq (B := B) env₀).imp_right fun hmap => ?_
  refine ⟨_, hmap, Ready.mapped.fresh rfl, fun ops => ?_⟩
  obtain ⟨p, heq, h⟩ := exists_foldlM (fun _ op h => Ready.call h op) ops (Ready.mapped (B := B))
  refine ⟨p, heq, fun env dataSize offsetsSize isAsync => ?_, fun order => h.freeAll⟩
  obtain ⟨p', o, heq', -, hres⟩ := h.alloc (B := B) env dataSize offsetsSize isAsync
  exact ⟨p', o, heq', hres⟩

end Cupcake.Binder.Alloc
