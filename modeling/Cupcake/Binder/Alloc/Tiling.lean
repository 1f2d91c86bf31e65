import Cupcake.Binder.Alloc.Defs
import Mathlib.Data.List.Chain

/-! Buffers that tile an interval of addresses, and the pages that their headers and
the data of the allocated ones need. A page is given by its first address. -/

namespace Cupcake.Binder.Alloc

open List

variable {pre post bs : List Buffer} {b c : Buffer} {lo hi x : ℕ}

/-- Where the buffer before `bs` ends, when the tiling ends at `hi`. -/
def stop : List Buffer → ℕ → ℕ
  | [], hi => hi
  | c :: _, _ => c.addr

/-- Each buffer starts where the one before it ends, and has room for its header. -/
def Tiles : ℕ → List Buffer → ℕ → Prop
  | lo, [], hi => lo = hi
  | lo, b :: bs, hi => b.addr = lo ∧ lo + headerSize ≤ stop bs hi ∧ Tiles (stop bs hi) bs hi

@[simp] theorem stop_nil : stop [] hi = hi := rfl

@[simp] theorem stop_cons : stop (b :: bs) hi = b.addr := rfl

theorem stop_append : stop (pre ++ post) hi = stop pre (stop post hi) := by
  cases pre <;> rfl

theorem Tiles.stop_eq (h : Tiles lo bs hi) : stop bs hi = lo := by
  cases bs with
  | nil => exact h.symm
  | cons b bs => exact h.1

theorem tiles_append :
    Tiles lo (pre ++ post) hi ↔ Tiles lo pre (stop post hi) ∧ Tiles (stop post hi) post hi := by
  induction pre generalizing lo with
  | nil =>
    refine ⟨fun h => ⟨h.stop_eq.symm, h.stop_eq.symm ▸ h⟩, ?_⟩
    rintro ⟨rfl, h⟩
    exact h
  | cons b pre ih => simp only [cons_append, Tiles, ih, stop_append, and_assoc]

theorem Tiles.le (h : Tiles lo bs hi) : lo ≤ hi := by
  induction bs generalizing lo with
  | nil => exact h.le
  | cons b bs ih =>
    have := ih h.2.2
    have := h.2.1
    omega

theorem Tiles.mem (h : Tiles lo bs hi) (hb : b ∈ bs) : lo ≤ b.addr ∧ b.addr + headerSize ≤ hi := by
  induction bs generalizing lo with
  | nil => cases hb
  | cons c bs ih =>
    obtain ⟨rfl, hle, ht⟩ := h
    have := ht.le
    rcases mem_cons.mp hb with rfl | hb
    · omega
    · have := ih ht hb
      omega

theorem Tiles.sorted (h : Tiles lo bs hi) : bs.Pairwise fun a b => a.addr < b.addr := by
  induction bs generalizing lo with
  | nil => exact .nil
  | cons c bs ih =>
    obtain ⟨rfl, hle, ht⟩ := h
    refine pairwise_cons.mpr ⟨fun d hd => ?_, ih ht⟩
    have := (ht.mem hd).1
    unfold headerSize at hle
    omega

section

variable (h : Tiles lo (pre ++ b :: post) hi)

include h

theorem Tiles.ne_of_split : ∀ a ∈ pre, a.addr ≠ b.addr := by
  intro a ha
  exact ((pairwise_append.mp h.sorted).2.2 a ha b (by simp)).ne

theorem Tiles.ne_of_split_right : ∀ a ∈ post, a.addr ≠ b.addr := by
  intro a ha
  have := (pairwise_cons.mp (pairwise_append.mp h.sorted).2.1).1 a ha
  omega

theorem Tiles.split :
    Tiles lo pre b.addr ∧ b.addr + headerSize ≤ stop post hi ∧ Tiles (stop post hi) post hi := by
  obtain ⟨h₁, h₂⟩ := tiles_append.mp h
  exact ⟨h₁, h₂.2⟩

end

theorem Tiles.of_split (h₁ : Tiles lo pre b.addr) (h₂ : b.addr + headerSize ≤ stop post hi)
    (h₃ : Tiles (stop post hi) post hi) : Tiles lo (pre ++ b :: post) hi :=
  tiles_append.mpr ⟨h₁, rfl, h₂, h₃⟩

/-! ## The pages in use -/

def Hits (a x : ℕ) : Prop := x < a + headerSize ∧ a < x + pageSize

def Inside (lo hi x : ℕ) : Prop := lo ≤ x ∧ x + pageSize ≤ hi

def Owned (hi : ℕ) : List Buffer → ℕ → Prop
  | [], _ => False
  | b :: bs, x => Hits b.addr x ∨ (b.free = false ∧ Inside (b.addr + headerSize) (stop bs hi) x) ∨
      Owned hi bs x

theorem owned_append :
    Owned hi (pre ++ post) x ↔ Owned (stop post hi) pre x ∨ Owned hi post x := by
  induction pre with
  | nil => simp [Owned]
  | cons b pre ih => simp only [cons_append, Owned, ih, stop_append, or_assoc]

theorem Owned.bounds (ht : Tiles lo bs hi) (h : Owned hi bs x) : lo < x + pageSize ∧ x < hi := by
  induction bs generalizing lo with
  | nil => exact h.elim
  | cons b bs ih =>
    obtain ⟨rfl, hle, ht⟩ := ht
    have hend := ht.le
    rcases h with h | h | h
    · unfold Hits at h
      omega
    · obtain ⟨-, h₁, h₂⟩ := h
      unfold pageSize at *
      omega
    · have := ih ht h
      omega

theorem Tiles.owned_lo (h : Tiles lo bs hi) (hne : bs ≠ []) (h₁ : x ≤ lo) (h₂ : lo < x + pageSize) :
    Owned hi bs x := by
  cases bs with
  | nil => exact absurd rfl hne
  | cons b bs =>
    obtain ⟨rfl, -⟩ := h
    refine .inl ⟨?_, h₂⟩
    unfold headerSize
    omega

theorem not_owned_of_inside (h : Tiles lo (pre ++ b :: post) hi) (hf : b.free = true)
    (hx : Inside (b.addr + headerSize) (stop post hi) x) : ¬ Owned hi (pre ++ b :: post) x := by
  obtain ⟨h₁, h₂, h₃⟩ := h.split
  rw [owned_append]
  unfold Inside at hx
  rintro (ho | ho | ho | ho)
  · have := (Owned.bounds h₁ ho).2
    omega
  · unfold Hits at ho
    omega
  · rw [hf] at ho
    exact absurd ho.1 (by decide)
  · have := (Owned.bounds h₃ ho).1
    omega

theorem owned_allocate {b' : Buffer} (ha : b'.addr = b.addr) (hf : b.free = true)
    (hf' : b'.free = false) :
    Owned hi (pre ++ b' :: post) x ↔
      Owned hi (pre ++ b :: post) x ∨ Inside (b.addr + headerSize) (stop post hi) x := by
  simp only [owned_append, Owned, stop_cons, ha, hf, hf', true_and, Bool.true_eq_false, false_and,
    false_or]
  constructor
  · rintro (h | h | h | h)
    · exact .inl (.inl h)
    · exact .inl (.inr (.inl h))
    · exact .inr h
    · exact .inl (.inr (.inr h))
  · rintro ((h | h | h) | h)
    · exact .inl h
    · exact .inr (.inl h)
    · exact .inr (.inr (.inr h))
    · exact .inr (.inr (.inl h))

theorem owned_split {b' new : Buffer} (h : Tiles lo (pre ++ b :: post) hi)
    (hx : x % pageSize = 0) (hhi : hi % pageSize = 0) (ha : b'.addr = b.addr) (hf : b.free = true)
    (hf' : b'.free = false) (hn : new.free = true) (hnlo : b.addr + headerSize ≤ new.addr)
    (hnhi : new.addr + headerSize < stop post hi) :
    Owned hi (pre ++ b' :: new :: post) x ↔ Owned hi (pre ++ b :: post) x ∨
      (b.addr + headerSize ≤ x ∧ x < new.addr + headerSize ∧ x + pageSize ≤ stop post hi) := by
  obtain ⟨h₁, h₂, h₃⟩ := h.split
  simp only [owned_append, Owned, stop_cons, ha, hf, hf', hn, true_and, Bool.true_eq_false,
    false_and, false_or]
  have hpos : 0 < headerSize := by decide
  constructor
  · rintro (ho | ho | ho | ho | ho)
    · exact .inl (.inl ho)
    · exact .inl (.inr (.inl ho))
    · unfold Inside at ho
      exact .inr (by omega)
    · unfold Hits at ho
      by_cases hb : x < b.addr + headerSize
      · -- the new header starts in the page of the old one
        exact .inl (.inr (.inl ⟨hb, by omega⟩))
      by_cases he : x + pageSize ≤ stop post hi
      · exact .inr (by omega)
      · -- the new header reaches into the page where the next buffer starts
        refine .inl (.inr (.inr (h₃.owned_lo ?_ (by omega) (by omega))))
        rintro rfl
        rw [stop_nil] at he hnhi
        unfold pageSize at *
        omega
    · exact .inl (.inr (.inr ho))
  · rintro ((h | h | h) | h)
    · exact .inl h
    · exact .inr (.inl h)
    · exact .inr (.inr (.inr (.inr h)))
    · by_cases hd : x + pageSize ≤ new.addr
      · exact .inr (.inr (.inl ⟨h.1, hd⟩))
      · exact .inr (.inr (.inr (.inl ⟨h.2.1, by omega⟩)))

theorem owned_merge {q : Buffer} (h : Tiles lo (pre ++ q :: b :: post) hi)
    (hb : b.free = true) (hq : q.free = true) :
    Owned hi (pre ++ q :: post) x ↔ Owned hi (pre ++ q :: b :: post) x ∧
      ¬ (Hits b.addr x ∧ ¬ Hits q.addr x ∧ ∀ n ∈ post.head?, ¬ Hits n.addr x) := by
  have hsplit := (tiles_append.mp h).1
  obtain ⟨-, hqb, hb', hle, h₃⟩ := (tiles_append.mp h).2
  simp only [stop_cons] at hsplit hqb hb'
  have hout : Hits b.addr x → (Owned q.addr pre x → Hits q.addr x) := by
    intro hx ho
    have := (Owned.bounds hsplit ho).2
    unfold Hits at *
    omega
  have hout' : Hits b.addr x → Owned hi post x → ∃ n ∈ post.head?, Hits n.addr x := by
    intro hx ho
    have hlo := (Owned.bounds h₃ ho).1
    cases post with
    | nil => exact ho.elim
    | cons n post =>
      refine ⟨n, rfl, ?_⟩
      simp only [stop_cons] at hlo hle
      unfold Hits at *
      omega
  simp only [owned_append, Owned, stop_cons, hb, hq, Bool.true_eq_false, false_and, false_or]
  by_cases hx : Hits b.addr x
  · by_cases hxq : Hits q.addr x
    · simp [hx, hxq]
    · by_cases hn : ∃ n ∈ post.head?, Hits n.addr x
      · have hpost : Owned hi post x := by
          obtain ⟨n, hn, hxn⟩ := hn
          cases post with
          | nil => cases hn
          | cons c post =>
            obtain rfl : c = n := by simpa using hn
            exact .inl hxn
        have hn' : ¬ ∀ n ∈ post.head?, ¬ Hits n.addr x := by
          intro hall
          obtain ⟨n, hn, hxn⟩ := hn
          exact hall n hn hxn
        simp only [hpost, hn', or_true, and_false, not_false_eq_true, and_self]
      · have hpre : ¬ Owned q.addr pre x := fun ho => hxq (hout hx ho)
        have hpost : ¬ Owned hi post x := fun ho => hn (hout' hx ho)
        have hn' : ∀ n ∈ post.head?, ¬ Hits n.addr x := fun n hn₁ hxn => hn ⟨n, hn₁, hxn⟩
        simp only [hpre, hpost, hxq, hx, or_self, not_false_eq_true, true_and, false_iff]
        exact fun h => h.2 hn'
  · simp [hx]

end Cupcake.Binder.Alloc
