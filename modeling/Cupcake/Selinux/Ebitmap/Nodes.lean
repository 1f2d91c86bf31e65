import Cupcake.Selinux.Ebitmap.Defs

/-! What the operations on one node of a bitmap do to its bits. -/

namespace Cupcake.Selinux

open BitVec List

theorem getLsbD_one_shiftLeft (k i : ℕ) (hi : i < 64) :
    (1#64 <<< k).getLsbD i = decide (i = k) := by
  by_cases h : i < k
  · simp [getLsbD_shiftLeft, h, Nat.ne_of_lt h]
  · have : i - k = 0 ↔ i = k := by omega
    simp [h, hi, this]

theorem and_one_shiftLeft_ne_zero (w : BitVec 64) {k : ℕ} (hk : k < 64) :
    decide (w &&& (1#64 <<< k) ≠ 0) = w.getLsbD k := by
  cases hw : w.getLsbD k with
  | true =>
    have h : (w &&& (1#64 <<< k)).getLsbD k = true := by
      rw [getLsbD_and, hw, getLsbD_one_shiftLeft k k hk]
      simp
    have : w &&& (1#64 <<< k) ≠ 0 := by
      intro h0
      rw [h0] at h
      simp at h
    simpa using this
  | false =>
    have : w &&& (1#64 <<< k) = 0 := by
      apply eq_of_getLsbD_eq
      intro i hi
      rw [getLsbD_and, getLsbD_one_shiftLeft k i hi]
      by_cases hik : i = k
      · simp [hik, hw]
      · simp [hik]
    simp [this]

namespace EbitmapNode

variable {n : EbitmapNode} {bit ofs k : ℕ}

theorem div_lt_unitNums : ofs / 64 < ebitmapUnitNums ↔ ofs < ebitmapSize := by
  simp only [ebitmapSize, ebitmapUnitNums]
  omega

theorem test_of_lt (h : ofs < ebitmapSize) :
    n.test ofs = (n.maps ⟨ofs / 64, div_lt_unitNums.mpr h⟩).getLsbD (ofs % 64) :=
  dif_pos (div_lt_unitNums.mpr h)

theorem lt_of_test (h : n.test ofs = true) : ofs < ebitmapSize := by
  by_contra hn
  rw [test, dif_neg (mt div_lt_unitNums.mp hn)] at h
  cases h

section

variable (h : n.startbit ≤ bit) (h' : bit < n.startbit + ebitmapSize)
  (hs : n.startbit + ebitmapSize ≤ 2 ^ 32)

include h h' hs

theorem index_offset :
    n.index bit = (bit - n.startbit) / 64 ∧ n.offset bit = (bit - n.startbit) % 64 ∧
      n.index bit < ebitmapUnitNums := by
  have hb : bit < 2 ^ 32 := by omega
  have hsub : wsub 32 (bit % 2 ^ 32) n.startbit = bit - n.startbit := by
    rw [Nat.mod_eq_of_lt hb]
    exact wsub_of_le h hb
  simp only [index, offset, hsub, ebitmapUnitSize]
  exact ⟨trivial, trivial, div_lt_unitNums.mpr (by omega)⟩

theorem getBit_eq :
    n.getBit bit = some (n.test (bit - n.startbit)) := by
  obtain ⟨hi, ho, hlt⟩ := index_offset h h' hs
  rw [getBit, dif_pos hlt, test_of_lt (by omega), and_one_shiftLeft_ne_zero _ (by omega)]
  simp only [hi, ho]

end

theorem test_update {w : BitVec 64} (hi : bit / 64 < ebitmapUnitNums) (hk : k < ebitmapSize) :
    test ⟨Function.update n.maps ⟨bit / 64, hi⟩ w, n.startbit⟩ k =
      if k / 64 = bit / 64 then w.getLsbD (k % 64) else n.test k := by
  rw [test_of_lt hk, test_of_lt hk]
  by_cases h : k / 64 = bit / 64
  · simp [h]
  · have hne : (⟨k / 64, div_lt_unitNums.mpr hk⟩ : Fin ebitmapUnitNums) ≠ ⟨bit / 64, hi⟩ := by
      simpa [Fin.ext_iff] using h
    simp only [if_neg h, Function.update_of_ne hne]

section

variable (h : n.startbit ≤ bit) (h' : bit < n.startbit + ebitmapSize)
  (hs : n.startbit + ebitmapSize ≤ 2 ^ 32)

include h h' hs

theorem setBit_spec :
    ∃ n', n.setBit bit = some n' ∧ n'.startbit = n.startbit ∧
      ∀ k, n'.test k = true ↔ n.test k = true ∨ k = bit - n.startbit := by
  obtain ⟨hi, ho, hlt⟩ := index_offset h h' hs
  refine ⟨_, dif_pos hlt, rfl, fun k => ?_⟩
  by_cases hk : k < ebitmapSize
  · simp only [hi, ho] at hlt ⊢
    rw [test_update hlt hk]
    by_cases hw : k / 64 = (bit - n.startbit) / 64
    · rw [if_pos hw, getLsbD_or, getLsbD_one_shiftLeft _ _ (by omega), Bool.or_eq_true,
        decide_eq_true_eq, test_of_lt hk]
      have : k % 64 = (bit - n.startbit) % 64 ↔ k = bit - n.startbit := by omega
      rw [this]
      simp only [hw]
    · have : k ≠ bit - n.startbit := fun hk => hw (by rw [hk])
      simp [hw, this]
  · have h₁ : ∀ m : EbitmapNode, ¬m.test k = true := fun m hm => hk (lt_of_test hm)
    have h₂ : k ≠ bit - n.startbit := by omega
    simp [h₁, h₂]

theorem clrBit_spec :
    ∃ n', n.clrBit bit = some n' ∧ n'.startbit = n.startbit ∧
      ∀ k, n'.test k = true ↔ n.test k = true ∧ k ≠ bit - n.startbit := by
  obtain ⟨hi, ho, hlt⟩ := index_offset h h' hs
  refine ⟨_, dif_pos hlt, rfl, fun k => ?_⟩
  by_cases hk : k < ebitmapSize
  · simp only [hi, ho] at hlt ⊢
    rw [test_update hlt hk]
    by_cases hw : k / 64 = (bit - n.startbit) / 64
    · rw [if_pos hw, getLsbD_and, getLsbD_not, getLsbD_one_shiftLeft _ _ (by omega),
        Bool.and_eq_true, test_of_lt hk]
      have hne : k % 64 = (bit - n.startbit) % 64 ↔ k = bit - n.startbit := by omega
      have hlt64 : k % 64 < 64 := by omega
      simp [hne, hw, hlt64]
    · have : k ≠ bit - n.startbit := fun hk => hw (by rw [hk])
      simp [hw, this]
  · have h₁ : ∀ m : EbitmapNode, ¬m.test k = true := fun m hm => hk (lt_of_test hm)
    simp [h₁]

end

theorem ext_of_test {n₁ n₂ : EbitmapNode} (h : n₁.startbit = n₂.startbit)
    (ht : ∀ k, n₁.test k = true ↔ n₂.test k = true) : n₁ = n₂ := by
  obtain ⟨m₁, s₁⟩ := n₁
  obtain ⟨m₂, s₂⟩ := n₂
  obtain rfl : s₁ = s₂ := h
  congr
  funext i
  apply eq_of_getLsbD_eq
  intro j hj
  have hlt : 64 * i.val + j < ebitmapSize := by
    have := i.isLt
    simp only [ebitmapSize, ebitmapUnitNums] at *
    omega
  have h := ht (64 * i.val + j)
  rw [test_of_lt hlt, test_of_lt hlt] at h
  have hd : (64 * i.val + j) / 64 = i.val := by omega
  have hm : (64 * i.val + j) % 64 = j := by omega
  simp only [hd, hm, Fin.eta] at h
  exact Bool.eq_iff_iff.mpr h

/-! ## Searching a node -/

def posFrom (n : EbitmapNode) (ofs : ℕ) : List ℕ :=
  ((List.range' ofs (ebitmapSize - ofs)).filter n.test).map (n.startbit + ·)

theorem range'_split {a b m : ℕ} (h : a ≤ b) (hm : b < a + m) :
    range' a m = range' a (b - a) ++ b :: range' (b + 1) (m - (b - a) - 1) := by
  have h₁ : range' a m = range' a (b - a) ++ range' b (m - (b - a)) := by
    have := range'_append_1 (s := a) (m := b - a) (n := m - (b - a))
    rw [show a + (b - a) = b by omega, show b - a + (m - (b - a)) = m by omega] at this
    exact this.symm
  rw [h₁, show m - (b - a) = m - (b - a) - 1 + 1 by omega, range'_succ]
  rfl

theorem findNextBit_cases (n : EbitmapNode) (ofs : ℕ) :
    (n.findNextBit ofs < ebitmapSize ∧ n.test (n.findNextBit ofs) = true ∧
      n.posFrom ofs = (n.startbit + n.findNextBit ofs) :: n.posFrom (n.findNextBit ofs + 1)) ∨
    (¬n.findNextBit ofs < ebitmapSize ∧ n.posFrom ofs = []) := by
  cases hf : (range' ofs (ebitmapSize - ofs)).find? n.test with
  | none =>
    refine .inr ⟨by simp [findNextBit, hf], ?_⟩
    have := find?_eq_none.mp hf
    simp only [posFrom, map_eq_nil_iff, filter_eq_nil_iff]
    exact this
  | some k =>
    have hk : n.findNextBit ofs = k := by simp [findNextBit, hf]
    have hmem := mem_of_find?_eq_some hf
    have hlt : ofs ≤ k ∧ k < ofs + (ebitmapSize - ofs) := by simpa [mem_range'_1] using hmem
    have htest : n.test k = true := find?_some hf
    refine .inl ⟨by omega, by rw [hk]; exact htest, ?_⟩
    obtain ⟨-, as, bs, hl, has⟩ := find?_eq_some_iff_append.mp hf
    have hsplit := range'_split hlt.1 hlt.2
    -- the bits before the one found are clear
    have hclear : ∀ j ∈ range' ofs (k - ofs), ¬n.test j = true := by
      intro j hj
      have hjk : j < k := by
        have := mem_range'_1.mp hj
        omega
      have hjl : j ∈ as ++ k :: bs := by
        rw [← hl, hsplit]
        simp [hj]
      have hpw : (as ++ k :: bs).Pairwise (· < ·) := by
        rw [← hl]
        exact pairwise_lt_range'
      have hbs := (pairwise_append.mp hpw).2.1
      rcases mem_append.mp hjl with hja | hjb
      · simpa using has j hja
      · rcases mem_cons.mp hjb with rfl | hjb
        · exact absurd hjk (lt_irrefl _)
        · exact absurd ((pairwise_cons.mp hbs).1 j hjb) (by omega)
    have hfil : (range' ofs (k - ofs)).filter n.test = [] := filter_eq_nil_iff.mpr hclear
    rw [hk, posFrom, posFrom, hsplit, filter_append, hfil, nil_append,
      filter_cons_of_pos htest, map_cons,
      show ebitmapSize - ofs - (k - ofs) - 1 = ebitmapSize - (k + 1) by omega]

theorem findFirstBit_lt_iff (n : EbitmapNode) :
    n.findFirstBit < ebitmapSize ↔ ∃ k, n.test k = true := by
  rcases findNextBit_cases n 0 with ⟨h, ht, -⟩ | ⟨h, hp⟩
  · exact iff_of_true h ⟨_, ht⟩
  · refine iff_of_false h ?_
    rintro ⟨k, hk⟩
    have hlt := lt_of_test hk
    have := filter_eq_nil_iff.mp (map_eq_nil_iff.mp hp) k (by simp [mem_range'_1, hlt])
    exact this hk

theorem mem_posFrom {b : ℕ} :
    b ∈ n.posFrom ofs ↔ n.startbit + ofs ≤ b ∧ n.test (b - n.startbit) = true := by
  simp only [posFrom, mem_map, mem_filter, mem_range'_1]
  constructor
  · rintro ⟨k, ⟨hk, ht⟩, rfl⟩
    exact ⟨by omega, by simpa using ht⟩
  · rintro ⟨hb, ht⟩
    have := lt_of_test ht
    exact ⟨b - n.startbit, ⟨⟨by omega, by omega⟩, ht⟩, by omega⟩

theorem posFrom_pairwise (n : EbitmapNode) (ofs : ℕ) : (n.posFrom ofs).Pairwise (· < ·) := by
  refine List.Pairwise.map _ (fun a b h => Nat.add_lt_add_left h _) ?_
  exact (pairwise_lt_range').filter _

theorem length_posFrom_le (n : EbitmapNode) (ofs : ℕ) : (n.posFrom ofs).length ≤ ebitmapSize := by
  rw [posFrom, length_map]
  refine (length_filter_le _ _).trans ?_
  simp

end EbitmapNode

end Cupcake.Selinux
