import Cupcake.Selinux.Ebitmap.Sets

/-! `ebitmap_contains`, the iteration over the bits, and the operations that change a
bitmap, on canonical lists of nodes. -/

namespace Cupcake.Selinux

open List EbitmapNode

variable {n n₁ n₂ : EbitmapNode} {ns l₁ l₂ : List EbitmapNode} {lo lo₁ lo₂ b bit last : ℕ}

/-! ## `ebitmap_contains` -/

theorem lastUnit_some {i : Fin ebitmapUnitNums} (h : lastUnit n = some i) :
    n.maps i ≠ 0 ∧ ∀ j, i < j → n.maps j = 0 := by
  obtain ⟨hi, as, bs, hl, has⟩ := List.find?_eq_some_iff_append.mp h
  refine ⟨by simpa using hi, fun j hj => ?_⟩
  have hmem : j ∈ as ++ i :: bs := by
    rw [← hl]
    simp
  have hpw : (as ++ i :: bs).Pairwise (· > ·) := by
    rw [← hl, pairwise_reverse]
    exact pairwise_lt_finRange _
  rcases mem_append.mp hmem with hja | hjb
  · simpa using has j hja
  · rcases List.mem_cons.mp hjb with rfl | hjb
    · exact absurd hj (lt_irrefl _)
    · have := (pairwise_cons.mp (pairwise_append.mp hpw).2.1).1 j hjb
      exact absurd hj (not_lt_of_gt this)

theorem lastUnit_none (h : lastUnit n = none) (i : Fin ebitmapUnitNums) : n.maps i = 0 := by
  have := List.find?_eq_none.mp h i (by simp)
  simpa using this

theorem fls_spec {w : BitVec 64} (h : w ≠ 0) :
    w.getLsbD (fls w) = true ∧ ∀ k, w.getLsbD k = true → k ≤ fls w := by
  have hn : w.toNat ≠ 0 := fun h0 => h (BitVec.eq_of_toNat_eq (by simpa using h0))
  refine ⟨Nat.testBit_log2 hn, fun k hk => ?_⟩
  exact (Nat.le_log2 hn).mpr (Nat.ge_two_pow_of_testBit hk)

theorem lastsetbit_spec {i : Fin ebitmapUnitNums} (h : lastUnit n = some i) :
    n.test (i.val * 64 + fls (n.maps i)) = true ∧
      ∀ k, n.test k = true → k ≤ i.val * 64 + fls (n.maps i) := by
  obtain ⟨hi, hlast⟩ := lastUnit_some h
  obtain ⟨hf, hmax⟩ := fls_spec hi
  have hlt : fls (n.maps i) < 64 := BitVec.lt_of_getLsbD hf
  have hi6 := i.isLt
  constructor
  · have hs : i.val * 64 + fls (n.maps i) < ebitmapSize := by
      simp only [ebitmapSize, ebitmapUnitNums] at *
      omega
    have hd : (i.val * 64 + fls (n.maps i)) / 64 = i.val := by omega
    have hm : (i.val * 64 + fls (n.maps i)) % 64 = fls (n.maps i) := by omega
    rw [test_of_lt hs]
    simp only [hd, hm, Fin.eta, hf]
  · intro k hk
    have hks := lt_of_test hk
    rw [test_of_lt hks] at hk
    have hle : k / 64 ≤ i.val := by
      by_contra hn
      rw [hlast ⟨k / 64, div_lt_unitNums.mpr hks⟩ (by simpa [Fin.lt_def] using hn)] at hk
      simp at hk
    by_cases he : k / 64 = i.val
    · have := hmax (k % 64) (by simpa only [he, Fin.eta] using hk)
      omega
    · omega

theorem and_eq_right_iff (v w : BitVec 64) :
    v &&& w = w ↔ ∀ k, w.getLsbD k = true → v.getLsbD k = true := by
  constructor
  · intro h k hk
    rw [← h, BitVec.getLsbD_and, Bool.and_eq_true] at hk
    exact hk.1
  · intro h
    apply BitVec.eq_of_getLsbD_eq
    intro k _
    rw [BitVec.getLsbD_and]
    cases hw : w.getLsbD k with
    | false => simp
    | true => simp [h k hw]

theorem maps_contains_iff :
    (∀ j, n₁.maps j &&& n₂.maps j = n₂.maps j) ↔
      ∀ k, n₂.test k = true → n₁.test k = true := by
  constructor
  · intro h k hk
    have hlt := lt_of_test hk
    rw [test_of_lt hlt] at hk ⊢
    exact (and_eq_right_iff _ _).mp (h _) _ hk
  · intro h j
    rw [and_eq_right_iff]
    intro k hk
    have hk64 := BitVec.lt_of_getLsbD hk
    have hj := j.isLt
    have hlt : j.val * 64 + k < ebitmapSize := by
      simp only [ebitmapSize, ebitmapUnitNums] at *
      omega
    have := h (j.val * 64 + k)
    rw [test_of_lt hlt, test_of_lt hlt] at this
    have hd : (j.val * 64 + k) / 64 = j.val := by omega
    have hm : (j.val * 64 + k) % 64 = k := by omega
    simp only [hd, hm, Fin.eta] at this
    exact this hk

theorem nodeContains_iff (hs : n₂.startbit + ebitmapSize < 2 ^ 32) :
    nodeContains last n₁ n₂ = true ↔ (∀ k, n₂.test k = true → n₁.test k = true) ∧
      (last = 0 ∨ ∀ k, n₂.test k = true → n₂.startbit + k ≤ last) := by
  rw [nodeContains]
  cases hl : lastUnit n₂ with
  | none =>
    have hno : ∀ k, ¬n₂.test k = true := by
      intro k hk
      rw [test_of_lt (lt_of_test hk), lastUnit_none hl] at hk
      simp at hk
    exact iff_of_true rfl ⟨fun k hk => absurd hk (hno k), .inr fun k hk => absurd hk (hno k)⟩
  | some i =>
    obtain ⟨htop, hmax⟩ := lastsetbit_spec hl
    have hlt := lt_of_test htop
    have hmod : (n₂.startbit + i.val * ebitmapUnitSize + fls (n₂.maps i)) % 2 ^ 32 =
        n₂.startbit + (i.val * 64 + fls (n₂.maps i)) := by
      rw [ebitmapUnitSize, Nat.mod_eq_of_lt (by omega)]
      omega
    -- the words above the last one are zero, so looking at them changes nothing
    have hall : ((List.finRange ebitmapUnitNums).all fun j =>
        decide (i < j ∨ n₁.maps j &&& n₂.maps j = n₂.maps j)) = true ↔
          ∀ j, n₁.maps j &&& n₂.maps j = n₂.maps j := by
      simp only [all_eq_true, mem_finRange, true_implies, decide_eq_true_eq]
      refine forall_congr' fun j => or_iff_right_of_imp fun hij => ?_
      rw [(lastUnit_some hl).2 j hij]
      simp
    simp only [hmod]
    by_cases hc : last ≠ 0 ∧ n₂.startbit + (i.val * 64 + fls (n₂.maps i)) > last
    · rw [if_pos hc]
      refine iff_of_false (by simp) ?_
      rintro ⟨-, h0 | hle⟩
      · exact hc.1 h0
      · exact absurd (hle _ htop) (by omega)
    · rw [if_neg hc, hall, maps_contains_iff]
      refine (and_iff_left ?_).symm
      by_cases h0 : last = 0
      · exact .inl h0
      · refine .inr fun k hk => ?_
        have := hmax k hk
        have : ¬n₂.startbit + (i.val * 64 + fls (n₂.maps i)) > last := fun h => hc ⟨h0, h⟩
        omega

theorem Canonical.forall_mem_cons {P : ℕ → Prop} :
    (∀ b, Mem (n :: ns) b → P b) ↔
      (∀ k, n.test k = true → P (n.startbit + k)) ∧ ∀ b, Mem ns b → P b := by
  constructor
  · intro h
    refine ⟨fun k hk => h _ (mem_cons.mpr (.inl ⟨by omega, by simpa using hk⟩)),
      fun b hb => h b (mem_cons.mpr (.inr hb))⟩
  · rintro ⟨hn, hns⟩ b hb
    rcases mem_cons.mp hb with ⟨hle, ht⟩ | hb
    · have := hn _ ht
      rwa [Nat.add_sub_cancel' hle] at this
    · exact hns b hb

theorem containsLoop_iff (h₁ : Canonical lo₁ l₁) (h₂ : Canonical lo₂ l₂) (last : ℕ) :
    containsLoop last l₁ l₂ = true ↔ (∀ b, Mem l₂ b → Mem l₁ b) ∧
      (last = 0 ∨ ∀ b, Mem l₂ b → b ≤ last) := by
  induction l₁ generalizing l₂ lo₁ lo₂ with
  | nil =>
    cases l₂ with
    | nil => simp [containsLoop, not_mem_nil]
    | cons n₂ l₂ =>
      refine iff_of_false (by simp [containsLoop]) ?_
      rintro ⟨h, -⟩
      obtain ⟨b, hb⟩ := h₂.exists_mem
      exact not_mem_nil (h b hb)
  | cons n₁ l₁ ih =>
    cases l₂ with
    | nil => simp [containsLoop, not_mem_nil]
    | cons n₂ l₂ =>
      rw [containsLoop]
      by_cases hle : n₁.startbit ≤ n₂.startbit
      · rw [if_pos hle]
        by_cases hlt : n₁.startbit < n₂.startbit
        · -- `n₁` holds nothing of the second set
          rw [if_pos hlt, ih h₁.2.2.2.2 h₂]
          refine and_congr_left fun _ => forall_congr' fun b => ?_
          refine imp_congr_right fun hb => (Canonical.mem_cons_of_ge l₁ ?_).symm
          have hn₂ := h₂.startbit_le_of_mem hb
          obtain ⟨q₁, hq₁⟩ := h₁.2.1
          obtain ⟨q₂, hq₂⟩ := h₂.2.1
          rw [hq₁, hq₂] at hlt
          have := Nat.mul_le_mul_left ebitmapSize (Nat.lt_of_mul_lt_mul_left hlt)
          rw [Nat.mul_succ] at this
          omega
        · have hs : n₁.startbit = n₂.startbit := by omega
          rw [if_neg hlt]
          have hmem : (∀ b, Mem (n₂ :: l₂) b → Mem (n₁ :: l₁) b) ↔
              (∀ k, n₂.test k = true → n₁.test k = true) ∧ ∀ b, Mem l₂ b → Mem l₁ b := by
            rw [Canonical.forall_mem_cons]
            refine and_congr (forall_congr' fun k => imp_congr_right fun hk => ?_)
              (forall_congr' fun b => imp_congr_right fun hb => ?_)
            · have := lt_of_test hk
              rw [h₁.mem_cons_of_lt (by omega), hs]
              simp
            · have := h₂.2.2.2.2.le_of_mem hb
              exact Canonical.mem_cons_of_ge l₁ (by omega)
          have hlast : (last = 0 ∨ ∀ b, Mem (n₂ :: l₂) b → b ≤ last) ↔
              (last = 0 ∨ ∀ k, n₂.test k = true → n₂.startbit + k ≤ last) ∧
                (last = 0 ∨ ∀ b, Mem l₂ b → b ≤ last) := by
            rw [Canonical.forall_mem_cons, or_and_left]
          rw [hmem, hlast, and_and_and_comm, ← nodeContains_iff h₂.2.2.2.1]
          by_cases hc : nodeContains last n₁ n₂ = true
          · rw [if_pos hc, ih h₁.2.2.2.2 h₂.2.2.2.2, and_iff_right hc]
          · rw [if_neg hc]
            exact iff_of_false (by simp) fun h => hc h.1
      · rw [if_neg hle]
        refine iff_of_false (by simp) ?_
        rintro ⟨h, -⟩
        exact hle (h₁.startbit_le h₂ h)

/-! ## Iterating -/

def bitList (ns : List EbitmapNode) : List ℕ := ns.flatMap fun n => n.posFrom 0

theorem mem_bitList : b ∈ bitList ns ↔ Mem ns b := by
  simp [bitList, Mem, mem_posFrom]

theorem Ordered.bitList_pairwise {highbit : ℕ} (h : Ordered highbit lo ns) :
    (bitList ns).Pairwise (· < ·) := by
  induction ns generalizing lo with
  | nil => exact List.Pairwise.nil
  | cons n ns ih =>
    rw [bitList, flatMap_cons, pairwise_append]
    refine ⟨posFrom_pairwise n 0, ih h.2.2, fun a ha c hc => ?_⟩
    have hlt := lt_of_test (mem_posFrom.mp ha).2
    have hle := h.2.2.le_of_mem (mem_bitList.mp hc)
    omega

theorem length_bitList_le (ns : List EbitmapNode) :
    (bitList ns).length ≤ ebitmapSize * ns.length := by
  induction ns with
  | nil => simp [bitList]
  | cons n ns ih =>
    have := length_posFrom_le n 0
    simp only [bitList, flatMap_cons, length_append, length_cons,
      Nat.mul_succ] at ih ⊢
    omega

inductive Position (highbit : ℕ) : List ℕ → ℕ × List EbitmapNode → Prop
  | done : Position highbit [] (highbit, [])
  | at (n : EbitmapNode) (ns : List EbitmapNode) (ofs lo : ℕ) (hofs : n.test ofs = true)
      (ho : Ordered highbit lo (n :: ns)) :
      Position highbit ((n.startbit + ofs) :: (n.posFrom (ofs + 1) ++ bitList ns))
        (n.startbit + ofs, n :: ns)

theorem position_firstPositive {highbit : ℕ} (h : Ordered highbit lo ns) (hh : highbit < 2 ^ 32) :
    Position highbit (bitList ns) (firstPositive highbit ns) := by
  induction ns generalizing lo with
  | nil => exact .done
  | cons n ns ih =>
    have hend := h.2.1
    rw [firstPositive, findFirstBit, bitList, flatMap_cons]
    rcases findNextBit_cases n 0 with ⟨hlt, ht, hp⟩ | ⟨hn, hp⟩
    · rw [if_pos hlt, Nat.mod_eq_of_lt (by omega), hp]
      exact .at n ns _ lo ht h
    · rw [if_neg hn, hp]
      exact ih h.2.2

theorem position_next {e : Ebitmap} {rest : List ℕ} {bit : ℕ} {cur : List EbitmapNode}
    (hh : e.highbit < 2 ^ 32) (h : Position e.highbit (b :: rest) (bit, cur)) :
    b = bit ∧ b < e.highbit ∧
      ∃ next, ebitmapNextPositive e bit cur = some next ∧ Position e.highbit rest next := by
  cases h with
  | «at» n ns ofs lo hofs ho =>
    have hofs' := lt_of_test hofs
    have hend := ho.2.1
    refine ⟨rfl, by omega, ?_⟩
    have hsub : wadd 32 (wsub 32 (n.startbit + ofs) n.startbit) 1 = ofs + 1 := by
      rw [wsub_of_le (by omega) (by omega), wadd_of_lt (by omega)]
      omega
    rw [ebitmapNextPositive, hsub]
    rcases findNextBit_cases n (ofs + 1) with ⟨hf, ht, hp⟩ | ⟨hf, hp⟩
    · refine ⟨_, if_pos hf, ?_⟩
      rw [Nat.add_comm _ n.startbit, Nat.mod_eq_of_lt (by omega), hp]
      exact .at n ns _ lo ht ho
    · refine ⟨_, if_neg hf, ?_⟩
      rw [hp, nil_append]
      exact position_firstPositive ho.2.2 hh

theorem positiveBitsFrom_eq {e : Ebitmap} (rest : List ℕ) (fuel : ℕ) (st : ℕ × List EbitmapNode)
    (hh : e.highbit < 2 ^ 32) (h : Position e.highbit rest st) (hf : rest.length < fuel) :
    positiveBitsFrom e fuel st = some rest := by
  induction rest generalizing fuel st with
  | nil =>
    cases h
    obtain ⟨fuel, rfl⟩ : ∃ m, fuel = m + 1 := ⟨fuel - 1, by simp at hf; omega⟩
    simp [positiveBitsFrom]
  | cons b rest ih =>
    obtain ⟨bit, cur⟩ := st
    obtain ⟨fuel, rfl⟩ : ∃ m, fuel = m + 1 := ⟨fuel - 1, by simp at hf; omega⟩
    obtain ⟨rfl, hlt, next, hnext, hpos⟩ := position_next hh h
    have := ih fuel next hpos (by simpa using hf)
    simp [positiveBitsFrom, hlt, hnext, this]

theorem forEachPositiveBit_eq {e : Ebitmap} (h : Ordered e.highbit 0 e.node)
    (hh : e.highbit < 2 ^ 32) : forEachPositiveBit e = some (bitList e.node) := by
  have hlen := length_bitList_le e.node
  exact positiveBitsFrom_eq _ _ _ hh (position_firstPositive h hh) (by omega)

/-! ## `ebitmap_set_bit` -/

def bitLimit : ℕ := 2 ^ 32 - 256

theorem newNode_spec (hb : bit < bitLimit) :
    ∃ n, newNode bit = some n ∧ n.startbit = bit - bit % ebitmapSize ∧
      n.startbit + ebitmapSize < 2 ^ 32 ∧ ∀ k, n.test k = true ↔ k = bit % ebitmapSize := by
  have hs : bit - bit % ebitmapSize + ebitmapSize < 2 ^ 32 := by
    simp only [bitLimit, ebitmapSize] at *
    omega
  have hmod : (bit - bit % ebitmapSize) % 2 ^ 32 = bit - bit % ebitmapSize :=
    Nat.mod_eq_of_lt (by omega)
  have hlt : bit % ebitmapSize < ebitmapSize := Nat.mod_lt _ (by decide)
  have hle : bit % ebitmapSize ≤ bit := Nat.mod_le _ _
  obtain ⟨n, hn, hst, ht⟩ := setBit_spec (n := ⟨fun _ => 0, bit - bit % ebitmapSize⟩)
    (show _ ≤ bit by simp) (by simp only; omega) (by simp only; omega)
  refine ⟨n, by rw [newNode, hmod, hn], hst, by rw [hst]; exact hs, fun k => ?_⟩
  rw [ht k]
  have h0 : test ⟨fun _ => 0, bit - bit % ebitmapSize⟩ k = false := by
    rw [test]
    split_ifs <;> simp
  rw [h0, show bit - (bit - bit % ebitmapSize) = bit % ebitmapSize by omega]
  simp

theorem Canonical.cons_newNode (h : Canonical lo ns) (hlo : ebitmapSize ∣ lo) (hle : lo ≤ bit)
    (hb : bit < bitLimit) (hns : ∀ n ∈ ns.head?, bit < n.startbit) :
    ∃ n, newNode bit = some n ∧ Canonical lo (n :: ns) ∧
      n.startbit + ebitmapSize < 2 ^ 32 ∧ ∀ b, Mem (n :: ns) b ↔ b = bit ∨ Mem ns b := by
  obtain ⟨n, hn, hst, hbig, ht⟩ := newNode_spec hb
  have hdvd : ebitmapSize ∣ n.startbit := by
    rw [hst]
    exact Nat.dvd_sub_mod bit
  have hmod : bit % ebitmapSize ≤ bit := Nat.mod_le _ _
  have hlt : bit % ebitmapSize < ebitmapSize := Nat.mod_lt _ (by decide)
  have hlo' : lo ≤ n.startbit := by
    obtain ⟨q, hq⟩ := hlo
    obtain ⟨r, hr⟩ := hdvd
    rw [hq, hr]
    apply Nat.mul_le_mul_left
    by_contra hqr
    have := Nat.mul_le_mul_left ebitmapSize (Nat.lt_of_not_le hqr)
    rw [Nat.mul_succ] at this
    omega
  refine ⟨n, hn, ⟨hlo', hdvd, ⟨_, (ht _).mpr rfl⟩, hbig, ?_⟩, hbig, fun b => ?_⟩
  · cases ns with
    | nil => trivial
    | cons m ns =>
      have hm := hns m rfl
      refine ⟨?_, h.2⟩
      obtain ⟨q, hq⟩ := h.2.1
      obtain ⟨r, hr⟩ := hdvd
      have : r < q := by
        by_contra hqr
        have := Nat.mul_le_mul_left ebitmapSize (Nat.le_of_not_lt hqr)
        omega
      have := Nat.mul_le_mul_left ebitmapSize this
      rw [Nat.mul_succ] at this
      omega
  · rw [mem_cons, ht]
    refine or_congr_left ?_
    omega

structure SetBitDone (bit : ℕ) (value alloc : Bool) (lo : ℕ) (ns ns' : List EbitmapNode)
    (highbit' : ℕ) (ret : Int) : Prop where
  canonical : Canonical lo ns'
  highbit : highbit' = stop lo ns'
  done : ret = 0 → ∀ b, Mem ns' b ↔ if value then b = bit ∨ Mem ns b else b ≠ bit ∧ Mem ns b
  failed : ret ≠ 0 → ret = enomem ∧ value = true ∧ alloc = false ∧ ns' = ns

section

variable (h : Canonical lo (n :: ns)) (hle : n.startbit ≤ bit)
  (hlt : bit < n.startbit + ebitmapSize)

include h hle hlt

theorem SetBitDone.of_set {alloc : Bool} :
    ∃ n', n.setBit bit = some n' ∧
      SetBitDone bit true alloc lo (n :: ns) (n' :: ns) (stop lo (n :: ns)) 0 := by
  obtain ⟨hlo, hdvd, ⟨k, hk⟩, hbig, hns⟩ := h
  obtain ⟨n', hn', hst, ht⟩ := setBit_spec hle hlt hbig.le
  refine ⟨n', hn', ?_, ?_, fun _ b => ?_, fun h0 => absurd rfl h0⟩
  · exact ⟨hst ▸ hlo, hst ▸ hdvd, ⟨k, (ht k).mpr (.inl hk)⟩, hst ▸ hbig, hst ▸ hns⟩
  · rw [stop, stop, hst]
  · have : n.startbit ≤ b ∧ b - n.startbit = bit - n.startbit ↔ b = bit := by omega
    rw [mem_cons, mem_cons, hst, ht, and_or_left, this, if_pos rfl]
    exact or_right_comm.trans or_comm

theorem SetBitDone.of_clr {alloc : Bool} :
    ∃ n', n.clrBit bit = some n' ∧
      if n'.findFirstBit < ebitmapSize then
        SetBitDone bit false alloc lo (n :: ns) (n' :: ns) (stop lo (n :: ns)) 0
      else
        SetBitDone bit false alloc lo (n :: ns) ns (if ns = [] then lo else stop lo (n :: ns)) 0 := by
  obtain ⟨hlo, hdvd, hne, hbig, hns⟩ := h
  obtain ⟨n', hn', hst, ht⟩ := clrBit_spec hle hlt hbig.le
  have hmem : ∀ b, (n.startbit ≤ b ∧ n'.test (b - n.startbit) = true) ∨ Mem ns b ↔
      b ≠ bit ∧ Mem (n :: ns) b := by
    intro b
    have h₁ : n.startbit ≤ b → (b - n.startbit ≠ bit - n.startbit ↔ b ≠ bit) := by omega
    have h₂ : Mem ns b → b ≠ bit := fun hm hbb => by
      have := hns.le_of_mem hm
      omega
    rw [mem_cons, ht, and_or_left, and_iff_right_of_imp h₂, ← and_assoc,
      and_comm (b := b - n.startbit ≠ bit - n.startbit)]
    exact or_congr_left (and_congr_left fun h => h₁ h.1)
  refine ⟨n', hn', ?_⟩
  split_ifs with hz hnil
  · refine ⟨?_, ?_, fun _ b => ?_, fun h0 => absurd rfl h0⟩
    · exact ⟨hst ▸ hlo, hst ▸ hdvd, (findFirstBit_lt_iff n').mp hz, hst ▸ hbig, hst ▸ hns⟩
    · rw [stop, stop, hst]
    · rw [mem_cons, hst]
      exact hmem b
  -- the node is empty now and dropped
  · subst hnil
    refine ⟨trivial, rfl, fun _ b => ?_, fun h0 => absurd rfl h0⟩
    have hzero : ¬n'.test (b - n.startbit) = true := fun hk =>
      hz ((findFirstBit_lt_iff n').mpr ⟨_, hk⟩)
    have := hmem b
    rw [if_neg (by decide), ← this]
    exact (or_iff_right fun h => hzero h.2).symm
  · refine ⟨hns.mono (by omega), ?_, fun _ b => ?_, fun h0 => absurd rfl h0⟩
    · cases ns with
      | nil => exact absurd rfl hnil
      | cons m ns => rfl
    · have hzero : ¬n'.test (b - n.startbit) = true := fun hk =>
        hz ((findFirstBit_lt_iff n').mpr ⟨_, hk⟩)
      have := hmem b
      rw [if_neg (by decide), ← this]
      exact (or_iff_right fun h => hzero h.2).symm

end

theorem SetBitDone.cons {value alloc : Bool} {ns' : List EbitmapNode} {highbit' : ℕ} {ret : Int}
    (h : Canonical lo (n :: ns)) (hge : n.startbit + ebitmapSize ≤ bit)
    (hd : SetBitDone bit value alloc (n.startbit + ebitmapSize) ns ns' highbit' ret) :
    SetBitDone bit value alloc lo (n :: ns) (n :: ns') highbit' ret := by
  obtain ⟨hlo, hdvd, hne, hbig, -⟩ := h
  refine ⟨⟨hlo, hdvd, hne, hbig, hd.canonical⟩, hd.highbit, fun h0 b => ?_, fun h0 => ?_⟩
  · have hno : n.startbit ≤ b ∧ n.test (b - n.startbit) = true → b ≠ bit := by
      rintro ⟨-, hk⟩ rfl
      have := lt_of_test hk
      omega
    rw [mem_cons, mem_cons, hd.done h0 b]
    cases value with
    | true =>
      rw [if_pos rfl, if_pos rfl]
      exact or_left_comm
    | false =>
      rw [if_neg (by decide), if_neg (by decide), and_or_left, and_iff_right_of_imp hno]
  · obtain ⟨h₁, h₂, h₃, h₄⟩ := hd.failed h0
    exact ⟨h₁, h₂, h₃, by rw [h₄]⟩

theorem SetBitDone.of_absent {alloc : Bool} (h : Canonical lo ns) (hno : ¬Mem ns bit) :
    SetBitDone bit false alloc lo ns ns (stop lo ns) 0 := by
  refine ⟨h, rfl, fun _ b => ?_, fun h0 => absurd rfl h0⟩
  have : Mem ns b → b ≠ bit := fun hm hbb => hno (hbb ▸ hm)
  rw [if_neg (by decide)]
  exact (and_iff_right_of_imp this).symm

theorem SetBitDone.of_enomem (h : Canonical lo ns) :
    SetBitDone bit true false lo ns ns (stop lo ns) enomem :=
  ⟨h, rfl, fun h0 => absurd h0 (by decide), fun _ => ⟨rfl, rfl, rfl, rfl⟩⟩

theorem setBitLoop_spec (value alloc : Bool) (h : Canonical lo ns) (hdvd : ebitmapSize ∣ lo)
    (hlo : lo ≤ bit) (hb : value = true → bit < bitLimit) (prev : Option EbitmapNode)
    (hprev : prevEnd prev = lo) :
    ∃ ns' highbit' ret, setBitLoop bit value alloc (stop lo ns) prev ns = some (ns', highbit', ret) ∧
      SetBitDone bit value alloc lo ns ns' highbit' ret := by
  induction ns generalizing lo prev with
  | nil =>
    rw [setBitLoop]
    cases value with
    | false => exact ⟨_, _, _, rfl, .of_absent h not_mem_nil⟩
    | true =>
      cases alloc with
      | false => exact ⟨_, _, _, rfl, .of_enomem h⟩
      | true =>
        obtain ⟨n, hn, hc, hbig, hm⟩ := h.cons_newNode hdvd hlo (hb rfl) (by simp)
        refine ⟨[n], n.startbit + ebitmapSize, 0, ?_, hc, rfl, fun _ b => ?_,
          fun h0 => absurd rfl h0⟩
        · rw [if_pos rfl, if_pos rfl, hn, ← Nat.mod_eq_of_lt hbig]
          rfl
        · rw [hm b, if_pos rfl]
  | cons n ns ih =>
    rw [setBitLoop]
    by_cases hle : n.startbit ≤ bit
    · rw [if_pos hle]
      by_cases hlt : bit < n.startbit + ebitmapSize
      · rw [if_pos hlt]
        cases value with
        | true =>
          obtain ⟨n', hn', hd⟩ := SetBitDone.of_set h hle hlt
          exact ⟨_, _, _, by rw [if_pos rfl, hn']; rfl, hd⟩
        | false =>
          obtain ⟨n', hn', hd⟩ := SetBitDone.of_clr h hle hlt
          rw [if_neg (by decide), hn', hprev, Option.bind_eq_bind, Option.bind_some]
          split_ifs at hd ⊢ with hz
          · exact ⟨_, _, _, rfl, hd⟩
          · exact ⟨_, _, _, rfl, hd⟩
          · exact ⟨_, _, _, rfl, hd⟩
      · rw [if_neg hlt]
        have hend : prevEnd (some n) = n.startbit + ebitmapSize := Nat.mod_eq_of_lt h.2.2.2.1
        obtain ⟨ns', highbit', ret, hloop, hd⟩ := ih h.2.2.2.2
          (Nat.dvd_add h.2.1 (dvd_refl _)) (by omega) (some n) hend
        refine ⟨n :: ns', highbit', ret, ?_, hd.cons h (by omega)⟩
        rw [stop, hloop]
        rfl
    · rw [if_neg hle]
      cases value with
      | false => exact ⟨_, _, _, rfl, .of_absent h (h.not_mem_of_lt (by omega))⟩
      | true =>
        cases alloc with
        | false => exact ⟨_, _, _, rfl, .of_enomem h⟩
        | true =>
          obtain ⟨m, hm, hc, -, hmem⟩ := h.cons_newNode hdvd hlo (hb rfl) (by simpa using hle)
          refine ⟨m :: n :: ns, stop lo (n :: ns), 0, ?_, hc, rfl, fun _ b => ?_,
            fun h0 => absurd rfl h0⟩
          · rw [if_pos rfl, if_pos rfl, hm]
            rfl
          · rw [hmem b, if_pos rfl]

theorem cpyLoop_eq (allocs : ℕ) (ns : List EbitmapNode) :
    cpyLoop allocs ns = if ns.length ≤ allocs then some ns else none := by
  induction ns generalizing allocs with
  | nil => simp [cpyLoop]
  | cons n ns ih =>
    cases allocs with
    | zero => simp [cpyLoop]
    | succ allocs =>
      rw [cpyLoop, ih, length_cons]
      by_cases h : ns.length ≤ allocs
      · simp [h]
      · simp [h]

theorem ebitmapCpy_eq (src : Ebitmap) (allocs : ℕ) :
    ebitmapCpy src allocs =
      if src.node.length ≤ allocs then (src, 0) else (ebitmapInit, enomem) := by
  rw [ebitmapCpy, cpyLoop_eq]
  split_ifs <;> rfl

end Cupcake.Selinux
