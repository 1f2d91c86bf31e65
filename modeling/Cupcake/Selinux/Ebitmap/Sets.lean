import Cupcake.Selinux.Ebitmap.Nodes

/-! Bitmaps in canonical form and the sets they stand for. -/

namespace Cupcake.Selinux

open EbitmapNode

def Mem (ns : List EbitmapNode) (b : ℕ) : Prop :=
  ∃ n ∈ ns, n.startbit ≤ b ∧ n.test (b - n.startbit) = true

def Canonical : ℕ → List EbitmapNode → Prop
  | _, [] => True
  | lo, n :: ns => lo ≤ n.startbit ∧ ebitmapSize ∣ n.startbit ∧ (∃ k, n.test k = true) ∧
      n.startbit + ebitmapSize < 2 ^ 32 ∧ Canonical (n.startbit + ebitmapSize) ns

def stop : ℕ → List EbitmapNode → ℕ
  | lo, [] => lo
  | _, n :: ns => stop (n.startbit + ebitmapSize) ns

variable {n n₁ n₂ : EbitmapNode} {ns l₁ l₂ : List EbitmapNode} {lo lo₁ lo₂ b bit : ℕ}

theorem not_mem_nil : ¬Mem [] b := by simp [Mem]

theorem mem_cons :
    Mem (n :: ns) b ↔ (n.startbit ≤ b ∧ n.test (b - n.startbit) = true) ∨ Mem ns b := by
  simp [Mem]

namespace Canonical

section

variable (h : Canonical lo ns)

include h

theorem mono (hlo : lo₁ ≤ lo) : Canonical lo₁ ns := by
  cases ns with
  | nil => trivial
  | cons n ns => exact ⟨hlo.trans h.1, h.2⟩

theorem le_of_mem (hb : Mem ns b) : lo ≤ b := by
  induction ns generalizing lo with
  | nil => exact absurd hb not_mem_nil
  | cons n ns ih =>
    obtain ⟨hlo, -, -, -, hns⟩ := h
    rcases mem_cons.mp hb with ⟨hn, -⟩ | hb
    · exact hlo.trans hn
    · have := ih hns hb
      omega

theorem le_stop : lo ≤ stop lo ns := by
  induction ns generalizing lo with
  | nil => exact le_rfl
  | cons n ns ih =>
    obtain ⟨hlo, -, -, -, hns⟩ := h
    have := ih hns
    simp only [stop]
    omega

theorem stop_lt (hlo : lo < 2 ^ 32) : stop lo ns < 2 ^ 32 := by
  induction ns generalizing lo with
  | nil => exact hlo
  | cons n ns ih => exact ih h.2.2.2.2 h.2.2.2.1

theorem lt_stop_of_mem (hb : Mem ns b) : b < stop lo ns := by
  induction ns generalizing lo with
  | nil => exact absurd hb not_mem_nil
  | cons n ns ih =>
    obtain ⟨-, -, -, -, hns⟩ := h
    rcases mem_cons.mp hb with ⟨hn, ht⟩ | hb
    · have := lt_of_test ht
      have := hns.le_stop
      simp only [stop]
      omega
    · exact ih hns hb

end

theorem mem_cons_of_lt (h : Canonical lo (n :: ns)) (hb : b < n.startbit + ebitmapSize) :
    Mem (n :: ns) b ↔ n.startbit ≤ b ∧ n.test (b - n.startbit) = true := by
  rw [mem_cons]
  refine or_iff_left fun hm => ?_
  have := h.2.2.2.2.le_of_mem hm
  omega

theorem mem_cons_of_ge (ns : List EbitmapNode) (hb : n.startbit + ebitmapSize ≤ b) :
    Mem (n :: ns) b ↔ Mem ns b := by
  rw [mem_cons]
  refine or_iff_right fun ⟨_, ht⟩ => ?_
  have := lt_of_test ht
  omega

section

variable (h : Canonical lo (n :: ns))

include h

theorem exists_mem : ∃ b, Mem (n :: ns) b := by
  obtain ⟨k, hk⟩ := h.2.2.1
  exact ⟨n.startbit + k, mem_cons.mpr (.inl ⟨by omega, by simpa using hk⟩)⟩

theorem startbit_le_of_mem (hb : Mem (n :: ns) b) : n.startbit ≤ b := by
  have h' : Canonical n.startbit (n :: ns) := ⟨le_rfl, h.2⟩
  exact h'.le_of_mem hb

theorem not_mem_of_lt (hb : b < n.startbit) : ¬Mem (n :: ns) b :=
  fun hm => absurd (h.startbit_le_of_mem hm) (by omega)

end

end Canonical

/-! ## The form of a bitmap -/

theorem stop_eq_getLast? (lo : ℕ) (ns : List EbitmapNode) :
    stop lo ns = (ns.getLast?.map (·.startbit + ebitmapSize)).getD lo := by
  induction ns generalizing lo with
  | nil => rfl
  | cons n ns ih =>
    rw [stop, ih]
    cases ns with
    | nil => rfl
    | cons m ns => simp [List.getLast?_cons]

theorem Canonical.startbit_ge (h : Canonical lo ns) (hn : n ∈ ns) : lo ≤ n.startbit := by
  induction ns generalizing lo with
  | nil => cases hn
  | cons m ns ih =>
    rcases List.mem_cons.mp hn with rfl | hn
    · exact h.1
    · have := ih h.2.2.2.2 hn
      have := h.1
      omega

theorem Canonical.pairwise (h : Canonical lo ns) :
    ns.Pairwise (fun a b => a.startbit < b.startbit) := by
  induction ns generalizing lo with
  | nil => exact List.Pairwise.nil
  | cons n ns ih =>
    refine List.pairwise_cons.mpr ⟨fun m hm => ?_, ih h.2.2.2.2⟩
    have := h.2.2.2.2.startbit_ge hm
    simp only [ebitmapSize] at this
    omega

theorem Canonical.forall_node (h : Canonical lo ns) :
    ∀ n ∈ ns, ebitmapSize ∣ n.startbit ∧ ∃ i, n.maps i ≠ 0 := by
  induction ns generalizing lo with
  | nil => simp
  | cons m ns ih =>
    intro n hn
    rcases List.mem_cons.mp hn with rfl | hn
    · obtain ⟨-, hdvd, ⟨k, hk⟩, -⟩ := h
      refine ⟨hdvd, ⟨k / 64, div_lt_unitNums.mpr (lt_of_test hk)⟩, fun h0 => ?_⟩
      rw [test_of_lt (lt_of_test hk), h0] at hk
      simp at hk
    · exact ih h.2.2.2.2 n hn

theorem Canonical.exists_mem_last (h : Canonical lo (n :: ns)) :
    ∃ b, Mem (n :: ns) b ∧ stop lo (n :: ns) ≤ b + ebitmapSize := by
  induction ns generalizing lo n with
  | nil =>
    obtain ⟨b, hb⟩ := h.exists_mem
    have := h.startbit_le_of_mem hb
    exact ⟨b, hb, by simp only [stop]; omega⟩
  | cons m ns ih =>
    obtain ⟨b, hb, hle⟩ := ih h.2.2.2.2
    exact ⟨b, mem_cons.mpr (.inr hb), hle⟩

theorem Canonical.dvd_stop (h : Canonical lo ns) (hlo : ebitmapSize ∣ lo) :
    ebitmapSize ∣ stop lo ns := by
  induction ns generalizing lo with
  | nil => exact hlo
  | cons n ns ih => exact ih h.2.2.2.2 (Nat.dvd_add h.2.1 (dvd_refl _))

theorem Canonical.stop_le_of_subset (h₁ : Canonical 0 l₁) (h₂ : Canonical 0 l₂)
    (h : ∀ b, Mem l₁ b → Mem l₂ b) : stop 0 l₁ ≤ stop 0 l₂ := by
  cases l₁ with
  | nil => exact Nat.zero_le _
  | cons n l₁ =>
    obtain ⟨b, hb, hle⟩ := h₁.exists_mem_last
    have hlt := h₂.lt_stop_of_mem (h b hb)
    obtain ⟨q₁, hq₁⟩ := h₁.dvd_stop (Nat.dvd_zero _)
    obtain ⟨q₂, hq₂⟩ := h₂.dvd_stop (Nat.dvd_zero _)
    rw [hq₁] at hle ⊢
    rw [hq₂] at hlt ⊢
    apply Nat.mul_le_mul_left
    by_contra hn
    have := Nat.mul_le_mul_left ebitmapSize (Nat.lt_of_not_le hn)
    rw [Nat.mul_succ] at this
    omega

/-! ## `ebitmap_get_bit` and `ebitmap_cmp` -/

/-- Nodes from `lo` on that are in order and end by `highbit`. A bitmap that was read from a
policy has this form; its nodes may be empty. -/
def Ordered (highbit : ℕ) : ℕ → List EbitmapNode → Prop
  | _, [] => True
  | lo, n :: ns => lo ≤ n.startbit ∧ n.startbit + ebitmapSize ≤ highbit ∧
      Ordered highbit (n.startbit + ebitmapSize) ns

/-- A bitmap as it is read from a policy. -/
def Ebitmap.Readable (e : Ebitmap) : Prop := e.highbit < 2 ^ 32 ∧ Ordered e.highbit 0 e.node

theorem Canonical.ordered {highbit : ℕ} (h : Canonical lo ns) (hs : stop lo ns ≤ highbit) :
    Ordered highbit lo ns := by
  induction ns generalizing lo with
  | nil => trivial
  | cons n ns ih => exact ⟨h.1, h.2.2.2.2.le_stop.trans hs, ih h.2.2.2.2 hs⟩

section

variable {highbit : ℕ} (h : Ordered highbit lo ns)

include h

theorem Ordered.le_of_mem (hb : Mem ns b) : lo ≤ b := by
  induction ns generalizing lo with
  | nil => exact absurd hb not_mem_nil
  | cons n ns ih =>
    rcases mem_cons.mp hb with ⟨hn, -⟩ | hb
    · exact h.1.trans hn
    · exact h.1.trans ((Nat.le_add_right _ _).trans (ih h.2.2 hb))

theorem Ordered.end_le (hn : n ∈ ns) : lo ≤ n.startbit ∧ n.startbit + ebitmapSize ≤ highbit := by
  induction ns generalizing lo with
  | nil => cases hn
  | cons m ns ih =>
    rcases List.mem_cons.mp hn with rfl | hn
    · exact ⟨h.1, h.2.1⟩
    · have := ih h.2.2 hn
      have := h.1
      omega

theorem Ordered.lt_of_mem (hb : Mem ns b) : b < highbit := by
  obtain ⟨n, hn, hle, ht⟩ := hb
  have := (h.end_le hn).2
  have := lt_of_test ht
  omega

theorem getBitLoop_eq (hh : highbit < 2 ^ 32) (bit : ℕ) :
    ∃ v, getBitLoop bit ns = some v ∧ (v = true ↔ Mem ns bit) := by
  induction ns generalizing lo with
  | nil => exact ⟨false, rfl, by simp [not_mem_nil]⟩
  | cons n ns ih =>
    obtain ⟨-, hend, hns⟩ := h
    rw [getBitLoop]
    by_cases hle : n.startbit ≤ bit
    · rw [if_pos hle]
      by_cases hlt : bit < n.startbit + ebitmapSize
      · have hrest : ¬Mem ns bit := fun hm => absurd (hns.le_of_mem hm) (by omega)
        rw [if_pos hlt, getBit_eq hle hlt (by omega)]
        refine ⟨_, rfl, ?_⟩
        rw [mem_cons]
        simp [hle, hrest]
      · obtain ⟨v, hv, hm⟩ := ih hns
        rw [if_neg hlt]
        exact ⟨v, hv, hm.trans (Canonical.mem_cons_of_ge ns (by omega)).symm⟩
    · rw [if_neg hle]
      refine ⟨false, rfl, ?_⟩
      have h' : Ordered highbit n.startbit (n :: ns) := ⟨le_rfl, hend, hns⟩
      have hno : ¬Mem (n :: ns) bit := fun hm => hle (h'.le_of_mem hm)
      simp [hno]

end

theorem cmpLoop_eq (l₁ l₂ : List EbitmapNode) : cmpLoop l₁ l₂ = true ↔ l₁ = l₂ := by
  induction l₁ generalizing l₂ with
  | nil => cases l₂ <;> simp [cmpLoop]
  | cons n₁ l₁ ih =>
    cases l₂ with
    | nil => simp [cmpLoop]
    | cons n₂ l₂ =>
      obtain ⟨m₁, s₁⟩ := n₁
      obtain ⟨m₂, s₂⟩ := n₂
      rw [cmpLoop]
      by_cases h : s₁ = s₂ ∧ m₁ = m₂
      · rw [if_pos h, ih]
        simp [h.1, h.2]
      · rw [if_neg h]
        have : ¬(m₁ = m₂ ∧ s₁ = s₂) := fun h' => h h'.symm
        simp [this]

theorem Canonical.startbit_le (h₁ : Canonical lo₁ (n₁ :: l₁)) (h₂ : Canonical lo₂ (n₂ :: l₂))
    (h : ∀ b, Mem (n₂ :: l₂) b → Mem (n₁ :: l₁) b) : n₁.startbit ≤ n₂.startbit := by
  obtain ⟨-, ⟨q₂, hq₂⟩, ⟨k, hk⟩, -⟩ := h₂
  obtain ⟨q₁, hq₁⟩ := h₁.2.1
  have hlt := lt_of_test hk
  have hm : Mem (n₂ :: l₂) (n₂.startbit + k) := mem_cons.mpr (.inl ⟨by omega, by simpa using hk⟩)
  have hle : n₁.startbit ≤ n₂.startbit + k := by
    by_contra hn
    exact h₁.not_mem_of_lt (by omega) (h _ hm)
  -- both start at multiples of the size of a node
  rw [hq₁, hq₂] at hle ⊢
  have : q₁ ≤ q₂ := by
    by_contra hq
    have := Nat.mul_le_mul_left ebitmapSize (Nat.lt_of_not_le hq)
    rw [Nat.mul_succ] at this
    omega
  exact Nat.mul_le_mul_left _ this

theorem Canonical.eq_of_mem_iff (h₁ : Canonical lo₁ l₁) (h₂ : Canonical lo₂ l₂)
    (h : ∀ b, Mem l₁ b ↔ Mem l₂ b) : l₁ = l₂ := by
  induction l₁ generalizing l₂ lo₁ lo₂ with
  | nil =>
    cases l₂ with
    | nil => rfl
    | cons n₂ l₂ =>
      obtain ⟨b, hb⟩ := h₂.exists_mem
      exact absurd ((h b).mpr hb) not_mem_nil
  | cons n₁ l₁ ih =>
    cases l₂ with
    | nil =>
      obtain ⟨b, hb⟩ := h₁.exists_mem
      exact absurd ((h b).mp hb) not_mem_nil
    | cons n₂ l₂ =>
      have hs : n₁.startbit = n₂.startbit :=
        le_antisymm (h₁.startbit_le h₂ fun b => (h b).mpr) (h₂.startbit_le h₁ fun b => (h b).mp)
      have hn : n₁ = n₂ := by
        refine ext_of_test hs fun k => ?_
        by_cases hk : k < ebitmapSize
        · have := h (n₁.startbit + k)
          rw [h₁.mem_cons_of_lt (by omega), h₂.mem_cons_of_lt (by omega)] at this
          rw [hs] at this
          simpa using this
        · exact iff_of_false (fun ht => hk (lt_of_test ht)) fun ht => hk (lt_of_test ht)
      subst hn
      rw [ih h₁.2.2.2.2 h₂.2.2.2.2 fun b => ?_]
      by_cases hb : b < n₁.startbit + ebitmapSize
      · exact iff_of_false (fun hm => absurd (h₁.2.2.2.2.le_of_mem hm) (by omega))
          fun hm => absurd (h₂.2.2.2.2.le_of_mem hm) (by omega)
      · rw [← Canonical.mem_cons_of_ge (n := n₁) l₁ (by omega),
          ← Canonical.mem_cons_of_ge (n := n₁) l₂ (by omega)]
        exact h b

end Cupcake.Selinux
