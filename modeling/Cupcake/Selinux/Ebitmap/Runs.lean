import Cupcake.Lib.Run
import Cupcake.Selinux.Ebitmap.Ops
import Cupcake.Selinux.Mls

/-! Runs of `ebitmap_set_bit` and `ebitmap_cpy` on any number of bitmaps, beside the finite
sets they stand for. -/

namespace Cupcake.Selinux

open Function

structure Represents (e : Ebitmap) (s : Finset ℕ) : Prop where
  canonical : Canonical 0 e.node
  highbit : e.highbit = stop 0 e.node
  mem : ∀ b, b ∈ s ↔ Mem e.node b

namespace Represents

variable {e e₁ e₂ : Ebitmap} {s s₁ s₂ : Finset ℕ} {b last : ℕ}

theorem init : Represents ebitmapInit ∅ :=
  ⟨trivial, rfl, fun b => by simp [ebitmapInit, not_mem_nil]⟩

section

variable (h : Represents e s)

include h

theorem lt_highbit (hb : b ∈ s) : b < e.highbit := by
  rw [h.highbit]
  exact h.canonical.lt_stop_of_mem ((h.mem b).mp hb)

theorem ordered : Ordered e.highbit 0 e.node :=
  h.canonical.ordered h.highbit.ge

theorem highbit_lt : e.highbit < 2 ^ 32 := by
  rw [h.highbit]
  exact h.canonical.stop_lt (by decide)

theorem getBit (bit : ℕ) : ebitmapGetBit e bit = some (decide (bit ∈ s)) := by
  rw [ebitmapGetBit]
  by_cases hb : e.highbit < bit
  · have : bit ∉ s := fun hm => absurd (h.lt_highbit hm) (by omega)
    rw [if_pos hb]
    simp [this]
  · obtain ⟨v, hv, hm⟩ := getBitLoop_eq h.ordered h.highbit_lt bit
    rw [if_neg hb, hv, Option.some_inj, Bool.eq_iff_iff, hm, decide_eq_true_eq, h.mem]

theorem forEach :
    ∃ l, forEachPositiveBit e = some l ∧ l.Pairwise (· < ·) ∧ ∀ b, b ∈ l ↔ b ∈ s := by
  refine ⟨bitList e.node, forEachPositiveBit_eq h.ordered h.highbit_lt,
    h.ordered.bitList_pairwise, fun b => ?_⟩
  rw [mem_bitList, h.mem]

end

theorem cmp (h₁ : Represents e₁ s₁) (h₂ : Represents e₂ s₂) :
    ebitmapCmp e₁ e₂ = true ↔ s₁ = s₂ := by
  rw [ebitmapCmp]
  constructor
  · intro h
    split_ifs at h with hh
    have hn := (cmpLoop_eq _ _).mp h
    ext b
    rw [h₁.mem, h₂.mem, hn]
  · rintro rfl
    have hn : e₁.node = e₂.node := h₁.canonical.eq_of_mem_iff h₂.canonical fun b => by
      rw [← h₁.mem, ← h₂.mem]
    have hh : e₁.highbit = e₂.highbit := by rw [h₁.highbit, h₂.highbit, hn]
    rw [if_neg (not_not.mpr hh), cmpLoop_eq]
    exact hn

theorem contains (h₁ : Represents e₁ s₁) (h₂ : Represents e₂ s₂) :
    ebitmapContains e₁ e₂ last = true ↔ s₂ ⊆ s₁ ∧ (last = 0 ∨ ∀ b ∈ s₂, b ≤ last) := by
  have hloop := containsLoop_iff h₁.canonical h₂.canonical last
  simp only [← h₁.mem, ← h₂.mem] at hloop
  rw [ebitmapContains]
  by_cases hh : e₁.highbit < e₂.highbit
  · -- the last node of the second bitmap lies behind the first bitmap
    rw [if_pos hh]
    refine iff_of_false (by simp) ?_
    rintro ⟨hsub, -⟩
    have hle : stop 0 e₂.node ≤ stop 0 e₁.node :=
      h₂.canonical.stop_le_of_subset h₁.canonical fun b hb =>
        (h₁.mem b).mp (hsub ((h₂.mem b).mpr hb))
    rw [h₁.highbit, h₂.highbit] at hh
    omega
  · rw [if_neg hh]
    exact hloop

theorem form (h : Represents e s) :
    e.node.Pairwise (fun a b => a.startbit < b.startbit) ∧
      (∀ n ∈ e.node, ebitmapSize ∣ n.startbit ∧ ∃ i, n.maps i ≠ 0) ∧
      e.highbit = (e.node.getLast?.map (·.startbit + ebitmapSize)).getD 0 :=
  ⟨h.canonical.pairwise, h.canonical.forall_node, h.highbit.trans (stop_eq_getLast? _ _)⟩

end Represents

/-! ## Runs -/

abbrev Store := ℕ → Ebitmap

abbrev Sets := ℕ → Finset ℕ

inductive EbitmapOp
  | setBit (v bit : ℕ) (value alloc : Bool)
  | cpy (dst src allocs : ℕ)

namespace EbitmapOp

def exec (σ : Store) : EbitmapOp → Option (Store × Int)
  | .setBit v bit value alloc => do
    let (e, ret) ← ebitmapSetBit (σ v) bit value alloc
    return (Function.update σ v e, ret)
  | .cpy dst src allocs =>
    -- `dst` is cleared before `src` is looked at
    let σ := Function.update σ dst ebitmapInit
    let (e, ret) := ebitmapCpy (σ src) allocs
    some (Function.update σ dst e, ret)

def execSets (α : Sets) (ret : Int) : EbitmapOp → Sets
  | .setBit v bit value _ =>
    if ret = 0 then
      Function.update α v (if value then insert bit (α v) else (α v).erase bit)
    else α
  | .cpy dst src _ =>
    let α := Function.update α dst ∅
    if ret = 0 then Function.update α dst (α src) else α

def step (st : Store × Sets) (op : EbitmapOp) : Option (Store × Sets) := do
  let (σ, ret) ← op.exec st.1
  return (σ, op.execSets st.2 ret)

/-- A bit is set only where its node ends below `2 ^ 32`. -/
def InRange : EbitmapOp → Prop
  | .setBit _ bit value _ => value = true → bit < bitLimit
  | .cpy .. => True

instance : DecidablePred InRange := fun op =>
  match op with
  | .setBit _ bit value _ => inferInstanceAs (Decidable (value = true → bit < bitLimit))
  | .cpy .. => inferInstanceAs (Decidable True)

/-- Some allocation of the operation fails. -/
def AllocFails (σ : Store) : EbitmapOp → Prop
  | .setBit _ _ _ alloc => alloc = false
  | .cpy dst src allocs => allocs < (Function.update σ dst ebitmapInit src).node.length

end EbitmapOp

def initStore : Store × Sets := (fun _ => ebitmapInit, fun _ => ∅)

open EbitmapOp

theorem represents_update {σ : Store} {α : Sets} (h : ∀ v, Represents (σ v) (α v)) {e : Ebitmap}
    {s : Finset ℕ} (he : Represents e s) (v u : ℕ) :
    Represents (update σ v e u) (update α v s u) := by
  by_cases hu : u = v
  · subst hu
    rw [update_self, update_self]
    exact he
  · rw [update_of_ne hu, update_of_ne hu]
    exact h u

theorem ebitmapSetBit_represents {e : Ebitmap} {s : Finset ℕ} (h : Represents e s) {bit : ℕ}
    {value : Bool} (alloc : Bool) (hb : value = true → bit < bitLimit) :
    ∃ e' ret, ebitmapSetBit e bit value alloc = some (e', ret) ∧
      (ret = 0 ∨ ret = enomem ∧ alloc = false) ∧
      Represents e' (if ret = 0 then (if value then insert bit s else s.erase bit) else s) := by
  obtain ⟨ns', highbit', ret, hloop, hd⟩ := setBitLoop_spec value alloc h.canonical
    (Nat.dvd_zero _) (Nat.zero_le bit) hb none rfl
  rw [← h.highbit] at hloop
  refine ⟨⟨ns', highbit'⟩, ret, by simp [ebitmapSetBit, hloop], ?_, hd.canonical, hd.highbit,
    fun b => ?_⟩
  · by_cases h0 : ret = 0
    · exact .inl h0
    · exact .inr ⟨(hd.failed h0).1, (hd.failed h0).2.2.1⟩
  · by_cases h0 : ret = 0
    · rw [if_pos h0, hd.done h0 b]
      cases value <;> simp [h.mem]
    · rw [if_neg h0, h.mem, (hd.failed h0).2.2.2]

theorem exec_represents {σ : Store} {α : Sets} (h : ∀ v, Represents (σ v) (α v)) {op : EbitmapOp}
    (hop : op.InRange) :
    ∃ σ' ret, op.exec σ = some (σ', ret) ∧ (ret = 0 ∨ ret = enomem ∧ op.AllocFails σ) ∧
      ∀ v, Represents (σ' v) (op.execSets α ret v) := by
  cases op with
  | setBit v bit value alloc =>
    obtain ⟨e', ret, hset, hret, hrep⟩ := ebitmapSetBit_represents (h v) alloc hop
    refine ⟨update σ v e', ret, by simp [EbitmapOp.exec, hset], hret, fun u => ?_⟩
    have hu := represents_update h hrep v u
    rw [execSets]
    split_ifs at hu ⊢ with h0
    · exact hu
    · exact hu
    · rwa [update_eq_self] at hu
  | cpy dst src allocs =>
    have hinit : ∀ v, Represents (update σ dst ebitmapInit v) (update α dst ∅ v) :=
      represents_update h Represents.init dst
    have hcpy := ebitmapCpy_eq (update σ dst ebitmapInit src) allocs
    by_cases hl : (update σ dst ebitmapInit src).node.length ≤ allocs
    · rw [if_pos hl] at hcpy
      refine ⟨update (update σ dst ebitmapInit) dst
        (update σ dst ebitmapInit src), 0, ?_, .inl rfl, fun v => ?_⟩
      · simp only [EbitmapOp.exec, hcpy]
      · rw [execSets, if_pos rfl]
        exact represents_update hinit (hinit src) dst v
    · rw [if_neg hl] at hcpy
      refine ⟨update σ dst ebitmapInit, enomem, ?_,
        .inr ⟨rfl, Nat.lt_of_not_le hl⟩, fun v => ?_⟩
      · simp only [EbitmapOp.exec, hcpy, update_idem]
      · rw [execSets, if_neg (by decide)]
        exact hinit v

theorem represents_of_reach {st : Store × Sets}
    (h : Reach EbitmapOp.step (fun _ op => op.InRange) initStore st) (v : ℕ) :
    Represents (st.1 v) (st.2 v) := by
  have hinv : ∀ v, Represents (st.1 v) (st.2 v) := by
    apply Reach.invariant (P := fun st => ∀ v, Represents (st.1 v) (st.2 v)) _ _ h
    · intro _
      exact Represents.init
    · rintro ⟨σ, α⟩ s' op hI hop hs
      obtain ⟨σ', ret, hexec, -, hrep⟩ := exec_represents hI hop
      have : s' = (σ', op.execSets α ret) := by
        simpa [EbitmapOp.step, hexec] using hs.symm
      rw [this]
      exact hrep
  exact hinv v

/-- A level whose categories are one of the bitmaps. -/
def IsLevel (σ : Store) (l : MlsLevel) : Prop := ∃ v, l.cat = σ v

theorem mlsLevelDom_iff {σ : Store} {α : Sets} (h : ∀ v, Represents (σ v) (α v)) {v w s t : ℕ} :
    mlsLevelDom ⟨s, σ v⟩ ⟨t, σ w⟩ = true ↔ t ≤ s ∧ α w ⊆ α v := by
  rw [mlsLevelDom, Bool.and_eq_true, decide_eq_true_eq, (h v).contains (h w)]
  simp

/-- In every run that sets bits below `2 ^ 32 - 256` only, the bitmaps refine finite sets. -/
theorem ebitmaps_of_reach {σ : Store} {α : Sets}
    (h : Reach EbitmapOp.step (fun _ op => op.InRange) initStore (σ, α)) :
    (∀ v, (σ v).node.Pairwise (fun a b => a.startbit < b.startbit) ∧
      (∀ n ∈ (σ v).node, ebitmapSize ∣ n.startbit ∧ ∃ i, n.maps i ≠ 0) ∧
      (σ v).highbit = ((σ v).node.getLast?.map (·.startbit + ebitmapSize)).getD 0) ∧
    (∀ v bit, ebitmapGetBit (σ v) bit = some (decide (bit ∈ α v))) ∧
    (∀ v, ∃ l, forEachPositiveBit (σ v) = some l ∧ l.Pairwise (· < ·) ∧ ∀ b, b ∈ l ↔ b ∈ α v) ∧
    (∀ v w, ebitmapCmp (σ v) (σ w) = true ↔ α v = α w) ∧
    (∀ v w last, ebitmapContains (σ v) (σ w) last = true ↔
      α w ⊆ α v ∧ (last = 0 ∨ ∀ b ∈ α w, b ≤ last)) ∧
    (∀ op : EbitmapOp, op.InRange → ∃ σ' ret, op.exec σ = some (σ', ret) ∧
      (ret = 0 ∨ ret = enomem ∧ op.AllocFails σ)) ∧
    (∀ l₁ l₂ l₃, IsLevel σ l₁ → IsLevel σ l₂ → IsLevel σ l₃ →
      mlsLevelDom l₁ l₁ = true ∧
      (mlsLevelDom l₁ l₂ = true → mlsLevelDom l₂ l₃ = true → mlsLevelDom l₁ l₃ = true) ∧
      (mlsLevelDom l₁ l₂ = true ∧ mlsLevelDom l₂ l₁ = true ↔ mlsLevelEq l₁ l₂ = true)) := by
  have hrep : ∀ v, Represents (σ v) (α v) := represents_of_reach h
  refine ⟨fun v => (hrep v).form, fun v => (hrep v).getBit, fun v => (hrep v).forEach,
    fun v w => (hrep v).cmp (hrep w), fun v w last => (hrep v).contains (hrep w),
    fun op hop => ?_, ?_⟩
  · obtain ⟨σ', ret, hexec, hret, -⟩ := exec_represents hrep hop
    exact ⟨σ', ret, hexec, hret⟩
  · rintro ⟨s₁, _⟩ ⟨s₂, _⟩ ⟨s₃, _⟩ ⟨v₁, rfl⟩ ⟨v₂, rfl⟩ ⟨v₃, rfl⟩
    simp only [mlsLevelDom_iff hrep]
    refine ⟨⟨le_rfl, subset_rfl⟩, fun h₁ h₂ => ⟨h₂.1.trans h₁.1, h₂.2.trans h₁.2⟩, ?_⟩
    rw [mlsLevelEq, Bool.and_eq_true, decide_eq_true_eq, (hrep v₁).cmp (hrep v₂)]
    constructor
    · rintro ⟨⟨h₁, h₂⟩, h₃, h₄⟩
      exact ⟨le_antisymm h₃ h₁, subset_antisymm h₄ h₂⟩
    · rintro ⟨h₁, h₂⟩
      exact ⟨⟨h₁.ge, h₂.ge⟩, h₁.le, h₂.le⟩

def copyThenClear : List EbitmapOp :=
  [.setBit 0 3 true true, .setBit 0 1000 true true, .cpy 1 0 2, .setBit 0 1000 false true]

theorem ebitmaps_copyThenClear :
    ∃ σ α, Reach EbitmapOp.step (fun _ op => op.InRange) initStore (σ, α) ∧
      ebitmapGetBit (σ 1) 1000 = some (decide (1000 ∈ α 1)) ∧ 1000 ∈ α 1 ∧ 1000 ∉ α 0 := by
  have hrun : (runGuarded EbitmapOp.step (fun _ op => op.InRange) initStore copyThenClear).map
      (fun st => (decide (1000 ∈ st.2 1), decide (1000 ∉ st.2 0))) = some (true, true) := by
    decide
  obtain ⟨⟨σ, α⟩, hst, hin⟩ := Option.map_eq_some_iff.mp hrun
  have hreach := Reach.of_runGuarded copyThenClear .init hst
  simp only [Prod.mk.injEq, decide_eq_true_eq] at hin
  exact ⟨σ, α, hreach, (ebitmaps_of_reach hreach).2.1 1 1000, hin⟩

theorem setBit_wraps :
    ((ebitmapSetBit ebitmapInit 4294967040 true true).map fun r =>
      (r.2, r.1.highbit, ebitmapGetBit r.1 4294967040)) = some (0, 128, some false) := by
  decide

end Cupcake.Selinux
