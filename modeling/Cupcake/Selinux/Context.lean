import Cupcake.Selinux.Ebitmap.Ops
import Cupcake.Selinux.Mls

/-! The security contexts of `context.h`. -/

namespace Cupcake.Selinux

/-- `struct context`. A context that could not be mapped has its text and a length that is
not zero. -/
structure Context where
  user : ℕ
  role : ℕ
  type : ℕ
  len : ℕ
  range : MlsRange
  str : Option (List Char)
  str_of_len : len ≠ 0 → str.isSome

def plainContext (user type : ℕ) : Context :=
  ⟨user, 1, type, 0, ⟨⟨1, ebitmapInit⟩, ⟨1, ebitmapInit⟩⟩, none, fun h => absurd rfl h⟩

def mlsContextCmp (c₁ c₂ : Context) : Bool :=
  c₁.range.low.sens = c₂.range.low.sens && ebitmapCmp c₁.range.low.cat c₂.range.low.cat &&
    c₁.range.high.sens = c₂.range.high.sens && ebitmapCmp c₁.range.high.cat c₂.range.high.cat

def contextCmp (c₁ c₂ : Context) : Bool :=
  if c₁.len ≠ 0 ∧ c₂.len ≠ 0 then c₁.len = c₂.len && c₁.str = c₂.str
  else if c₁.len ≠ 0 ∨ c₂.len ≠ 0 then false
  else c₁.user = c₂.user && c₁.role = c₂.role && c₁.type = c₂.type && mlsContextCmp c₁ c₂

/-- Which allocations of a copy succeed: the node that holds it, the text, and the first so
many nodes of each bitmap. -/
structure Allocs where
  node : Bool
  str : Bool
  low : ℕ
  high : ℕ

def mlsContextCpy (src : MlsRange) (a : Allocs) : Option MlsRange :=
  match ebitmapCpy src.low.cat a.low with
  | (low, 0) =>
    match ebitmapCpy src.high.cat a.high with
    | (high, 0) => some ⟨⟨src.low.sens, low⟩, ⟨src.high.sens, high⟩⟩
    | _ => none
  | _ => none

def contextCpy (src : Context) (a : Allocs) : Option Context :=
  match src.str with
  | some text =>
    if a.str then
      (mlsContextCpy src.range a).map fun range =>
        { src with range := range, str := some text, str_of_len := fun _ => rfl }
    else none
  | none =>
    (mlsContextCpy src.range a).map fun range =>
      { src with len := 0, range := range, str := none, str_of_len := fun h => absurd rfl h }

/-! ## Equal contexts -/

theorem ebitmapCmp_iff (e₁ e₂ : Ebitmap) : ebitmapCmp e₁ e₂ = true ↔ e₁ = e₂ := by
  obtain ⟨n₁, h₁⟩ := e₁
  obtain ⟨n₂, h₂⟩ := e₂
  rw [ebitmapCmp]
  by_cases h : h₁ = h₂
  · simp [h, cmpLoop_eq]
  · simp [h]

def Context.key (c : Context) : (ℕ × Option (List Char)) ⊕ (ℕ × ℕ × ℕ × MlsRange) :=
  if c.len ≠ 0 then .inl (c.len, c.str) else .inr (c.user, c.role, c.type, c.range)

theorem contextCmp_iff (c₁ c₂ : Context) : contextCmp c₁ c₂ = true ↔ c₁.key = c₂.key := by
  have hrange : mlsContextCmp c₁ c₂ = true ↔ c₁.range = c₂.range := by
    simp [mlsContextCmp, ebitmapCmp_iff, MlsRange.ext_iff, MlsLevel.ext_iff, and_assoc]
  rw [contextCmp, Context.key, Context.key]
  by_cases h₁ : c₁.len = 0
  · by_cases h₂ : c₂.len = 0
    · simp [h₁, h₂, hrange, and_assoc]
    · simp [h₁, h₂]
  · by_cases h₂ : c₂.len = 0
    · simp [h₁, h₂]
    · simp [h₁, h₂]

theorem mlsContextCpy_cases (src : MlsRange) (a : Allocs) :
    mlsContextCpy src a = some src ∨ mlsContextCpy src a = none := by
  rw [mlsContextCpy, ebitmapCpy_eq, ebitmapCpy_eq]
  split_ifs
  · exact .inl rfl
  · exact .inr rfl
  · exact .inr rfl
  · exact .inr rfl

theorem contextCpy_eq {src c : Context} {a : Allocs} (h : contextCpy src a = some c) : c = src := by
  obtain ⟨user, role, type, len, range, str, hlen⟩ := src
  cases str with
  | some text =>
    simp only [contextCpy] at h
    split_ifs at h with ha
    rcases mlsContextCpy_cases range a with hm | hm
    · rw [hm] at h
      exact (Option.some.inj h).symm
    · rw [hm] at h
      cases h
  | none =>
    have h0 : len = 0 := by
      by_contra hne
      exact absurd (hlen hne) (by simp)
    subst h0
    simp only [contextCpy] at h
    rcases mlsContextCpy_cases range a with hm | hm
    · rw [hm] at h
      exact (Option.some.inj h).symm
    · rw [hm] at h
      cases h

end Cupcake.Selinux
