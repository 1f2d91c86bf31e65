import Mathlib.Order.Interval.Finset.Nat
import Mathlib.Tactic.Linarith

/-! Lists of half-open segments of the natural numbers, each with an attribute, seen as
maps from numbers to attributes. -/

namespace Cupcake

open List Option

structure Segment (α : Type*) where
  base : ℕ
  size : ℕ
  attr : α
  deriving DecidableEq, Repr

namespace Segment

variable {α : Type*} {r a b : Segment α} {rs rs' : List (Segment α)} {x m base stop top : ℕ} {v : α}

def lookup : List (Segment α) → ℕ → Option α
  | [], _ => none
  | r :: rs, x => if r.base ≤ x ∧ x < r.base + r.size then some r.attr else lookup rs x

@[simp] theorem lookup_nil : lookup ([] : List (Segment α)) x = none := rfl

theorem lookup_cons_of_mem (h : r.base ≤ x ∧ x < r.base + r.size) :
    lookup (r :: rs) x = some r.attr := if_pos h

theorem lookup_cons_of_not_mem (h : ¬(r.base ≤ x ∧ x < r.base + r.size)) :
    lookup (r :: rs) x = lookup rs x := if_neg h

theorem lookup_append (x : ℕ) : lookup (rs ++ rs') x = (lookup rs x).or (lookup rs' x) := by
  induction rs with
  | nil => rfl
  | cons r rs ih =>
    rw [cons_append, lookup, lookup, ih]
    split_ifs <;> rfl

theorem lookup_eq_none (h : ∀ r ∈ rs, ¬(r.base ≤ x ∧ x < r.base + r.size)) :
    lookup rs x = none := by
  induction rs with
  | nil => rfl
  | cons r rs ih =>
    rw [lookup_cons_of_not_mem (h r (by simp))]
    exact ih fun s hs => h s (by simp [hs])

/-! ## Well-formed lists -/

def Before (a b : Segment α) : Prop := a.base + a.size ≤ b.base

def Apart (a b : Segment α) : Prop :=
  a.base + a.size ≤ b.base ∧ (a.base + a.size = b.base → a.attr ≠ b.attr)

structure Wf (top : ℕ) (rs : List (Segment α)) : Prop where
  sorted : rs.Pairwise Before
  good : ∀ r ∈ rs, 0 < r.size ∧ r.base + r.size ≤ top

theorem wf_cons : Wf top (r :: rs) ↔
    (0 < r.size ∧ r.base + r.size ≤ top) ∧ (∀ s ∈ rs, r.base + r.size ≤ s.base) ∧ Wf top rs := by
  constructor
  · rintro ⟨hs, hg⟩
    rw [pairwise_cons] at hs
    exact ⟨hg r (by simp), hs.1, hs.2, fun s h => hg s (by simp [h])⟩
  · rintro ⟨hr, hs, h⟩
    refine ⟨pairwise_cons.mpr ⟨hs, h.sorted⟩, fun s hm => ?_⟩
    rcases mem_cons.mp hm with rfl | hm
    · exact hr
    · exact h.good s hm

theorem wf_nil : Wf top ([] : List (Segment α)) := ⟨.nil, by simp⟩

theorem Wf.append (h : Wf top rs) (h' : Wf top rs')
    (hb : ∀ a ∈ rs, ∀ b ∈ rs', a.base + a.size ≤ b.base) : Wf top (rs ++ rs') := by
  refine ⟨pairwise_append.mpr ⟨h.sorted, h'.sorted, hb⟩, fun r hr => ?_⟩
  rcases mem_append.mp hr with hr | hr
  · exact h.good r hr
  · exact h'.good r hr

theorem lookup_of_lt (h : ∀ r ∈ rs, m ≤ r.base) (hx : x < m) : lookup rs x = none :=
  lookup_eq_none fun r hr hc => absurd (h r hr) (by omega)

theorem exists_of_lookup (h : lookup rs x = some v) :
    ∃ r ∈ rs, (r.base ≤ x ∧ x < r.base + r.size) ∧ r.attr = v := by
  induction rs with
  | nil => cases h
  | cons r rs ih =>
    rw [lookup] at h
    split_ifs at h with hx
    · exact ⟨r, by simp, hx, some.inj h⟩
    · obtain ⟨s, hs, hsx⟩ := ih h
      exact ⟨s, by simp [hs], hsx⟩

theorem Wf.lookup_of_mem (hw : Wf top rs) (hr : r ∈ rs) (hx : r.base ≤ x ∧ x < r.base + r.size) :
    lookup rs x = some r.attr := by
  induction rs with
  | nil => cases hr
  | cons s rs ih =>
    obtain ⟨-, hlt, hw⟩ := wf_cons.mp hw
    obtain rfl | hr := mem_cons.mp hr
    · exact lookup_cons_of_mem hx
    · have := hlt r hr
      rw [lookup_cons_of_not_mem (by omega)]
      exact ih hw hr

theorem wf_append : Wf top (rs ++ rs') ↔
    Wf top rs ∧ Wf top rs' ∧ ∀ a ∈ rs, ∀ b ∈ rs', a.base + a.size ≤ b.base := by
  constructor
  · rintro ⟨hs, hg⟩
    obtain ⟨h₁, h₂, h₁₂⟩ := pairwise_append.mp hs
    exact ⟨⟨h₁, fun r hr => hg r (mem_append_left _ hr)⟩,
      ⟨h₂, fun r hr => hg r (mem_append_right _ hr)⟩, h₁₂⟩
  · rintro ⟨h₁, h₂, h₁₂⟩
    exact h₁.append h₂ h₁₂

theorem Wf.length_le (hw : Wf top rs) (hm : ∀ r ∈ rs, m ≤ r.base) (hle : m ≤ top) :
    rs.length + m ≤ top := by
  induction rs generalizing m with
  | nil => simpa using hle
  | cons r rs ih =>
    obtain ⟨⟨h₀, ht⟩, hlt, hw⟩ := wf_cons.mp hw
    have hr := hm r (by simp)
    have := ih hw hlt ht
    rw [length_cons]
    omega

theorem lookup_insert (hw : Wf top (rs ++ r :: rs')) (x : ℕ) : lookup (rs ++ r :: rs') x =
    if r.base ≤ x ∧ x < r.base + r.size then some r.attr else lookup (rs ++ rs') x := by
  split_ifs with hx
  · exact hw.lookup_of_mem (by simp) hx
  · rw [lookup_append, lookup_cons_of_not_mem hx, lookup_append]

theorem lookup_erase_mid (hw : Wf top (rs ++ r :: rs')) (x : ℕ) : lookup (rs ++ rs') x =
    if r.base ≤ x ∧ x < r.base + r.size then none else lookup (rs ++ r :: rs') x := by
  obtain ⟨-, h₂, h₁₂⟩ := wf_append.mp hw
  rw [lookup_insert hw x]
  by_cases hr : r.base ≤ x ∧ x < r.base + r.size
  · rw [if_pos hr]
    refine lookup_eq_none fun a ha => ?_
    rcases mem_append.mp ha with ha | ha
    · have := h₁₂ a ha r (by simp)
      omega
    · have := (wf_cons.mp h₂).2.1 a ha
      omega
  · rw [if_neg hr, if_neg hr]

theorem Wf.sublist (hw : Wf top rs) (h : rs'.Sublist rs) : Wf top rs' :=
  ⟨hw.sorted.sublist h, fun r hr => hw.good r (h.subset hr)⟩

theorem shrink_mid {s : Segment α} (hw : Wf top (rs ++ r :: rs')) (hpos : 0 < s.size)
    (hb : r.base ≤ s.base) (he : s.base + s.size ≤ r.base + r.size) (ha : s.attr = r.attr) :
    Wf top (rs ++ s :: rs') ∧ ∀ x, lookup (rs ++ s :: rs') x =
      if (r.base ≤ x ∧ x < r.base + r.size) ∧ ¬(s.base ≤ x ∧ x < s.base + s.size) then none
      else lookup (rs ++ r :: rs') x := by
  obtain ⟨h₁, h₂, h₁₂⟩ := wf_append.mp hw
  obtain ⟨hg, hlt, h₃⟩ := wf_cons.mp h₂
  have hw' : Wf top (rs ++ s :: rs') := by
    refine h₁.append (wf_cons.mpr ⟨⟨hpos, by omega⟩, fun b hb' => ?_, h₃⟩) fun a hmem b hb' => ?_
    · have := hlt b hb'
      omega
    · rcases mem_cons.mp hb' with rfl | hb'
      · have := h₁₂ a hmem r (by simp)
        omega
      · exact h₁₂ a hmem b (by simp [hb'])
  refine ⟨hw', fun x => ?_⟩
  rw [lookup_insert hw' x]
  by_cases hs : s.base ≤ x ∧ x < s.base + s.size
  · rw [if_pos hs, if_neg (fun h => h.2 hs), lookup_insert hw x, if_pos (by omega), ha]
  · rw [if_neg hs, lookup_erase_mid hw x]
    by_cases hr : r.base ≤ x ∧ x < r.base + r.size
    · rw [if_pos hr, if_pos ⟨hr, hs⟩]
    · rw [if_neg hr, if_neg (fun h => hr h.1)]

theorem exists_covering (hw : Wf top rs) (hm : rs.Pairwise Apart) (hb : base < stop)
    (h : ∀ x, base ≤ x → x < stop → lookup rs x = some v) :
    ∃ r ∈ rs, r.base ≤ base ∧ stop ≤ r.base + r.size := by
  induction rs with
  | nil => cases h base le_rfl hb
  | cons r rs ih =>
    rw [wf_cons] at hw
    obtain ⟨hr, hlt, hw⟩ := hw
    rw [pairwise_cons] at hm
    by_cases h₁ : r.base + r.size ≤ base
    · obtain ⟨s, hs, hsx⟩ := ih hw hm.2 fun x hx hx' => by
        rw [← h x hx hx', lookup_cons_of_not_mem (by omega)]
      exact ⟨s, by simp [hs], hsx⟩
    · have hrb : r.base ≤ base := by
        by_contra hc
        have := h base le_rfl hb
        rw [lookup_cons_of_not_mem (by omega), lookup_of_lt hlt (by omega)] at this
        cases this
      refine ⟨r, by simp, hrb, ?_⟩
      by_contra hc
      -- the next segment would touch this one, with the same attribute
      have hv := h base le_rfl hb
      rw [lookup_cons_of_mem (by omega)] at hv
      have hn := h (r.base + r.size) (by omega) (by omega)
      rw [lookup_cons_of_not_mem (by omega)] at hn
      obtain ⟨s, hs, hsx, hsv⟩ := exists_of_lookup hn
      have := hlt s hs
      exact (hm.1 s hs).2 (by omega) ((some.inj hv).trans hsv.symm)

/-! ## Cutting -/

def below (m : ℕ) (rs : List (Segment α)) : List (Segment α) :=
  rs.filterMap fun r =>
    if r.base < m then some { r with size := min r.size (m - r.base) } else none

def above (m : ℕ) (rs : List (Segment α)) : List (Segment α) :=
  rs.filterMap fun r =>
    if m < r.base + r.size then
      some { r with base := max r.base m, size := r.base + r.size - max r.base m }
    else none

theorem lookup_below (m : ℕ) (rs : List (Segment α)) (x : ℕ) :
    lookup (below m rs) x = if x < m then lookup rs x else none := by
  induction rs with
  | nil => simp [below]
  | cons r rs ih =>
    unfold below at ih ⊢
    rw [filterMap_cons]
    by_cases hr : r.base < m
    · rw [if_pos hr]
      simp only [lookup, ih]
      by_cases hx : x < m
      · simp only [if_pos hx, show x < r.base + min r.size (m - r.base) ↔ x < r.base + r.size by omega]
      · simp only [if_neg hx,
          if_neg (show ¬(r.base ≤ x ∧ x < r.base + min r.size (m - r.base)) by omega)]
    · rw [if_neg hr, lookup]
      simp only [ih]
      split_ifs with h₁ h₂
      · omega
      all_goals rfl

theorem lookup_above (m : ℕ) (rs : List (Segment α)) (x : ℕ) :
    lookup (above m rs) x = if m ≤ x then lookup rs x else none := by
  induction rs with
  | nil => simp [above]
  | cons r rs ih =>
    unfold above at ih ⊢
    rw [filterMap_cons]
    by_cases hr : m < r.base + r.size
    · rw [if_pos hr]
      simp only [lookup, ih]
      by_cases hx : m ≤ x
      · simp only [if_pos hx, show (max r.base m ≤ x ∧
          x < max r.base m + (r.base + r.size - max r.base m)) ↔ (r.base ≤ x ∧ x < r.base + r.size)
          by omega]
      · simp only [if_neg hx, if_neg (show ¬(max r.base m ≤ x ∧
          x < max r.base m + (r.base + r.size - max r.base m)) by omega)]
    · rw [if_neg hr, lookup]
      simp only [ih]
      split_ifs with h₁ h₂
      · omega
      all_goals rfl

theorem mem_below (h : a ∈ below m rs) :
    ∃ r ∈ rs, r.base < m ∧ a = { r with size := min r.size (m - r.base) } := by
  obtain ⟨r, hr, ha⟩ := mem_filterMap.mp h
  split_ifs at ha with hm
  exact ⟨r, hr, hm, (some.inj ha).symm⟩

theorem mem_above (h : a ∈ above m rs) : ∃ r ∈ rs, m < r.base + r.size ∧
    a = { r with base := max r.base m, size := r.base + r.size - max r.base m } := by
  obtain ⟨r, hr, ha⟩ := mem_filterMap.mp h
  split_ifs at ha with hm
  exact ⟨r, hr, hm, (some.inj ha).symm⟩

theorem stop_le_of_mem_below (h : a ∈ below m rs) : a.base + a.size ≤ m := by
  obtain ⟨r, -, hm, rfl⟩ := mem_below h
  show r.base + min r.size (m - r.base) ≤ m
  omega

theorem le_base_of_mem_above (h : a ∈ above m rs) : m ≤ a.base := by
  obtain ⟨r, -, hm, rfl⟩ := mem_above h
  exact le_max_right ..

section

variable {R : Segment α → Segment α → Prop} (h : rs.Pairwise R)

include h

theorem below_pairwise (hR : ∀ a b, R a b → a.base < m → b.base < m →
      R { a with size := min a.size (m - a.base) } { b with size := min b.size (m - b.base) }) :
    (below m rs).Pairwise R := by
  refine List.Pairwise.filterMap _ (fun a b hab a' ha b' hb => ?_) h
  split_ifs at ha hb with h₁ h₂
  rw [← some.inj ha, ← some.inj hb]
  exact hR a b hab h₁ h₂

theorem above_pairwise (hR : ∀ a b, R a b → m < a.base + a.size → m < b.base + b.size →
      R { a with base := max a.base m, size := a.base + a.size - max a.base m }
        { b with base := max b.base m, size := b.base + b.size - max b.base m }) :
    (above m rs).Pairwise R := by
  refine List.Pairwise.filterMap _ (fun a b hab a' ha b' hb => ?_) h
  split_ifs at ha hb with h₁ h₂
  rw [← some.inj ha, ← some.inj hb]
  exact hR a b hab h₁ h₂

end

theorem Wf.below (h : Wf top rs) (m : ℕ) : Wf top (below m rs) := by
  refine ⟨below_pairwise h.sorted fun a b hab ha hb => ?_, fun a ha => ?_⟩
  · show a.base + min a.size (m - a.base) ≤ b.base
    have : a.base + a.size ≤ b.base := hab
    omega
  · obtain ⟨r, hr, hm, rfl⟩ := mem_below ha
    have := h.good r hr
    show 0 < min r.size (m - r.base) ∧ r.base + min r.size (m - r.base) ≤ top
    omega

theorem Wf.above (h : Wf top rs) (m : ℕ) : Wf top (above m rs) := by
  refine ⟨above_pairwise h.sorted fun a b hab ha hb => ?_, fun a ha => ?_⟩
  · show max a.base m + (a.base + a.size - max a.base m) ≤ max b.base m
    have : a.base + a.size ≤ b.base := hab
    omega
  · obtain ⟨r, hr, hm, rfl⟩ := mem_above ha
    have := h.good r hr
    show 0 < r.base + r.size - max r.base m ∧
      max r.base m + (r.base + r.size - max r.base m) ≤ top
    omega

theorem below_apart (h : rs.Pairwise Apart) (m : ℕ) : (below m rs).Pairwise Apart := by
  refine below_pairwise h fun a b hab ha hb => ⟨?_, fun he => hab.2 ?_⟩
  · show a.base + min a.size (m - a.base) ≤ b.base
    have := hab.1
    omega
  · have he : a.base + min a.size (m - a.base) = b.base := he
    have := hab.1
    omega

theorem above_apart (h : rs.Pairwise Apart) (m : ℕ) : (above m rs).Pairwise Apart := by
  refine above_pairwise h fun a b hab ha hb => ⟨?_, fun he => hab.2 ?_⟩
  · show max a.base m + (a.base + a.size - max a.base m) ≤ max b.base m
    have := hab.1
    omega
  · have he : max a.base m + (a.base + a.size - max a.base m) = max b.base m := he
    have := hab.1
    omega

theorem below_of_le (h : ∀ r ∈ rs, m ≤ r.base) : below m rs = [] :=
  filterMap_eq_nil_iff.mpr fun r hr => if_neg (not_lt.mpr (h r hr))

theorem below_append (m : ℕ) (rs rs' : List (Segment α)) :
    below m (rs ++ rs') = below m rs ++ below m rs' := filterMap_append

theorem above_append (m : ℕ) (rs rs' : List (Segment α)) :
    above m (rs ++ rs') = above m rs ++ above m rs' := filterMap_append

theorem above_of_stop_le (h : ∀ r ∈ rs, r.base + r.size ≤ m) : above m rs = [] :=
  filterMap_eq_nil_iff.mpr fun r hr => if_neg (not_lt.mpr (h r hr))

theorem below_cons_of_lt (h : r.base < m) :
    below m (r :: rs) = { r with size := min r.size (m - r.base) } :: below m rs := by
  rw [below, filterMap_cons, if_pos h]
  rfl

theorem below_cons_of_not_lt (h : ¬ r.base < m) : below m (r :: rs) = below m rs := by
  rw [below, filterMap_cons, if_neg h]
  rfl

theorem below_cons_of_le (h : r.base + r.size ≤ m) (h₀ : 0 < r.size) :
    below m (r :: rs) = r :: below m rs := by
  rw [below_cons_of_lt (by omega), show min r.size (m - r.base) = r.size by omega]

theorem below_of_stop_le (hw : Wf top rs) (h : ∀ r ∈ rs, r.base + r.size ≤ m) :
    below m rs = rs := by
  induction rs with
  | nil => rfl
  | cons r rs ih =>
    rw [wf_cons] at hw
    rw [below_cons_of_le (h r (by simp)) hw.1.1, ih hw.2.2 fun s hs => h s (by simp [hs])]

theorem above_cons_of_le (h : r.base + r.size ≤ m) : above m (r :: rs) = above m rs := by
  rw [above, filterMap_cons, if_neg (not_lt.mpr h)]
  rfl

theorem above_cons_of_lt (h : m < r.base + r.size) : above m (r :: rs) =
    { r with base := max r.base m, size := r.base + r.size - max r.base m } :: above m rs := by
  rw [above, filterMap_cons, if_pos h]
  rfl

theorem above_cons_of_le_base (h : m ≤ r.base) (h₀ : 0 < r.size) :
    above m (r :: rs) = r :: above m rs := by
  rw [above_cons_of_lt (by omega), Nat.max_eq_left h, Nat.add_sub_cancel_left]

theorem above_of_le (hw : Wf top rs) (h : ∀ r ∈ rs, m ≤ r.base) : above m rs = rs := by
  induction rs with
  | nil => rfl
  | cons r rs ih =>
    rw [wf_cons] at hw
    rw [above_cons_of_le_base (h r (by simp)) hw.1.1, ih hw.2.2 fun s hs => h s (by simp [hs])]

def inside (base stop : ℕ) (rs : List (Segment α)) : List (Segment α) := above base (below stop rs)

theorem inside_of_le (hw : Wf top rs) (h : ∀ r ∈ rs, base ≤ r.base) :
    inside base stop rs = below stop rs := by
  refine above_of_le (hw.below stop) fun a ha => ?_
  obtain ⟨r, hr, -, rfl⟩ := mem_below ha
  exact h r hr

theorem inside_cons_of_le (h : r.base + r.size ≤ base) (hb : base ≤ stop) (h₀ : 0 < r.size) :
    inside base stop (r :: rs) = inside base stop rs := by
  rw [inside, below_cons_of_le (h.trans hb) h₀, above_cons_of_le h, inside]

theorem below_below (h : base ≤ stop) (rs : List (Segment α)) :
    below base (below stop rs) = below base rs := by
  unfold below
  rw [filterMap_filterMap]
  congr 1
  funext r
  by_cases hb : r.base < base
  · rw [if_pos (by omega), if_pos hb, bind_some, if_pos hb]
    simp only [some.injEq, Segment.mk.injEq, and_true, true_and]
    omega
  · rw [if_neg hb]
    split_ifs
    · simp only [bind_some, if_neg hb]
    · rfl

/-! A segment that the range starts in, and its upper part. -/

section Across

variable (hw : Wf top (r :: rs)) (h₁ : r.base < base) (h₂ : base < r.base + r.size)

include hw h₁ h₂

theorem wf_across : Wf top ({ r with base := base, size := r.size - (base - r.base) } :: rs) := by
  obtain ⟨hr, hlt, hrs⟩ := wf_cons.mp hw
  refine wf_cons.mpr ⟨⟨?_, ?_⟩, fun s hs => ?_, hrs⟩
  · show 0 < r.size - (base - r.base)
    omega
  · show base + (r.size - (base - r.base)) ≤ top
    omega
  · have := hlt s hs
    show base + (r.size - (base - r.base)) ≤ s.base
    omega

theorem below_across : below base (r :: rs) = [{ r with size := base - r.base }] := by
  have hall : ∀ s ∈ rs, base ≤ s.base := fun s hs => h₂.le.trans ((wf_cons.mp hw).2.1 s hs)
  rw [below_cons_of_lt h₁, below_of_le hall, show min r.size (base - r.base) = base - r.base by omega]

theorem inside_across (hb : base < stop) : inside base stop (r :: rs) =
    below stop ({ r with base := base, size := r.size - (base - r.base) } :: rs) := by
  obtain ⟨hr, hlt, hrs⟩ := wf_cons.mp hw
  rw [inside, below_cons_of_lt (h₁.trans hb), below_cons_of_lt hb,
    above_cons_of_lt (by show base < r.base + min r.size (stop - r.base); omega),
    above_of_le (hrs.below stop) fun a ha => ?_]
  · simp only [List.cons.injEq, Segment.mk.injEq, and_true]
    omega
  · obtain ⟨s, hs, -, rfl⟩ := mem_below ha
    exact h₂.le.trans (hlt s hs)

omit hw in
theorem above_across (hb : base < stop) : above stop (r :: rs) =
    above stop ({ r with base := base, size := r.size - (base - r.base) } :: rs) := by
  by_cases h₃ : stop < r.base + r.size
  · rw [above_cons_of_lt h₃,
      above_cons_of_lt (by show stop < base + (r.size - (base - r.base)); omega)]
    simp only [List.cons.injEq, Segment.mk.injEq, and_true]
    omega
  · rw [above_cons_of_le (not_lt.mp h₃),
      above_cons_of_le (by show base + (r.size - (base - r.base)) ≤ stop; omega)]

end Across

theorem length_cut (hw : Wf top rs) (hb : base ≤ stop) :
    (below base rs).length + (above stop rs).length ≤ rs.length + 1 := by
  induction rs with
  | nil => simp [below, above]
  | cons r rs ih =>
    rw [wf_cons] at hw
    have ih := ih hw.2.2
    have hr := hw.1
    by_cases h₁ : r.base + r.size ≤ base
    · rw [below_cons_of_le h₁ hr.1, above_cons_of_le (h₁.trans hb)]
      simp only [length_cons]
      omega
    · by_cases h₂ : r.base < base
      · rw [below_cons_of_lt h₂, below_of_le fun s hs => by have := hw.2.1 s hs; omega]
        have : (above stop (r :: rs)).length ≤ (r :: rs).length := length_filterMap_le ..
        simp only [length_cons, length_nil] at this ⊢
        omega
      · have h₃ : ∀ s ∈ r :: rs, base ≤ s.base := by
          intro s hs
          rcases mem_cons.mp hs with rfl | hs
          · omega
          · have := hw.2.1 s hs
            omega
        have : (above stop (r :: rs)).length ≤ (r :: rs).length := length_filterMap_le ..
        rw [below_of_le h₃]
        simp only [length_cons, length_nil] at this ⊢
        omega

theorem lookup_inside (base stop : ℕ) (rs : List (Segment α)) (x : ℕ) :
    lookup (inside base stop rs) x = if base ≤ x ∧ x < stop then lookup rs x else none := by
  rw [inside, lookup_above, lookup_below]
  split_ifs <;> first | rfl | omega

theorem lookup_cut (hb : base ≤ stop) (rs : List (Segment α)) (x : ℕ) :
    lookup (below base rs ++ (inside base stop rs ++ above stop rs)) x = lookup rs x := by
  rw [lookup_append, lookup_append, lookup_below, lookup_inside, lookup_above]
  split_ifs <;> first | omega | simp

theorem lookup_outside (hb : base ≤ stop) (rs : List (Segment α)) (x : ℕ) :
    lookup (below base rs ++ above stop rs) x =
      if base ≤ x ∧ x < stop then none else lookup rs x := by
  rw [lookup_append, lookup_below, lookup_above]
  split_ifs <;> first | omega | simp

theorem base_lt_of_mem_inside (h : a ∈ inside base stop rs) : a.base + a.size ≤ stop := by
  obtain ⟨r, hr, hm, rfl⟩ := mem_above h
  have := stop_le_of_mem_below hr
  show max r.base base + (r.base + r.size - max r.base base) ≤ stop
  omega

theorem Wf.outside (hw : Wf top rs) (hb : base ≤ stop) :
    Wf top (Segment.below base rs ++ Segment.above stop rs) :=
  (hw.below base).append (hw.above stop) fun _ ha _ hb' =>
    (stop_le_of_mem_below ha).trans (hb.trans (le_base_of_mem_above hb'))

theorem Wf.cut (hw : Wf top rs) (hb : base ≤ stop) :
    Wf top (Segment.below base rs ++ (inside base stop rs ++ Segment.above stop rs)) := by
  have hin : Wf top (inside base stop rs) := (hw.below stop).above base
  refine (hw.below base).append (hin.append (hw.above stop) fun a ha b hb' => ?_)
    fun a ha b hb' => ?_
  · exact (base_lt_of_mem_inside ha).trans (le_base_of_mem_above hb')
  · refine (stop_le_of_mem_below ha).trans ?_
    rcases mem_append.mp hb' with h | h
    · exact le_base_of_mem_above h
    · exact hb.trans (le_base_of_mem_above h)

theorem outside_apart (h : rs.Pairwise Apart) (hb : base < stop) :
    (below base rs ++ above stop rs).Pairwise Apart := by
  refine pairwise_append.mpr ⟨below_apart h base, above_apart h stop, fun a ha b hb' => ?_⟩
  have h₁ := stop_le_of_mem_below ha
  have h₂ := le_base_of_mem_above hb'
  exact ⟨by omega, fun he => by omega⟩

/-! ## Changing attributes -/

def mapAttr (f : α → α) (rs : List (Segment α)) : List (Segment α) :=
  rs.map fun r => { r with attr := f r.attr }

theorem lookup_mapAttr (f : α → α) (rs : List (Segment α)) (x : ℕ) :
    lookup (mapAttr f rs) x = (lookup rs x).map f := by
  induction rs with
  | nil => rfl
  | cons r rs ih =>
    unfold mapAttr at ih ⊢
    rw [map_cons, lookup, lookup, ih]
    split_ifs <;> rfl

theorem Wf.congr {β : Type*} {rs' : List (Segment β)} (hw : Wf top rs)
    (h : rs'.map (fun r => (r.base, r.size)) = rs.map fun r => (r.base, r.size)) : Wf top rs' := by
  induction rs' generalizing rs with
  | nil => exact wf_nil
  | cons r' rs' ih =>
    cases rs with
    | nil => simp at h
    | cons r rs =>
      obtain ⟨hr, hlt, hrs⟩ := wf_cons.mp hw
      simp only [map_cons, List.cons.injEq, Prod.mk.injEq] at h
      refine wf_cons.mpr ⟨by rw [h.1.1, h.1.2]; exact hr, fun s hs => ?_, ih hrs h.2⟩
      have hmem : (s.base, s.size) ∈ rs.map fun r => (r.base, r.size) :=
        h.2 ▸ mem_map_of_mem hs
      obtain ⟨s', hs', he⟩ := mem_map.mp hmem
      have := hlt s' hs'
      rw [h.1.1, h.1.2, ← (Prod.mk.inj he).1]
      exact this

theorem length_le_cut (hw : Wf top rs) (hr : r ∈ rs) (h₁ : r.base ≤ base)
    (h₂ : stop ≤ r.base + r.size) :
    rs.length ≤ (below base rs).length + (above stop rs).length + 1 := by
  obtain ⟨pre, post, rfl⟩ := append_of_mem hr
  have hpre : ∀ a ∈ pre, a.base + a.size ≤ r.base := fun a ha =>
    (pairwise_append.mp hw.sorted).2.2 a ha r (by simp)
  have hpost : ∀ a ∈ post, r.base + r.size ≤ a.base :=
    (pairwise_cons.mp (pairwise_append.mp hw.sorted).2.1).1
  have hb : pre.length ≤ (below base (pre ++ r :: post)).length := by
    have : below base pre = pre.map fun a => { a with size := min a.size (base - a.base) } :=
      filterMap_eq_map_iff_forall_eq_some.mpr fun a ha => if_pos (by
        have := hpre a ha
        have := (hw.good a (by simp [ha])).1
        omega)
    have happ : below base (pre ++ r :: post) = below base pre ++ below base (r :: post) :=
      filterMap_append
    rw [happ, this]
    simp
  have ha : post.length ≤ (above stop (pre ++ r :: post)).length := by
    have happ : above stop (pre ++ r :: post) = above stop (pre ++ [r]) ++ above stop post := by
      rw [append_cons]
      exact filterMap_append
    have hwpost : Wf top post := ⟨(pairwise_cons.mp (pairwise_append.mp hw.sorted).2.1).2,
      fun a ha => hw.good a (by simp [ha])⟩
    rw [happ, above_of_le hwpost fun a ha => h₂.trans (hpost a ha)]
    simp
  simp only [length_append, length_cons]
  omega

/-! ## Sizes -/

def total (rs : List (Segment α)) : ℕ := (rs.map Segment.size).sum

@[simp] theorem total_nil : total ([] : List (Segment α)) = 0 := rfl

@[simp] theorem total_cons : total (r :: rs) = r.size + total rs := sum_cons

@[simp] theorem total_append : total (rs ++ rs') = total rs + total rs' := by
  rw [total, map_append, sum_append]
  rfl

@[simp] theorem total_mapAttr (f : α → α) (rs : List (Segment α)) :
    total (mapAttr f rs) = total rs := by
  simp [total, mapAttr, Function.comp_def]

theorem total_eraseIdx (rs : List (Segment α)) (i : ℕ) :
    total (rs.eraseIdx i) + (rs.map Segment.size).getD i 0 = total rs := by
  induction rs generalizing i with
  | nil => rfl
  | cons r rs ih =>
    cases i with
    | zero =>
      rw [total_cons, Nat.add_comm]
      rfl
    | succ i =>
      rw [eraseIdx_cons_succ, total_cons, total_cons, ← ih i, map_cons, getD_cons_succ, Nat.add_assoc]

theorem Wf.total_le (hw : Wf top rs) (hm : ∀ r ∈ rs, m ≤ r.base) (hle : m ≤ top) :
    m + total rs ≤ top := by
  induction rs generalizing m with
  | nil => exact hle
  | cons r rs ih =>
    obtain ⟨hr, hlt, hrs⟩ := wf_cons.mp hw
    have := ih hrs hlt hr.2
    have := hm r mem_cons_self
    rw [total_cons]
    omega

theorem total_below_above (m : ℕ) (rs : List (Segment α)) :
    total (below m rs) + total (above m rs) = total rs := by
  induction rs with
  | nil => rfl
  | cons r rs ih =>
    by_cases h₁ : r.base < m
    · by_cases h₂ : m < r.base + r.size
      · rw [below_cons_of_lt h₁, above_cons_of_lt h₂]
        simp only [total_cons]
        omega
      · rw [below_cons_of_lt h₁, above_cons_of_le (not_lt.mp h₂)]
        simp only [total_cons]
        omega
    · by_cases h₂ : m < r.base + r.size
      · rw [below_cons_of_not_lt h₁, above_cons_of_lt h₂]
        simp only [total_cons]
        omega
      · rw [below_cons_of_not_lt h₁, above_cons_of_le (not_lt.mp h₂), total_cons]
        omega

theorem total_cut (hb : base ≤ stop) (rs : List (Segment α)) :
    total (Segment.below base rs) + (total (inside base stop rs) + total (above stop rs)) =
      total rs := by
  rw [inside, ← below_below hb, ← Nat.add_assoc, total_below_above, total_below_above]

/-! ## Filling the gaps of a range -/

def fill (v : α) (stop : ℕ) : ℕ → List (Segment α) → List (Segment α)
  | base, [] => if base < stop then [⟨base, stop - base, v⟩] else []
  | base, r :: rs =>
    if stop ≤ r.base then
      if base < stop then ⟨base, stop - base, v⟩ :: r :: rs else r :: rs
    else if r.base + r.size ≤ base then r :: fill v stop base rs
    else if base < r.base then
      ⟨base, r.base - base, v⟩ :: r :: fill v stop (min (r.base + r.size) stop) rs
    else r :: fill v stop (min (r.base + r.size) stop) rs

def gaps (stop : ℕ) : ℕ → List (Segment α) → ℕ
  | base, [] => if base < stop then 1 else 0
  | base, r :: rs =>
    if stop ≤ r.base then if base < stop then 1 else 0
    else if r.base + r.size ≤ base then gaps stop base rs
    else if base < r.base then gaps stop (min (r.base + r.size) stop) rs + 1
    else gaps stop (min (r.base + r.size) stop) rs

theorem length_fill (v : α) (stop base : ℕ) (rs : List (Segment α)) :
    (fill v stop base rs).length = rs.length + gaps stop base rs := by
  induction rs generalizing base with
  | nil =>
    simp only [fill, gaps]
    split_ifs <;> rfl
  | cons r rs ih =>
    simp only [fill, gaps]
    split_ifs <;> simp only [length_cons, ih] <;> omega

theorem total_le_fill (v : α) (stop base : ℕ) (rs : List (Segment α)) :
    total rs ≤ total (fill v stop base rs) := by
  induction rs generalizing base with
  | nil => exact Nat.zero_le _
  | cons r rs ih =>
    have h₁ := ih base
    have h₂ := ih (min (r.base + r.size) stop)
    rw [fill]
    split_ifs <;> simp only [total_cons] <;> omega

theorem gaps_le (stop base : ℕ) (rs : List (Segment α)) : gaps stop base rs ≤ rs.length + 1 := by
  induction rs generalizing base with
  | nil =>
    simp only [gaps]
    split_ifs <;> simp
  | cons r rs ih =>
    have h₁ := ih base
    have h₂ := ih (min (r.base + r.size) stop)
    simp only [gaps, length_cons]
    split_ifs <;> omega

theorem fill_eq_of_le (hb : ∀ r ∈ rs, stop ≤ r.base) :
    fill v stop base rs = if base < stop then ⟨base, stop - base, v⟩ :: rs else rs := by
  cases rs with
  | nil => rfl
  | cons r rs => rw [fill, if_pos (hb r (by simp))]

private theorem lookup_new (h : base < m) (hx : x < m → lookup rs x = none) :
    lookup (⟨base, m - base, v⟩ :: rs) x =
      if base ≤ x ∧ x < m then (lookup rs x).or (some v) else lookup rs x := by
  simp only [lookup, show base + (m - base) = m by omega]
  split_ifs with h₁
  · rw [hx h₁.2]
    rfl
  · rfl

theorem lookup_fill (hw : Wf top rs) (hb : base ≤ stop) (x : ℕ) :
    lookup (fill v stop base rs) x =
      if base ≤ x ∧ x < stop then (lookup rs x).or (some v) else lookup rs x := by
  induction rs generalizing base with
  | nil =>
    rw [fill]
    split_ifs with h₁ h₂ h₂
    · exact lookup_cons_of_mem (show base ≤ x ∧ x < base + (stop - base) by omega)
    · exact lookup_cons_of_not_mem (show ¬(base ≤ x ∧ x < base + (stop - base)) by omega)
    · omega
    · rfl
  | cons r rs ih =>
    by_cases h₁ : stop ≤ r.base
    · have hall : ∀ s ∈ r :: rs, stop ≤ s.base := by
        intro s hs
        rcases mem_cons.mp hs with rfl | hs
        · exact h₁
        · have := (wf_cons.mp hw).2.1 s hs
          omega
      rw [fill_eq_of_le hall]
      by_cases h₂ : base < stop
      · rw [if_pos h₂, lookup_new h₂ fun hx => lookup_of_lt hall hx]
      · rw [if_neg h₂, if_neg (by omega)]
    · rw [wf_cons] at hw
      obtain ⟨hr, hlt, hw⟩ := hw
      -- what `fill` does after a segment that it keeps
      have hkeep : ∀ base' ≤ stop, (base' ≤ x ∧ x < stop ↔ base ≤ x ∧ x < stop) ∨
          (r.base ≤ x ∧ x < r.base + r.size) →
          lookup (r :: fill v stop base' rs) x =
            if base ≤ x ∧ x < stop then (lookup (r :: rs) x).or (some v) else lookup (r :: rs) x := by
        intro base' hb' hx
        by_cases hin : r.base ≤ x ∧ x < r.base + r.size
        · rw [lookup_cons_of_mem hin, lookup_cons_of_mem hin, some_or, ite_self]
        · rw [lookup_cons_of_not_mem hin, lookup_cons_of_not_mem hin, ih hw hb']
          simp only [hx.resolve_right hin]
      rw [fill, if_neg h₁]
      by_cases h₂ : r.base + r.size ≤ base
      · rw [if_pos h₂]
        exact hkeep base hb (.inl Iff.rfl)
      · rw [if_neg h₂]
        by_cases h₃ : base < r.base
        · rw [if_pos h₃]
          by_cases hx : x < r.base
          · have hnone : lookup (r :: rs) x = none := by
              rw [lookup_cons_of_not_mem (by omega), lookup_of_lt hlt (by omega)]
            have hnone' : lookup (r :: fill v stop (min (r.base + r.size) stop) rs) x = none := by
              rw [lookup_cons_of_not_mem (by omega), ih hw (min_le_right _ _), if_neg (by omega),
                lookup_of_lt hlt (by omega)]
            rw [lookup_new h₃ fun _ => hnone', hnone, hnone']
            by_cases hbx : base ≤ x
            · rw [if_pos ⟨hbx, hx⟩, if_pos (by omega)]
            · rw [if_neg (by omega), if_neg (by omega)]
          · rw [lookup_cons_of_not_mem (show ¬(base ≤ x ∧ x < base + (r.base - base)) by omega)]
            exact hkeep _ (min_le_right _ _) (by omega)
        · rw [if_neg h₃]
          exact hkeep _ (min_le_right _ _) (by omega)

theorem le_base_of_mem_fill (h : ∀ r ∈ rs, m ≤ r.base) (hm : m ≤ base ∨ stop ≤ base)
    (ha : a ∈ fill v stop base rs) (hb : base ≤ stop) : m ≤ a.base := by
  induction rs generalizing base with
  | nil =>
    rw [fill] at ha
    split_ifs at ha with h₁
    · obtain rfl := mem_singleton.mp ha
      exact hm.resolve_right (not_le.mpr h₁)
    · cases ha
  | cons r rs ih =>
    have hr := h r (by simp)
    have hmin : m ≤ min (r.base + r.size) stop ∨ stop ≤ min (r.base + r.size) stop := by omega
    have hall : ∀ s ∈ rs, m ≤ s.base := fun s hs => h s (by simp [hs])
    rw [fill] at ha
    split_ifs at ha with h₁ h₂ h₃ h₄
    · rcases mem_cons.mp ha with rfl | ha
      · exact hm.resolve_right (not_le.mpr h₂)
      · exact h a ha
    · exact h a ha
    · rcases mem_cons.mp ha with rfl | ha
      · exact hr
      · exact ih hall hm ha hb
    · rcases mem_cons.mp ha with rfl | ha
      · exact hm.resolve_right (by omega)
      · rcases mem_cons.mp ha with rfl | ha
        · exact hr
        · exact ih hall hmin ha (min_le_right _ _)
    · rcases mem_cons.mp ha with rfl | ha
      · exact hr
      · exact ih hall hmin ha (min_le_right _ _)

theorem Wf.fill (hw : Wf top rs) (hb : base ≤ stop) (ht : stop ≤ top) :
    Wf top (fill v stop base rs) := by
  induction rs generalizing base with
  | nil =>
    rw [Segment.fill]
    split_ifs with h
    · exact wf_cons.mpr ⟨⟨by simpa using h, by simp; omega⟩, by simp, wf_nil⟩
    · exact wf_nil
  | cons r rs ih =>
    have hw' := wf_cons.mp hw
    obtain ⟨hr, hlt, hrs⟩ := hw'
    have hfill : Wf top (r :: Segment.fill v stop (min (r.base + r.size) stop) rs) := by
      refine wf_cons.mpr ⟨hr, fun s hs => ?_, ih hrs (min_le_right _ _)⟩
      exact le_base_of_mem_fill hlt (by omega) hs (min_le_right _ _)
    rw [Segment.fill]
    split_ifs with h₁ h₂ h₃ h₄
    · refine wf_cons.mpr ⟨⟨by simpa using h₂, by simp; omega⟩, fun s hs => ?_, hw⟩
      have : stop ≤ s.base := by
        rcases mem_cons.mp hs with rfl | hs
        · exact h₁
        · have := hlt s hs
          omega
      show base + (stop - base) ≤ s.base
      omega
    · exact hw
    · exact wf_cons.mpr ⟨hr, fun s hs => le_base_of_mem_fill hlt (.inl h₃) hs hb, ih hrs hb⟩
    · refine wf_cons.mpr ⟨⟨by simpa using h₄, by simp; omega⟩, fun s hs => ?_, hfill⟩
      have : r.base ≤ s.base := by
        rcases mem_cons.mp hs with rfl | hs
        · exact le_rfl
        · exact le_base_of_mem_fill (fun s hs => le_trans (by omega) (hlt s hs)) (by omega) hs
            (min_le_right _ _)
      show base + (r.base - base) ≤ s.base
      omega
    · exact hfill

/-! The number of gaps is a matter of the map alone: it is the number of places where a
gap starts. -/

def starts (p : ℕ → Bool) (base stop : ℕ) : Finset ℕ :=
  (Finset.Ico base stop).filter fun x => p x = false ∧ (x = base ∨ p (x - 1) = true)

section Starts

variable {p q : ℕ → Bool}

theorem mem_starts : x ∈ starts p base stop ↔
    (base ≤ x ∧ x < stop) ∧ p x = false ∧ (x = base ∨ p (x - 1) = true) := by
  simp [starts]

theorem starts_congr (h : ∀ x, base ≤ x → x < stop → p x = q x) :
    starts p base stop = starts q base stop := by
  ext x
  rw [mem_starts, mem_starts]
  refine and_congr_right fun hx => ?_
  rw [h x hx.1 hx.2]
  refine and_congr_right fun _ => ?_
  by_cases hb : x = base
  · simp [hb]
  · rw [h (x - 1) (by omega) (by omega)]

theorem starts_split (h₁ : base ≤ m) (h₂ : m ≤ stop)
    (h : m = base ∨ m = stop ∨ p m = true ∨ p (m - 1) = true) :
    (starts p base stop).card = (starts p base m).card + (starts p m stop).card := by
  have hd : Disjoint (starts p base m) (starts p m stop) := by
    rw [Finset.disjoint_left]
    intro x hx hx'
    rw [mem_starts] at hx hx'
    omega
  rw [← Finset.card_union_of_disjoint hd]
  congr 1
  ext x
  rw [Finset.mem_union, mem_starts, mem_starts, mem_starts]
  rcases lt_trichotomy x m with hx | rfl | hx
  · constructor
    · exact fun h' => .inl ⟨⟨h'.1.1, hx⟩, h'.2⟩
    · rintro (h' | h')
      · exact ⟨⟨h'.1.1, by omega⟩, h'.2⟩
      · omega
  · constructor
    · exact fun h' => .inr ⟨⟨le_rfl, h'.1.2⟩, h'.2.1, .inl rfl⟩
    · rintro (h' | h')
      · omega
      · refine ⟨⟨h₁, h'.1.2⟩, h'.2.1, ?_⟩
        rcases h with h | h | h | h
        · exact .inl h
        · omega
        · rw [h] at h'
          simp at h'
        · exact .inr h
  · have hxb : x ≠ base := by omega
    have hxm : x ≠ m := by omega
    simp only [hxb, hxm, false_or]
    constructor
    · exact fun h' => .inr ⟨⟨hx.le, h'.1.2⟩, h'.2⟩
    · rintro (h' | h')
      · omega
      · exact ⟨⟨by omega, h'.1.2⟩, h'.2⟩

theorem card_starts_of_none (hb : base < m) (h : ∀ x, base ≤ x → x < m → p x = false) :
    (starts p base m).card = 1 := by
  have : starts p base m = {base} := by
    ext x
    rw [mem_starts, Finset.mem_singleton]
    constructor
    · rintro ⟨hx, -, hx' | hx'⟩
      · exact hx'
      · by_contra hne
        rw [h (x - 1) (by omega) (by omega)] at hx'
        simp at hx'
    · rintro rfl
      exact ⟨⟨le_rfl, hb⟩, h x le_rfl hb, .inl rfl⟩
  rw [this, Finset.card_singleton]

theorem card_starts_of_all (h : ∀ x, base ≤ x → x < m → p x = true) :
    (starts p base m).card = 0 := by
  rw [Finset.card_eq_zero, Finset.eq_empty_iff_forall_notMem]
  intro x hx
  rw [mem_starts] at hx
  rw [h x hx.1.1 hx.1.2] at hx
  simp at hx

end Starts

theorem gaps_eq_card (hw : Wf top rs) (hb : base ≤ stop) :
    gaps stop base rs = (starts (fun x => (lookup rs x).isSome) base stop).card := by
  induction rs generalizing base with
  | nil =>
    rw [gaps]
    split_ifs with h
    · exact (card_starts_of_none h fun _ _ _ => rfl).symm
    · rw [show base = stop by omega]
      exact (card_starts_of_all fun x _ _ => by omega).symm
  | cons r rs ih =>
    rw [wf_cons] at hw
    obtain ⟨hr, hlt, hw⟩ := hw
    have hfrom : ∀ x, x < r.base → lookup (r :: rs) x = none := fun x hx => by
      rw [lookup_cons_of_not_mem (by omega), lookup_of_lt hlt (by omega)]
    have hafter : ∀ n, r.base + r.size ≤ n ∨ stop ≤ n →
        starts (fun x => (lookup (r :: rs) x).isSome) n stop =
          starts (fun x => (lookup rs x).isSome) n stop := fun n hn =>
      starts_congr fun x h₁ h₂ => by rw [lookup_cons_of_not_mem (by omega)]
    rw [gaps]
    by_cases h₁ : stop ≤ r.base
    · rw [if_pos h₁]
      split_ifs with h
      · exact (card_starts_of_none h fun x _ hx => by rw [hfrom x (by omega)]; rfl).symm
      · rw [show base = stop by omega]
        exact (card_starts_of_all fun x _ _ => by omega).symm
    · rw [if_neg h₁]
      by_cases h₂ : r.base + r.size ≤ base
      · rw [if_pos h₂, ih hw hb, hafter base (.inl h₂)]
      · -- from where the range meets the segment, to the end of the segment
        have hmeet : ∀ n, r.base ≤ n → n ≤ min (r.base + r.size) stop →
            (starts (fun x => (lookup (r :: rs) x).isSome) n stop).card =
              gaps stop (min (r.base + r.size) stop) rs := fun n hn hle => by
          rw [ih hw (min_le_right _ _), ← hafter _ (by omega),
            starts_split hle (min_le_right _ _), card_starts_of_all fun x hx hx' => ?_, zero_add]
          · rw [lookup_cons_of_mem (by omega)]
            rfl
          · by_cases hs : stop ≤ r.base + r.size
            · exact .inr (.inl (by omega))
            · refine .inr (.inr (.inr ?_))
              rw [lookup_cons_of_mem (by omega)]
              rfl
        rw [if_neg h₂]
        by_cases h₃ : base < r.base
        · rw [if_pos h₃, starts_split h₃.le (by omega) (.inr (.inr (.inl ?_))),
            card_starts_of_none h₃ fun x _ hx => by rw [hfrom x hx]; rfl,
            hmeet r.base le_rfl (by omega), add_comm]
          rw [lookup_cons_of_mem (by omega)]
          rfl
        · rw [if_neg h₃, hmeet base (by omega) (by omega)]

theorem gaps_congr (hw : Wf top rs) (hw' : Wf top rs') (hb : base ≤ stop)
    (h : ∀ x, base ≤ x → x < stop → lookup rs x = lookup rs' x) :
    gaps stop base rs = gaps stop base rs' := by
  rw [gaps_eq_card hw hb, gaps_eq_card hw' hb]
  exact congrArg _ (starts_congr fun x h₁ h₂ => by rw [h x h₁ h₂])

theorem gaps_of_none (hw : Wf top rs) (hb : base < stop)
    (h : ∀ x, base ≤ x → x < stop → lookup rs x = none) : gaps stop base rs = 1 := by
  rw [gaps_eq_card hw hb.le]
  exact card_starts_of_none hb fun x h₁ h₂ => by rw [h x h₁ h₂]; rfl

/-! ## Joining neighbours -/

theorem wf_join {this next : Segment α} (hw : Wf top (this :: next :: rs))
    (h : this.base + this.size = next.base) :
    Wf top ({ this with size := this.size + next.size } :: rs) := by
  rw [wf_cons, wf_cons] at hw
  obtain ⟨h₁, h₂, h₃, h₄, h₅⟩ := hw
  refine wf_cons.mpr ⟨⟨?_, ?_⟩, fun s hs => ?_, h₅⟩
  · show 0 < this.size + next.size
    omega
  · show this.base + (this.size + next.size) ≤ top
    omega
  · show this.base + (this.size + next.size) ≤ s.base
    have := h₄ s hs
    omega

theorem join_mid {this next : Segment α} (hw : Wf top (rs ++ this :: next :: rs'))
    (h : this.base + this.size = next.base) (ha : this.attr = next.attr) :
    Wf top (rs ++ { this with size := this.size + next.size } :: rs') ∧
      ∀ x, lookup (rs ++ { this with size := this.size + next.size } :: rs') x =
        lookup (rs ++ this :: next :: rs') x := by
  obtain ⟨h₁, h₂, h₁₂⟩ := wf_append.mp hw
  refine ⟨h₁.append (wf_join h₂ h) fun a ha b hb => ?_, fun x => ?_⟩
  · rcases mem_cons.mp hb with rfl | hb
    · exact h₁₂ a ha this (by simp)
    · exact h₁₂ a ha b (by simp [hb])
  · rw [lookup_append, lookup_append, lookup, lookup, lookup]
    congr 1
    dsimp only
    split_ifs <;> first | rfl | omega | rw [ha]

section Merge

variable [DecidableEq α]

def merge (this : Segment α) : List (Segment α) → List (Segment α)
  | [] => [this]
  | next :: rs =>
    if this.base + this.size = next.base ∧ this.attr = next.attr then
      merge { this with size := this.size + next.size } rs
    else this :: merge next rs

theorem length_merge_le (this : Segment α) (rs : List (Segment α)) :
    (merge this rs).length ≤ rs.length + 1 := by
  induction rs generalizing this with
  | nil => simp [merge]
  | cons next rs ih =>
    rw [merge]
    split_ifs
    · exact (ih _).trans (by simp)
    · simpa using ih next

theorem total_merge (this : Segment α) (rs : List (Segment α)) :
    total (merge this rs) = this.size + total rs := by
  induction rs generalizing this with
  | nil => rfl
  | cons next rs ih =>
    rw [merge]
    split_ifs
    · rw [ih, total_cons, Nat.add_assoc]
    · rw [total_cons, ih, total_cons]

theorem merge_ne_nil (this : Segment α) (rs : List (Segment α)) : merge this rs ≠ [] := by
  induction rs generalizing this with
  | nil => simp [merge]
  | cons next rs ih =>
    rw [merge]
    split_ifs
    · exact ih _
    · simp

section

variable {this : Segment α} (hw : Wf top (this :: rs))

include hw

theorem lookup_merge (x : ℕ) : lookup (merge this rs) x = lookup (this :: rs) x := by
  induction rs generalizing this with
  | nil => rfl
  | cons next rs ih =>
    rw [merge]
    split_ifs with h
    · rw [ih (wf_join hw h.1)]
      rw [wf_cons] at hw
      simp only [lookup, ← h.2]
      have := hw.1
      split_ifs <;> first | rfl | omega
    · rw [lookup, ih (wf_cons.mp hw).2.2]
      rfl

theorem mem_merge (ha : a ∈ merge this rs) :
    this.base ≤ a.base ∧ (a.base = this.base → a.attr = this.attr) := by
  induction rs generalizing this with
  | nil =>
    obtain rfl := mem_singleton.mp ha
    exact ⟨le_rfl, fun _ => rfl⟩
  | cons next rs ih =>
    rw [merge] at ha
    split_ifs at ha with h
    · have := ih (wf_join hw h.1) ha
      exact this
    · rw [wf_cons] at hw
      rcases mem_cons.mp ha with rfl | ha
      · exact ⟨le_rfl, fun _ => rfl⟩
      · have h₁ := (ih hw.2.2 ha).1
        have h₂ := hw.2.1 next (by simp)
        have h₃ := hw.1.1
        exact ⟨by omega, fun he => by omega⟩

theorem wf_merge : Wf top (merge this rs) ∧ (merge this rs).Pairwise Apart := by
  induction rs generalizing this with
  | nil => exact ⟨hw, pairwise_singleton ..⟩
  | cons next rs ih =>
    rw [merge]
    split_ifs with h
    · exact ih (wf_join hw h.1)
    · have hw' := wf_cons.mp hw
      obtain ⟨hr, hlt, hrs⟩ := hw'
      obtain ⟨ih₁, ih₂⟩ := ih hrs
      have hnext := hlt next (by simp)
      refine ⟨wf_cons.mpr ⟨hr, fun s hs => hnext.trans (mem_merge hrs hs).1, ih₁⟩,
        pairwise_cons.mpr ⟨fun s hs => ?_, ih₂⟩⟩
      obtain ⟨hle, hattr⟩ := mem_merge hrs hs
      refine ⟨hnext.trans hle, fun he ha => h ?_⟩
      have hbase : s.base = next.base := by omega
      exact ⟨by omega, ha.trans (hattr hbase)⟩

end

end Merge

end Segment

end Cupcake
