import Cupcake.Lib.Segments

/-! Writing one attribute over a range of a list of segments that never touch a segment with the
same attribute. -/

namespace Cupcake.Segment

open List Option

variable {α : Type*} {r : Segment α} {rs out : List (Segment α)} {top base stop lo hi x : ℕ} {v : α}

structure Splice (v : α) (base stop lo hi : ℕ) (rs : List (Segment α)) : Prop where
  lo_le : lo ≤ base
  le_hi : stop ≤ hi
  left : ∀ x, lo ≤ x → x < base → lookup rs x = some v
  right : ∀ x, stop ≤ x → x < hi → lookup rs x = some v
  before : ∀ x, x + 1 = lo → lookup rs x ≠ some v
  after : lookup rs hi ≠ some v

def splice (v : α) (lo hi : ℕ) (rs : List (Segment α)) : List (Segment α) :=
  below lo rs ++ ⟨lo, hi - lo, v⟩ :: above hi rs

namespace Splice

variable (h : Splice v base stop lo hi rs)

include h

theorem lookup_splice (hlt : base < stop) (x : ℕ) :
    lookup (splice v lo hi rs) x = if base ≤ x ∧ x < stop then some v else lookup rs x := by
  have hlo := h.lo_le
  have hhi := h.le_hi
  rw [splice, lookup_append, lookup_below]
  by_cases hx : x < lo
  · rw [if_pos hx, if_neg (by omega), lookup_cons_of_not_mem (by simp only; omega), lookup_above,
      if_neg (by omega), or_none]
  · rw [if_neg hx, none_or]
    by_cases hx' : x < hi
    · rw [lookup_cons_of_mem (by simp only; omega)]
      split_ifs with hin
      · rfl
      · obtain hl | hr : x < base ∨ stop ≤ x := by omega
        · exact (h.left x (by omega) hl).symm
        · exact (h.right x hr hx').symm
    · rw [lookup_cons_of_not_mem (by simp only; omega), lookup_above, if_pos (by omega),
        if_neg (by omega)]

theorem hi_le (hw : Wf top rs) (htop : stop ≤ top) : hi ≤ top := by
  obtain heq | hlt := h.le_hi.eq_or_lt
  · exact heq ▸ htop
  · obtain ⟨r, hr, hx, -⟩ := exists_of_lookup (h.right (hi - 1) (by omega) (by omega))
    have := (hw.good r hr).2
    omega

theorem wf_splice (hw : Wf top rs) (hlt : base < stop) (htop : stop ≤ top) :
    Wf top (splice v lo hi rs) := by
  have hle := h.hi_le hw htop
  have hlo := h.lo_le
  have hhi := h.le_hi
  apply (hw.below lo).append
  · refine wf_cons.mpr ⟨⟨by simp only; omega, by simp only; omega⟩, fun r hr => ?_, hw.above hi⟩
    have := le_base_of_mem_above hr
    simp only
    omega
  · intro a ha b hb
    have hal := stop_le_of_mem_below ha
    obtain rfl | hb := mem_cons.mp hb
    · exact hal
    · have := le_base_of_mem_above hb
      omega

theorem splice_apart (hw : Wf top rs) (ha : rs.Pairwise Apart) (hlt : base < stop) :
    (splice v lo hi rs).Pairwise Apart := by
  have hlo := h.lo_le
  have hhi := h.le_hi
  refine pairwise_append.mpr ⟨below_apart ha lo, pairwise_cons.mpr
    ⟨fun r hr => ⟨?_, fun hend hv => ?_⟩, above_apart ha hi⟩, fun r hr r' hr' => ?_⟩
  · have := le_base_of_mem_above hr
    simp only
    omega
  · -- the segment above would hold `hi`
    have hpos := ((hw.above hi).good r hr).1
    have hlook := (hw.above hi).lookup_of_mem hr (x := hi) (by simp only at hend; omega)
    rw [lookup_above, if_pos le_rfl, ← hv] at hlook
    exact h.after hlook
  · have hend := stop_le_of_mem_below hr
    obtain rfl | hr' := mem_cons.mp hr'
    · refine ⟨hend, fun heq hv => ?_⟩
      -- the segment below would hold `lo - 1`
      have hpos := ((hw.below lo).good r hr).1
      simp only at heq
      have hlook := (hw.below lo).lookup_of_mem hr (x := lo - 1) (by omega)
      rw [lookup_below, if_pos (by omega), hv] at hlook
      exact h.before (lo - 1) (by omega) hlook
    · have := le_base_of_mem_above hr'
      exact ⟨by omega, fun heq => absurd heq (by omega)⟩

end Splice

theorem attr_of_mem_splice (hr : r ∈ splice v lo hi rs) : r.attr = v ∨ ∃ a ∈ rs, r.attr = a.attr := by
  rcases mem_append.mp hr with hb | ha
  · obtain ⟨a, ha, -, rfl⟩ := mem_below hb
    exact .inr ⟨a, ha, rfl⟩
  · obtain rfl | ha := mem_cons.mp ha
    · exact .inl rfl
    · obtain ⟨a, ha', -, rfl⟩ := mem_above ha
      exact .inr ⟨a, ha', rfl⟩

/-! ## Building the new segment from left to right -/

structure Reaches (v : α) (stop hi : ℕ) (rs : List (Segment α)) : Prop where
  le : stop ≤ hi
  right : ∀ x, stop ≤ x → x < hi → lookup rs x = some v
  after : lookup rs hi ≠ some v

namespace Reaches

theorem nil (v : α) (stop : ℕ) : Reaches v stop stop ([] : List (Segment α)) :=
  ⟨le_rfl, fun _ h h' => absurd h (by omega), by simp⟩

theorem beyond (hw : Wf top (r :: rs)) (hr : stop ≤ r.base) (hv : r.attr = v → stop < r.base) :
    Reaches v stop stop (r :: rs) := by
  obtain ⟨hgood, hlt, -⟩ := wf_cons.mp hw
  refine ⟨le_rfl, fun _ h h' => absurd h (by omega), fun hlook => ?_⟩
  by_cases hx : r.base ≤ stop
  · rw [lookup_cons_of_mem (by omega)] at hlook
    exact absurd (hv (some.inj hlook)) (by omega)
  · rw [lookup_cons_of_not_mem (by omega),
      lookup_of_lt (m := r.base + r.size) hlt (by omega)] at hlook
    cases hlook

theorem cut (hr : r.base ≤ stop) (hr' : stop < r.base + r.size) (hv : r.attr ≠ v) :
    Reaches v stop stop (r :: rs) := by
  refine ⟨le_rfl, fun _ h h' => absurd h (by omega), fun hlook => hv ?_⟩
  rw [lookup_cons_of_mem ⟨hr, hr'⟩] at hlook
  exact some.inj hlook

theorem join (hr : r.base ≤ stop) (hv : r.attr = v)
    (h : Reaches v (max stop (r.base + r.size)) hi rs) : Reaches v stop hi (r :: rs) := by
  have hle := h.le
  refine ⟨by omega, fun x hx hx' => ?_, ?_⟩
  · by_cases hin : x < r.base + r.size
    · rw [lookup_cons_of_mem (by omega), hv]
    · rw [lookup_cons_of_not_mem (by omega)]
      exact h.right x (by omega) hx'
  · rw [lookup_cons_of_not_mem (by omega)]
    exact h.after

theorem cover (hr : r.base + r.size ≤ stop) (h : Reaches v stop hi rs) :
    Reaches v stop hi (r :: rs) := by
  have hle := h.le
  refine ⟨hle, fun x hx hx' => ?_, ?_⟩
  · rw [lookup_cons_of_not_mem (by omega)]
    exact h.right x hx hx'
  · rw [lookup_cons_of_not_mem (by omega)]
    exact h.after

theorem splice (h : Reaches v stop hi rs) (hb : ∀ r ∈ rs, base ≤ r.base) :
    Splice v base stop base hi rs where
  lo_le := le_rfl
  le_hi := h.le
  left x hx hx' := absurd hx (by omega)
  right := h.right
  before x hx hlook := by
    rw [lookup_of_lt hb (by omega)] at hlook
    cases hlook
  after := h.after

theorem splice_join (hw : Wf top (r :: rs)) (hr : r.base < base) (hr' : base ≤ r.base + r.size)
    (hv : r.attr = v) (h : Reaches v (max stop (r.base + r.size)) hi rs) (hle : r.base ≤ stop) :
    Splice v base stop r.base hi (r :: rs) where
  lo_le := hr.le
  le_hi := (h.join hle hv).le
  left x hx hx' := by rw [lookup_cons_of_mem (by omega), hv]
  right := (h.join hle hv).right
  before x hx hlook := by
    obtain ⟨-, hlt, -⟩ := wf_cons.mp hw
    rw [lookup_cons_of_not_mem (by omega),
      lookup_of_lt (m := r.base + r.size) hlt (by omega)] at hlook
    cases hlook
  after := (h.join hle hv).after

theorem splice_cut (h : Reaches v stop hi (r :: rs)) (hr : r.base < base)
    (hr' : base ≤ r.base + r.size) (hv : r.attr ≠ v) : Splice v base stop base hi (r :: rs) where
  lo_le := le_rfl
  le_hi := h.le
  left x hx hx' := absurd hx (by omega)
  right := h.right
  before x hx hlook := by
    rw [lookup_cons_of_mem (by omega)] at hlook
    exact hv (some.inj hlook)
  after := h.after

end Reaches

theorem Splice.pass (h : Splice v base stop lo hi rs) (hw : Wf top (r :: rs))
    (ha : (r :: rs).Pairwise Apart) (hlt : base < stop) (hr : r.base + r.size ≤ base)
    (hv : r.attr = v → r.base + r.size < base) :
    r.base + r.size ≤ lo ∧ Splice v base stop lo hi (r :: rs) := by
  obtain ⟨hgood, hbase, hw⟩ := wf_cons.mp hw
  have hlo := h.lo_le
  have hhi := h.le_hi
  have hle : r.base + r.size ≤ lo := by
    by_contra hgt
    have hlook := h.left lo le_rfl (by omega)
    rw [lookup_of_lt (m := r.base + r.size) hbase (by omega)] at hlook
    cases hlook
  refine ⟨hle, hlo, hhi, fun x hx hx' => ?_, fun x hx hx' => ?_, fun x hx hlook => ?_, ?_⟩
  · rw [lookup_cons_of_not_mem (by omega)]
    exact h.left x hx hx'
  · rw [lookup_cons_of_not_mem (by omega)]
    exact h.right x hx hx'
  · by_cases hin : x < r.base + r.size
    · rw [lookup_cons_of_mem (by omega)] at hlook
      have hrv := some.inj hlook
      -- then the new segment starts in one that touches the first one
      have hlo' := h.left lo le_rfl (by have := hv hrv; omega)
      obtain ⟨a, haM, hax, hav⟩ := exists_of_lookup hlo'
      have hap := (pairwise_cons.mp ha).1 a haM
      exact hap.2 (by have := hap.1; omega) (hrv.trans hav.symm)
    · rw [lookup_cons_of_not_mem (by omega)] at hlook
      exact h.before x hx hlook
  · rw [lookup_cons_of_not_mem (by omega)]
    exact h.after

theorem splice_pass (hr : r.base + r.size ≤ lo) (hpos : 0 < r.size) (hle : lo ≤ hi) :
    splice v lo hi (r :: rs) = r :: splice v lo hi rs := by
  rw [splice, below_cons_of_le hr hpos, above_cons_of_le (by omega)]
  rfl

theorem splice_of_le (hb : ∀ r ∈ rs, lo ≤ r.base) :
    splice v lo hi rs = ⟨lo, hi - lo, v⟩ :: above hi rs := by
  rw [splice, below_of_le hb, nil_append]

theorem splice_cut (hw : Wf top (r :: rs)) (hr : r.base < lo) (hr' : lo ≤ r.base + r.size) :
    splice v lo hi (r :: rs) =
      { r with size := lo - r.base } :: ⟨lo, hi - lo, v⟩ :: above hi (r :: rs) := by
  obtain ⟨-, hbase, -⟩ := wf_cons.mp hw
  rw [splice, below_cons_of_lt hr, below_of_le fun s hs => by have := hbase s hs; omega,
    show min r.size (lo - r.base) = lo - r.base by omega]
  rfl

end Cupcake.Segment
