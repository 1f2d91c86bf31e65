import Cupcake.Ashmem.Defs

/-! What pinning and unpinning do to the sorted list of one area, as a set of
pages. An empty range `[p, p - 1]` is allowed here; the list is sorted all the
same. -/

namespace Cupcake.Ashmem

open List

variable {ok : Bool} {s e : ℕ} {rs rs' : List Range} {r : Range} {p p' : Pool} {ret : Bool}

def Covers (rs : List Range) (x : ℕ) (c : Bool) : Prop :=
  ∃ r ∈ rs, r.purged = c ∧ r.pgstart ≤ x ∧ x ≤ r.pgend

theorem covers_nil (x : ℕ) (c : Bool) : ¬ Covers [] x c := by
  rintro ⟨r, hr, -⟩
  cases hr

theorem covers_cons (x : ℕ) (c : Bool) :
    Covers (r :: rs) x c ↔ (r.purged = c ∧ r.pgstart ≤ x ∧ x ≤ r.pgend) ∨ Covers rs x c := by
  simp [Covers]

theorem covers_append (x : ℕ) (c : Bool) :
    Covers (rs ++ rs') x c ↔ Covers rs x c ∨ Covers rs' x c := by
  simp only [Covers, mem_append, or_and_right, exists_or]

/-- The list runs downwards, without overlap. -/
structure Sorted (rs : List Range) : Prop where
  desc : rs.Pairwise fun a b => b.pgend < a.pgstart
  wf : ∀ r ∈ rs, r.pgstart ≤ r.pgend + 1

theorem sorted_nil : Sorted [] := ⟨.nil, by simp⟩

theorem sorted_cons :
    Sorted (r :: rs) ↔
      (∀ x ∈ rs, x.pgend < r.pgstart) ∧ r.pgstart ≤ r.pgend + 1 ∧ Sorted rs := by
  constructor
  · rintro ⟨hd, hw⟩
    rw [pairwise_cons] at hd
    exact ⟨hd.1, hw r (by simp), hd.2, fun x hx => hw x (by simp [hx])⟩
  · rintro ⟨h₁, h₂, h₃, h₄⟩
    refine ⟨pairwise_cons.mpr ⟨h₁, h₃⟩, ?_⟩
    intro x hx
    rcases mem_cons.mp hx with rfl | hx
    · exact h₂
    · exact h₄ x hx

theorem sorted_append (h : Sorted rs) (h' : Sorted rs')
    (hlt : ∀ a ∈ rs, ∀ b ∈ rs', b.pgend < a.pgstart) : Sorted (rs ++ rs') := by
  refine ⟨pairwise_append.mpr ⟨h.desc, h'.desc, hlt⟩, ?_⟩
  intro r hr
  rcases mem_append.mp hr with hr | hr
  · exact h.wf r hr
  · exact h'.wf r hr

theorem Sorted.sublist (h : Sorted rs) (hs : rs'.Sublist rs) : Sorted rs' :=
  ⟨h.desc.sublist hs, fun r hr => h.wf r (hs.subset hr)⟩

theorem not_covers_of_forall_lt {b x : ℕ} {c : Bool} (h : ∀ r ∈ rs, r.pgend < b) (hx : b ≤ x) :
    ¬ Covers rs x c := by
  rintro ⟨r, hr, -, -, hle⟩
  have := h r hr
  omega

/-! ## Pinning -/

/-- What the body of the loop of `ashmem_pin` makes of one range that does not end
before the request: the pieces left of it, and whether it overlaps the request. -/
inductive Cut (ok : Bool) (s e : ℕ) (r : Range) (p : Pool) : List Range → Bool → Pool → Prop
  | nuke (h₁ : s ≤ r.pgstart) (h₂ : r.pgend ≤ e) : Cut ok s e r p [] true (rangeDel p r)
  | front (hin : r.pgstart ≤ s ∨ r.pgstart ≤ e) (h₁ : s ≤ r.pgstart) (h₂ : e < r.pgend) :
      Cut ok s e r p [(rangeShrink p r (e + 1) r.pgend).1] true (rangeShrink p r (e + 1) r.pgend).2
  | rear (h₁ : r.pgstart < s) (h₂ : r.pgend ≤ e) :
      Cut ok s e r p [(rangeShrink p r r.pgstart (s - 1)).1] true
        (rangeShrink p r r.pgstart (s - 1)).2
  | split {new : Range} {p₁ : Pool} (h₁ : r.pgstart < s) (h₂ : e < r.pgend)
      (ha : rangeAlloc ok p r.purged (e + 1) r.pgend = some (new, p₁)) :
      Cut ok s e r p [new, (rangeShrink p₁ r r.pgstart (s - 1)).1] true
        (rangeShrink p₁ r r.pgstart (s - 1)).2
  | splitFail (h₁ : r.pgstart < s) (h₂ : e < r.pgend) (ha : ok = false) :
      Cut ok s e r p [(rangeShrink p r r.pgstart (s - 1)).1] true
        (rangeShrink p r r.pgstart (s - 1)).2
  | skip (hout : ¬ r.pageRangeInRange s e) : Cut ok s e r p [r] false p

/-- The runs of the loop of `ashmem_pin`. It stops at the first range below the
request, and after a range that reaches below it. -/
inductive PinRun (ok : Bool) (s e : ℕ) : List Range → Pool → List Range → Bool → Pool → Prop
  | nil {p : Pool} : PinRun ok s e [] p [] false p
  | stop {r : Range} {rs : List Range} {p : Pool} (h : r.pgend < s) :
      PinRun ok s e (r :: rs) p (r :: rs) false p
  | last {r : Range} {rs ps : List Range} {p p' : Pool} (hn : s ≤ r.pgend) (h : r.pgstart < s)
      (hc : Cut ok s e r p ps true p') : PinRun ok s e (r :: rs) p (ps ++ rs) r.purged p'
  | more {r : Range} {rs ps rs' : List Range} {p p₁ p' : Pool} {hit ret : Bool}
      (hn : s ≤ r.pgend) (hc : Cut ok s e r p ps hit p₁) (h : PinRun ok s e rs p₁ rs' ret p') :
      PinRun ok s e (r :: rs) p (ps ++ rs') (hit && r.purged || ret) p'

theorem ashmemPin_run (ok : Bool) (s e : ℕ) (rs : List Range) (p : Pool) :
    PinRun ok s e rs p (ashmemPin ok s e rs p).1 (ashmemPin ok s e rs p).2.1
      (ashmemPin ok s e rs p).2.2 := by
  induction rs generalizing p with
  | nil => exact .nil
  | cons r rs ih =>
    unfold ashmemPin
    simp only [Range.beforePage, Range.subsumesRange]
    split_ifs with hb hin hsub hfront hrear
    · exact .stop hb
    · exact .more (by omega) (.nuke hsub.1 hsub.2) (ih _)
    · refine .more (by omega) (.front ?_ hfront (by omega)) (ih _)
      simp only [Range.pageRangeInRange, Range.pageInRange, Range.subsumesRange] at hin
      omega
    · exact .more (by omega) (.rear (by omega) hrear) (ih _)
    · cases ok with
      | false => exact .last (by omega) (by omega) (.splitFail (by omega) (by omega) rfl)
      | true => exact .last (by omega) (by omega) (.split (by omega) (by omega) rfl)
    · exact .more (by omega) (.skip hin) (ih _)

theorem rangeAlloc_eq_some {purged : Bool} (h : rangeAlloc ok p purged s e = some (r, p')) :
    r = ⟨p.nextId, s, e, purged⟩ := by
  unfold rangeAlloc at h
  split_ifs at h
  exact (Prod.ext_iff.mp (Option.some.inj h)).1.symm

theorem lt_pgstart_of_not_inRange (hn : s ≤ r.pgend) (hout : ¬ r.pageRangeInRange s e) :
    e < r.pgstart := by
  simp only [Range.pageRangeInRange, Range.pageInRange, Range.subsumesRange] at hout
  omega

namespace Cut

variable {ps : List Range} {hit : Bool}

theorem pieces (h : Cut ok s e r p ps hit p') (hn : s ≤ r.pgend) (hse : s ≤ e + 1)
    (hr : r.pgstart ≤ r.pgend + 1) :
    Sorted ps ∧ ∀ x ∈ ps, r.pgstart ≤ x.pgstart ∧ x.pgend ≤ r.pgend ∧
      (r.pgstart ≤ r.pgend → x.pgstart ≤ x.pgend) := by
  cases h with
  | nuke => exact ⟨sorted_nil, by simp⟩
  | front hin h₁ h₂ => simp [rangeShrink, sorted_cons, sorted_nil]; omega
  | rear h₁ h₂ => simp [rangeShrink, sorted_cons, sorted_nil]; omega
  | split h₁ h₂ ha =>
    obtain rfl := rangeAlloc_eq_some ha
    simp [rangeShrink, sorted_cons, sorted_nil]; omega
  | splitFail h₁ h₂ => simp [rangeShrink, sorted_cons, sorted_nil]; omega
  | skip => simp [sorted_cons, sorted_nil]; omega

theorem covers (h : Cut true s e r p ps hit p') (hn : s ≤ r.pgend) (hse : s ≤ e + 1)
    (x : ℕ) (c : Bool) :
    Covers ps x c ↔ (r.purged = c ∧ r.pgstart ≤ x ∧ x ≤ r.pgend) ∧ ¬ (s ≤ x ∧ x ≤ e) := by
  by_cases hc : r.purged = c
  · cases h with
    | nuke h₁ h₂ => simp [covers_nil]; omega
    | front hin h₁ h₂ => simp [covers_cons, covers_nil, rangeShrink, hc]; omega
    | rear h₁ h₂ => simp [covers_cons, covers_nil, rangeShrink, hc]; omega
    | split h₁ h₂ ha =>
      obtain rfl := rangeAlloc_eq_some ha
      simp [covers_cons, covers_nil, rangeShrink, hc]; omega
    | splitFail h₁ h₂ ha => cases ha
    | skip hout =>
      have := lt_pgstart_of_not_inRange hn hout
      simp [covers_cons, covers_nil, hc]; omega
  · -- the pieces keep the flag of the range
    cases h with
    | split h₁ h₂ ha =>
      obtain rfl := rangeAlloc_eq_some ha
      simp [covers_cons, covers_nil, rangeShrink, hc]
    | _ => simp [covers_cons, covers_nil, rangeShrink, hc]

theorem hit_of_mem (h : Cut ok s e r p ps hit p') (hn : s ≤ r.pgend) {x : ℕ}
    (hx : s ≤ x ∧ x ≤ e) (hr : r.pgstart ≤ x ∧ x ≤ r.pgend) : hit = true := by
  cases h with
  | skip hout =>
    have := lt_pgstart_of_not_inRange hn hout
    omega
  | _ => rfl

end Cut

namespace PinRun

theorem sub (h : PinRun ok s e rs p rs' ret p') (hse : s ≤ e + 1)
    (hwf : ∀ r ∈ rs, r.pgstart ≤ r.pgend + 1) :
    ∀ x ∈ rs', ∃ r ∈ rs, r.pgstart ≤ x.pgstart ∧ x.pgend ≤ r.pgend ∧
      (r.pgstart ≤ r.pgend → x.pgstart ≤ x.pgend) := by
  induction h with
  | nil => simp
  | stop => exact fun x hx => ⟨x, hx, le_rfl, le_rfl, id⟩
  | @last r _ _ _ _ hn _ hc =>
    intro x hx
    rcases mem_append.mp hx with hx | hx
    · exact ⟨r, by simp, (hc.pieces hn hse (hwf r (by simp))).2 x hx⟩
    · exact ⟨x, by simp [hx], le_rfl, le_rfl, id⟩
  | @more r _ _ _ _ _ _ _ _ hn hc _ ih =>
    intro x hx
    rcases mem_append.mp hx with hx | hx
    · exact ⟨r, by simp, (hc.pieces hn hse (hwf r (by simp))).2 x hx⟩
    · obtain ⟨y, hy, hxy⟩ := ih (fun y hy => hwf y (by simp [hy])) x hx
      exact ⟨y, by simp [hy], hxy⟩

theorem sorted (h : PinRun ok s e rs p rs' ret p') (hse : s ≤ e + 1) (hs : Sorted rs) :
    Sorted rs' := by
  induction h with
  | nil => exact hs
  | stop => exact hs
  | last hn _ hc =>
    obtain ⟨hlt, hwf, hs⟩ := sorted_cons.mp hs
    obtain ⟨hps, hin⟩ := hc.pieces hn hse hwf
    refine sorted_append hps hs ?_
    intro a ha b hb
    exact lt_of_lt_of_le (hlt b hb) (hin a ha).1
  | more hn hc hrun ih =>
    obtain ⟨hlt, hwf, hs⟩ := sorted_cons.mp hs
    obtain ⟨hps, hin⟩ := hc.pieces hn hse hwf
    refine sorted_append hps (ih hs) ?_
    intro a ha b hb
    obtain ⟨y, hy, -, hyb, -⟩ := hrun.sub hse hs.wf b hb
    exact lt_of_le_of_lt hyb (lt_of_lt_of_le (hlt y hy) (hin a ha).1)

theorem covers (h : PinRun true s e rs p rs' ret p') (hse : s ≤ e + 1) (hs : Sorted rs)
    (x : ℕ) (c : Bool) : Covers rs' x c ↔ Covers rs x c ∧ ¬ (s ≤ x ∧ x ≤ e) := by
  induction h with
  | nil => simp [covers_nil]
  | stop hlt =>
    obtain ⟨hrs, hwf, -⟩ := sorted_cons.mp hs
    refine ⟨fun h => ⟨h, ?_⟩, fun h => h.1⟩
    rintro ⟨hx, -⟩
    refine not_covers_of_forall_lt ?_ hx h
    intro y hy
    rcases mem_cons.mp hy with rfl | hy
    · exact hlt
    · have := hrs y hy
      omega
  | last hn hlt hc =>
    obtain ⟨hrs, hwf, -⟩ := sorted_cons.mp hs
    rw [covers_append, covers_cons, hc.covers hn hse, or_and_right]
    refine or_congr Iff.rfl ⟨fun h => ⟨h, ?_⟩, fun h => h.1⟩
    rintro ⟨hx, -⟩
    refine not_covers_of_forall_lt ?_ hx h
    intro y hy
    have := hrs y hy
    omega
  | more hn hc hrun ih =>
    obtain ⟨hrs, hwf, hs⟩ := sorted_cons.mp hs
    rw [covers_append, covers_cons, hc.covers hn hse, ih hs, or_and_right]

theorem ret_of_covers (h : PinRun ok s e rs p rs' ret p') (hs : Sorted rs) {x : ℕ}
    (hx : s ≤ x ∧ x ≤ e) (hcov : Covers rs x true) : ret = true := by
  induction h with
  | nil => exact absurd hcov (covers_nil _ _)
  | stop hlt =>
    obtain ⟨hrs, hwf, -⟩ := sorted_cons.mp hs
    refine absurd hcov (not_covers_of_forall_lt ?_ hx.1)
    intro y hy
    rcases mem_cons.mp hy with rfl | hy
    · exact hlt
    · have := hrs y hy
      omega
  | last hn hlt hc =>
    obtain ⟨hrs, hwf, -⟩ := sorted_cons.mp hs
    rcases (covers_cons _ _).mp hcov with hr | hr
    · exact hr.1
    · refine absurd hr (not_covers_of_forall_lt ?_ hx.1)
      intro y hy
      have := hrs y hy
      omega
  | more hn hc hrun ih =>
    rcases (covers_cons _ _).mp hcov with hr | hr
    · simp [hc.hit_of_mem hn hx hr.2, hr.1]
    · simp [ih (sorted_cons.mp hs).2.2 hr]

end PinRun

/-! ## Unpinning -/

/-- The runs of `ashmem_unpin`: the restarts end at an insertion point or at a
range that covers the request. -/
inductive UnpinRun (ok : Bool) :
    ℕ → ℕ → Bool → List Range → Pool → List Range → Int → Pool → Prop
  | insert {s e : ℕ} {purged : Bool} {pre post : List Range} {r : Range} {p p' : Pool}
      (hpre : ∀ x ∈ pre, s ≤ x.pgend ∧ ¬ x.pageRangeInRange s e)
      (hpost : ∀ x ∈ post.head?, x.pgend < s)
      (ha : rangeAlloc ok p purged s e = some (r, p')) :
      UnpinRun ok s e purged (pre ++ post) p (pre ++ r :: post) 0 p'
  | fail {s e : ℕ} {purged : Bool} {rs : List Range} {p : Pool} (hok : ok = false) :
      UnpinRun ok s e purged rs p rs (-12) p
  | covered {s e : ℕ} {purged : Bool} {rs : List Range} {r : Range} {p : Pool}
      (hr : r ∈ rs) (h₁ : r.pgstart ≤ s) (h₂ : e ≤ r.pgend) (hn : s ≤ r.pgend) :
      UnpinRun ok s e purged rs p rs 0 p
  | merge {s e : ℕ} {purged : Bool} {pre post rs' : List Range} {r : Range} {p p' : Pool} {ret : Int}
      (hn : s ≤ r.pgend) (hin : r.pageRangeInRange s e) (hout : ¬ r.subsumedByRange s e)
      (h : UnpinRun ok (min r.pgstart s) (max r.pgend e) (purged || r.purged) (pre ++ post)
        (rangeDel p r) rs' ret p') :
      UnpinRun ok s e purged (pre ++ r :: post) p rs' ret p'

def UnpinScan.Spec (s e : ℕ) (rs : List Range) : UnpinScan → Prop
  | .insert pre post => rs = pre ++ post ∧ (∀ x ∈ pre, s ≤ x.pgend ∧ ¬ x.pageRangeInRange s e) ∧
      ∀ x ∈ post.head?, x.pgend < s
  | .covered => ∃ r ∈ rs, s ≤ r.pgend ∧ r.subsumedByRange s e
  | .merge pre r post => rs = pre ++ r :: post ∧ s ≤ r.pgend ∧ r.pageRangeInRange s e ∧
      ¬ r.subsumedByRange s e

theorem unpinScan_spec (s e : ℕ) (rs : List Range) : (unpinScan s e rs).Spec s e rs := by
  induction rs with
  | nil => simp [unpinScan, UnpinScan.Spec]
  | cons r rs ih =>
    rw [unpinScan]
    by_cases hb : r.beforePage s
    · rw [if_pos hb]
      exact ⟨rfl, by simp, by simpa [Range.beforePage] using hb⟩
    rw [if_neg hb]
    rw [Range.beforePage] at hb
    by_cases hsub : r.subsumedByRange s e
    · rw [if_pos hsub]
      exact ⟨r, by simp, by omega, hsub⟩
    rw [if_neg hsub]
    by_cases hin : r.pageRangeInRange s e
    · rw [if_pos hin]
      exact ⟨rfl, by omega, hin, hsub⟩
    · rw [if_neg hin]
      generalize unpinScan s e rs = o at ih
      cases o with
      | insert pre post =>
        obtain ⟨rfl, hpre, hpost⟩ := ih
        refine ⟨rfl, ?_, hpost⟩
        intro x hx
        rcases mem_cons.mp hx with rfl | hx
        · exact ⟨by omega, hin⟩
        · exact hpre x hx
      | covered =>
        obtain ⟨x, hx, h⟩ := ih
        exact ⟨x, by simp [hx], h⟩
      | merge pre x post =>
        obtain ⟨rfl, h⟩ := ih
        exact ⟨rfl, h⟩

theorem ashmemUnpin_run (ok : Bool) (fuel s e : ℕ) (purged : Bool) (rs : List Range) (p : Pool)
    (hfuel : rs.length ≤ fuel) :
    ∃ rs' ret p', ashmemUnpin ok fuel s e purged rs p = some (rs', ret, p') ∧
      UnpinRun ok s e purged rs p rs' ret p' := by
  induction fuel generalizing s e purged rs p with
  | zero =>
    obtain rfl : rs = [] := eq_nil_of_length_eq_zero (Nat.le_zero.mp hfuel)
    cases ok with
    | true => exact ⟨_, _, _, rfl, UnpinRun.insert (by simp : ∀ x ∈ ([] : List Range), _) (by simp) rfl⟩
    | false => exact ⟨_, _, _, rfl, .fail rfl⟩
  | succ fuel ih =>
    have hscan := unpinScan_spec s e rs
    unfold ashmemUnpin
    generalize unpinScan s e rs = o at hscan
    cases o with
    | insert pre post =>
      obtain ⟨rfl, hpre, hpost⟩ := hscan
      cases ok with
      | true => exact ⟨_, _, _, rfl, .insert hpre hpost rfl⟩
      | false => exact ⟨_, _, _, rfl, .fail rfl⟩
    | covered =>
      obtain ⟨r, hr, hn, h₁, h₂⟩ := hscan
      exact ⟨_, _, _, rfl, .covered hr h₁ h₂ hn⟩
    | merge pre r post =>
      obtain ⟨rfl, hn, hin, hout⟩ := hscan
      obtain ⟨rs', ret, p', heq, hrun⟩ := ih (min r.pgstart s) (max r.pgend e)
        (purged || r.purged) (pre ++ post) (rangeDel p r)
        (by simp only [length_append, length_cons] at hfuel ⊢; omega)
      exact ⟨rs', ret, p', heq, .merge hn hin hout hrun⟩

namespace UnpinRun

variable {purged : Bool} {ret : Int}

theorem sorted (h : UnpinRun ok s e purged rs p rs' ret p') (hse : s ≤ e + 1) (hs : Sorted rs) :
    Sorted rs' := by
  induction h with
  | fail => exact hs
  | covered => exact hs
  | merge _ _ _ _ ih => exact ih (by omega) (hs.sublist (by simp))
  | @insert s e purged pre post r p p' hpre hpost ha =>
    obtain rfl := rangeAlloc_eq_some ha
    have hpost' : ∀ x ∈ post, x.pgend < s := by
      have hs' := hs.sublist (sublist_append_right pre post)
      cases post with
      | nil => simp
      | cons y ys =>
        obtain ⟨hlt, hwf, -⟩ := sorted_cons.mp hs'
        have hy : y.pgend < s := hpost y rfl
        intro x hx
        rcases mem_cons.mp hx with rfl | hx
        · exact hy
        · have := hlt x hx
          omega
    refine sorted_append (hs.sublist (sublist_append_left ..))
      (sorted_cons.mpr ⟨hpost', hse, hs.sublist (sublist_append_right ..)⟩) ?_
    intro a ha b hb
    have hab := lt_pgstart_of_not_inRange (hpre a ha).1 (hpre a ha).2
    rcases mem_cons.mp hb with rfl | hb
    · exact hab
    · exact (pairwise_append.mp hs.desc).2.2 a ha b hb

theorem forall_mem (h : UnpinRun ok s e purged rs p rs' ret p') {P : ℕ → ℕ → Prop}
    (hP : ∀ a b c d, P a b → P c d → P (min a c) (max b d)) (hreq : P s e)
    (hrs : ∀ r ∈ rs, P r.pgstart r.pgend) : ∀ r ∈ rs', P r.pgstart r.pgend := by
  induction h with
  | fail => exact hrs
  | covered => exact hrs
  | insert hpre hpost ha =>
    obtain rfl := rangeAlloc_eq_some ha
    intro x hx
    simp only [mem_append, mem_cons] at hx
    rcases hx with hx | rfl | hx
    · exact hrs x (by simp [hx])
    · exact hreq
    · exact hrs x (by simp [hx])
  | @merge _ _ _ _ _ _ r _ _ _ _ _ _ _ ih =>
    exact ih (hP _ _ _ _ (hrs r (by simp)) hreq) fun x hx => hrs x (by
      simp only [mem_append, mem_cons] at hx ⊢
      tauto)

section

variable (h : UnpinRun true s e purged rs p rs' ret p')

include h

theorem covers (hse : s ≤ e + 1) (x : ℕ) :
    (∃ c, Covers rs' x c) ↔ (∃ c, Covers rs x c) ∨ (s ≤ x ∧ x ≤ e) := by
  induction h with
  | fail hok => cases hok
  | @covered s e purged rs r p hr h₁ h₂ hn =>
    refine ⟨Or.inl, ?_⟩
    rintro (h | h)
    · exact h
    · exact ⟨r.purged, r, hr, rfl, by omega, by omega⟩
  | @insert s e purged pre post r p p' hpre hpost ha =>
    obtain rfl := rangeAlloc_eq_some ha
    simp only [covers_append, covers_cons, exists_or, exists_and_right, exists_eq', true_and]
    rw [or_assoc, or_comm (a := s ≤ x ∧ x ≤ e)]
  | @merge s e purged pre post rs' r p p' ret hn hin hout _ ih =>
    rw [ih (by omega)]
    have hhull : (min r.pgstart s ≤ x ∧ x ≤ max r.pgend e) ↔
        (r.pgstart ≤ x ∧ x ≤ r.pgend) ∨ (s ≤ x ∧ x ≤ e) := by
      simp only [Range.pageRangeInRange, Range.pageInRange, Range.subsumesRange,
        Range.subsumedByRange] at hin hout
      omega
    simp only [hhull, covers_append, covers_cons, exists_or, exists_and_right, exists_eq', true_and]
    rw [← or_assoc, or_assoc (b := ∃ c, Covers post x c),
      or_comm (a := ∃ c, Covers post x c)]

theorem covers_of_purged {x : ℕ} (hx : s ≤ x ∧ x ≤ e) (hp : purged = true)
    (hout : ∀ c, ¬ Covers rs x c) :
    Covers rs' x true := by
  induction h with
  | fail hok => cases hok
  | @covered s e purged rs r p hr h₁ h₂ hn =>
    exact absurd ⟨r, hr, rfl, by omega, by omega⟩ (hout r.purged)
  | @insert s e purged pre post r p p' hpre hpost ha =>
    obtain rfl := rangeAlloc_eq_some ha
    exact ⟨⟨p.nextId, s, e, purged⟩, by simp, hp, hx⟩
  | merge hn hin hsub _ ih =>
    refine ih (by omega) (by simp [hp]) ?_
    intro c hc
    refine hout c ?_
    rw [covers_append] at hc
    rw [covers_append, covers_cons]
    exact hc.imp_right Or.inr

theorem covers_true (hs : Sorted rs) {x : ℕ} (hx : Covers rs x true) : Covers rs' x true := by
  induction h with
  | fail hok => cases hok
  | covered => exact hx
  | insert hpre hpost ha =>
    rw [covers_append] at hx
    rw [covers_append, covers_cons]
    exact hx.imp_right Or.inr
  | @merge s e purged pre post rs' r p p' ret hn hin hsub hrun ih =>
    rw [covers_append, covers_cons] at hx
    rcases hx with hx | hx | hx
    · exact ih (hs.sublist (by simp)) ((covers_append ..).mpr (Or.inl hx))
    · -- the page was in the absorbed range, and in no other
      refine hrun.covers_of_purged (by omega) (by simp [hx.1]) ?_
      rintro c ⟨y, hy, -, hy₁, hy₂⟩
      have hdesc := pairwise_append.mp hs.desc
      rcases mem_append.mp hy with hy | hy
      · have := hdesc.2.2 y hy r (by simp)
        omega
      · have := (pairwise_cons.mp hdesc.2.1).1 y hy
        omega
    · exact ih (hs.sublist (by simp)) ((covers_append ..).mpr (Or.inr hx))

end

end UnpinRun

/-! ## The pin status -/

theorem ashmemGetPinStatus_iff (hse : s ≤ e) (hs : Sorted rs)
    (hne : ∀ r ∈ rs, r.pgstart ≤ r.pgend) :
    ashmemGetPinStatus s e rs = true ↔ ∃ x c, Covers rs x c ∧ s ≤ x ∧ x ≤ e := by
  induction rs with
  | nil => simp [ashmemGetPinStatus, covers_nil]
  | cons r rs ih =>
    obtain ⟨hlt, hwf, hs'⟩ := sorted_cons.mp hs
    have hr := hne r (by simp)
    rw [ashmemGetPinStatus]
    by_cases hb : r.beforePage s
    · rw [if_pos hb]
      have hall : ∀ y ∈ r :: rs, y.pgend < s := by
        intro y hy
        rw [Range.beforePage] at hb
        rcases mem_cons.mp hy with rfl | hy
        · exact hb
        · have := hlt y hy
          omega
      simp only [Bool.false_eq_true, false_iff, not_exists, not_and]
      exact fun x c hc hsx => absurd hc (not_covers_of_forall_lt hall hsx)
    rw [if_neg hb]
    rw [Range.beforePage] at hb
    by_cases hin : r.pageRangeInRange s e
    · rw [if_pos hin]
      simp only [Range.pageRangeInRange, Range.pageInRange, Range.subsumesRange] at hin
      simp only [true_iff]
      rcases Nat.lt_or_ge s r.pgstart with hsr | hsr
      · exact ⟨r.pgstart, r.purged, ⟨r, by simp, rfl, le_rfl, hr⟩, by omega, by omega⟩
      · exact ⟨s, r.purged, ⟨r, by simp, rfl, hsr, by omega⟩, le_rfl, hse⟩
    · rw [if_neg hin, ih hs' fun y hy => hne y (by simp [hy])]
      have hgt := lt_pgstart_of_not_inRange (by omega) hin
      refine exists_congr fun x => exists_congr fun c => and_congr_left fun hx => ?_
      rw [covers_cons, or_iff_right]
      rintro ⟨-, h₁, -⟩
      omega

end Cupcake.Ashmem
