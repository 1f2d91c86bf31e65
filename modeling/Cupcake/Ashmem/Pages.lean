import Cupcake.Ashmem.Invariant

/-! What the ranges stand for, page by page: which pages are unpinned, and which of
these lost their content. The driver's lists refine these two sets. -/

namespace Cupcake.Ashmem

open List

variable {s e : ℕ} {rs rs' : List Range} {r : Range} {p p' : Pool} {a : Area} {st st' : State}
  {id : AreaId}

/-- The pages of one area. A page stops being punched when it is pinned, which is
when its owner is told. -/
@[ext] structure PageSets where
  unpinned : Set ℕ
  punched : Set ℕ

namespace PageSets

def fresh : PageSets := ⟨∅, ∅⟩

def unpin (g : PageSets) (s e : ℕ) : PageSets := ⟨g.unpinned ∪ Set.Icc s e, g.punched⟩

def pin (g : PageSets) (s e : ℕ) : PageSets := ⟨g.unpinned \ Set.Icc s e, g.punched \ Set.Icc s e⟩

def punch (g : PageSets) (holes : List (ℕ × ℕ)) : PageSets where
  unpinned := g.unpinned
  punched := g.punched ∪ {x | ∃ h ∈ holes, h.1 ≤ x * pageSize ∧ (x + 1) * pageSize ≤ h.2}

theorem punch_nil (g : PageSets) : g.punch [] = g := by
  ext <;> simp [punch]

theorem punch_punch (g : PageSets) (l l' : List (ℕ × ℕ)) :
    (g.punch l).punch l' = g.punch (l ++ l') := by
  ext x
  · rfl
  · simp only [punch, Set.mem_union, Set.mem_ofPred_eq, mem_append, or_and_right, exists_or,
      or_assoc]

end PageSets

def newHoles (st st' : State) (id : AreaId) : List (ℕ × ℕ) :=
  ((st'.area id).elim [] (·.holes)).drop ((st.area id).elim [] (·.holes)).length

def follow (st : State) (st' : State) (g : AreaId → PageSets) : Op → AreaId → PageSets
  | .openArea id => if (st.area id).isSome then g else Function.update g id .fresh
  | .pinUnpin id cmd req copyOk _ =>
    match st.area id with
    | none => g
    | some a =>
      if pinGranted copyOk req a then
        match cmd with
        | .pin => Function.update g id ((g id).pin (pgStart req) (pgEnd a.size req))
        | .unpin => Function.update g id ((g id).unpin (pgStart req) (pgEnd a.size req))
        | .getPinStatus => g
      else g
  | .shrinkScan _ _ _ => fun id => (g id).punch (newHoles st st' id)
  | _ => g

def pageStep (x : State × (AreaId → PageSets)) (op : Op) : Option (State × (AreaId → PageSets)) :=
  (step x.1 op).map fun st' => (st', follow x.1 st' x.2 op)

def pageInit : State × (AreaId → PageSets) := (init, fun _ => .fresh)

/-! ## The lists refine the pages -/

theorem exists_covers {x : ℕ} :
    (∃ c, Covers rs x c) ↔ ∃ r ∈ rs, r.pgstart ≤ x ∧ x ≤ r.pgend :=
  ⟨fun ⟨_, r, hr, _, hx⟩ => ⟨r, hr, hx⟩, fun ⟨r, hr, hx⟩ => ⟨r.purged, r, hr, rfl, hx⟩⟩

structure Agree (a : Area) (g : PageSets) : Prop where
  unpinned : ∀ x, x ∈ g.unpinned ↔ ∃ c, Covers a.unpinned x c
  punched : ∀ x ∈ g.punched, Covers a.unpinned x true

def Refines (x : State × (AreaId → PageSets)) : Prop :=
  Inv x.1 ∧ ∀ a ∈ x.1.areas, Agree a (x.2 a.id)

theorem Agree.fresh {size : ℕ} {file : Bool} {holes : List (ℕ × ℕ)} :
    Agree ⟨id, size, file, [], holes⟩ .fresh :=
  ⟨by simp [PageSets.fresh, covers_nil], by simp [PageSets.fresh]⟩

section

variable {g : PageSets} (h : Agree a g) (hs : Sorted a.unpinned) (hse : s ≤ e + 1)

include h hs hse

theorem Agree.pin {ret : Bool} (hrun : PinRun true s e a.unpinned p rs ret p') :
    Agree { a with unpinned := rs } (g.pin s e) where
  unpinned := by
    intro x
    simp only [hrun.covers hse hs, PageSets.pin, Set.mem_sdiff, Set.mem_Icc, h.unpinned,
      exists_and_right]
  punched := by
    rintro x ⟨hx, hout⟩
    exact (hrun.covers hse hs x true).mpr ⟨h.punched x hx, hout⟩

theorem Agree.unpin {ret : Int} (hrun : UnpinRun true s e false a.unpinned p rs ret p') :
    Agree { a with unpinned := rs } (g.unpin s e) where
  unpinned := by
    intro x
    simp only [hrun.covers hse, PageSets.unpin, Set.mem_union, Set.mem_Icc, h.unpinned]
  punched := fun x hx => hrun.covers_true hs (h.punched x hx)

end

/-! ## Scans -/

theorem covers_map_markPurged {k x : ℕ} {c : Bool} :
    Covers (rs.map (markPurged k)) x c ↔
      ∃ r ∈ rs, (markPurged k r).purged = c ∧ r.pgstart ≤ x ∧ x ≤ r.pgend := by
  have hpages (r : Range) : ((markPurged k r).pgstart ≤ x ∧ x ≤ (markPurged k r).pgend) ↔
      (r.pgstart ≤ x ∧ x ≤ r.pgend) := by
    unfold markPurged
    split_ifs <;> rfl
  simp [Covers, hpages]

theorem mem_hole {x : ℕ} (hr : r.pgstart ≤ r.pgend) (hlow : r.pgend < 2 ^ 20)
    (hx : r.hole.1 ≤ x * pageSize ∧ (x + 1) * pageSize ≤ r.hole.2) :
    r.pgstart ≤ x ∧ x ≤ r.pgend := by
  simp only [Range.hole, pageSize] at hx
  rw [wadd_of_lt (by omega)] at hx
  omega

theorem Agree.purge {g : PageSets} (h : Agree a g) (hok : AreaOk a) (hr : r ∈ a.unpinned) :
    Agree { a with unpinned := a.unpinned.map (markPurged r.id), holes := a.holes ++ [r.hole] }
      (g.punch [r.hole]) where
  unpinned := by
    intro x
    refine (h.unpinned x).trans ?_
    simp only [covers_map_markPurged, exists_covers]
    exact ⟨fun ⟨y, hy, hx⟩ => ⟨_, y, hy, rfl, hx⟩, fun ⟨_, y, hy, _, hx⟩ => ⟨y, hy, hx⟩⟩
  punched := by
    intro x hx
    rw [covers_map_markPurged]
    simp only [PageSets.punch, Set.mem_union, Set.mem_ofPred_eq, mem_singleton,
      exists_eq_left] at hx
    rcases hx with hx | hx
    · obtain ⟨y, hy, hc, hxy⟩ := h.punched x hx
      refine ⟨y, hy, ?_, hxy⟩
      unfold markPurged
      split_ifs
      · rfl
      · exact hc
    · exact ⟨r, hr, by simp [markPurged], mem_hole (hok.nonempty r hr) (hok.low r hr) hx⟩

theorem Inv.map_markPurged_of_ne {b : Area} (h : Inv st) (ha : a ∈ st.areas) (hb : b ∈ st.areas)
    (hab : b.id ≠ a.id) (hr : r ∈ a.unpinned) : b.unpinned.map (markPurged r.id) = b.unpinned := by
  obtain ⟨pre, post, heq⟩ := append_of_mem ha
  have hb' : b ∈ pre ++ post := by
    rw [heq] at hb
    simp only [mem_append, mem_cons] at hb ⊢
    rcases hb with hb | rfl | hb
    · exact Or.inl hb
    · exact absurd rfl hab
    · exact Or.inr hb
  have hn := h.tracks.nodup
  rw [State.ranges, heq, ((flatMap_unpinned_perm pre post a).map (·.id)).nodup_iff,
    map_append, nodup_append] at hn
  refine (map_congr_left fun x hx => ?_).trans (map_id _)
  refine if_neg fun hxr => hn.2.2 r.id (mem_map_of_mem hr) x.id ?_ hxr.symm
  exact mem_map_of_mem (mem_flatMap.mpr ⟨b, hb', hx⟩)

theorem PurgeRun.agree (hrun : PurgeRun st st') (h : Inv st) :
    ∀ b' ∈ st'.areas, ∃ b ∈ st.areas, b.id = b'.id ∧ ∃ new, b'.holes = b.holes ++ new ∧
      ∀ g, Agree b g → Agree b' (g.punch new) := by
  induction hrun with
  | done => exact fun b hb => ⟨b, hb, rfl, [], by simp, fun g hg => by rwa [PageSets.punch_nil]⟩
  | @purge st st' a r ha hr hon _ ih =>
    intro b' hb'
    obtain ⟨b₁, hb₁, hid₁, new, hnew, hag⟩ := ih (h.purge ha hr hon) b' hb'
    obtain ⟨b, hb, rfl⟩ := mem_map.mp hb₁
    by_cases hba : b.id = a.id
    · obtain rfl : b = a := inj_on_of_nodup_map h.ids hb ha hba
      refine ⟨b, hb, hid₁, r.hole :: new, ?_, ?_⟩
      · rw [hnew]
        simp
      · intro g hg
        have hpurge := hag _ (by simpa using hg.purge (h.areas b hb) hr)
        rwa [PageSets.punch_punch] at hpurge
    · refine ⟨b, hb, hid₁, new, ?_, ?_⟩
      · rw [hnew]
        simp [hba]
      · intro g hg
        refine hag g ?_
        simpa [hba, h.map_markPurged_of_ne ha hb hba hr] using hg

theorem Inv.area_eq (h : Inv st) (ha : a ∈ st.areas) : st.area a.id = some a := by
  have hsome : (st.area a.id).isSome := List.find?_isSome.mpr ⟨a, ha, by simp⟩
  obtain ⟨b, hb⟩ := Option.isSome_iff_exists.mp hsome
  have hid : b.id = a.id := by simpa using List.find?_some hb
  rw [hb, inj_on_of_nodup_map h.ids (State.area_mem hb) ha hid]

theorem PurgeRun.refines {g : AreaId → PageSets} (hrun : PurgeRun st st') (h : Refines (st, g)) :
    Refines (st', fun id => (g id).punch (newHoles st st' id)) := by
  have hinv' := hrun.inv h.1
  refine ⟨hinv', ?_⟩
  intro b' hb'
  obtain ⟨b, hb, hid, new, hnew, hag⟩ := hrun.agree h.1 b' hb'
  have hholes : newHoles st st' b'.id = new := by
    rw [newHoles, hinv'.area_eq hb', ← hid, h.1.area_eq hb]
    simp [hnew]
  show Agree b' ((g b'.id).punch (newHoles st st' b'.id))
  rw [hholes, ← hid]
  exact hag _ (h.2 b hb)

/-! ## Whole runs -/

/-- Allocations succeed, and no request that unpins or asks for the status has
`len` 0 at an offset that is the page-aligned size of the area modulo `2 ^ 32`. -/
def RequestsSomething (st : State) : Op → Prop
  | .pinUnpin id cmd req _ allocOk => allocOk = true ∧ (cmd = .pin ∨ ∀ a ∈ st.area id,
      ¬ (req.len.val = 0 ∧ pageAlign a.size % 2 ^ 32 = req.offset.val))
  | _ => True

instance (st : State) : (op : Op) → Decidable (RequestsSomething st op)
  | .pinUnpin .. => inferInstanceAs (Decidable (_ ∧ (_ ∨ ∀ _ ∈ _, _)))
  | .openArea .. | .setSize .. | .mmap .. | .shrinkScan .. | .release .. =>
    inferInstanceAs (Decidable True)

theorem RequestsSomething.unpinsSomething {op : Op} (h : RequestsSomething st op) :
    UnpinsSomething st op := by
  cases op with
  | pinUnpin id cmd req copyOk allocOk =>
    cases cmd with
    | unpin => exact h.2.resolve_left (by decide)
    | _ => trivial
  | _ => trivial

section

variable {g : AreaId → PageSets} (h : Refines (st, g)) (ha : st.area id = some a)

include h ha

theorem Refines.setUnpinned {q : PageSets} (hinv : Inv (st.setUnpinned a.id rs p))
    (hag : Agree { a with unpinned := rs } q) :
    Refines (st.setUnpinned a.id rs p, Function.update g id q) := by
  refine ⟨hinv, ?_⟩
  obtain rfl : a.id = id := by simpa using List.find?_some ha
  intro b hb
  obtain ⟨c, hc, rfl⟩ := mem_map.mp hb
  by_cases hca : c.id = a.id
  · obtain rfl : c = a := inj_on_of_nodup_map h.1.ids hc (State.area_mem ha) hca
    simpa using hag
  · simpa [hca] using h.2 c hc

theorem Refines.pinUnpin {copyOk : Bool} {cmd : PinCmd} {req : PinRequest}
    {ret : Int} (hinv : Inv st')
    (hrun : PinUnpin copyOk true req a st cmd ret st') :
    Refines (st', follow st st' g (.pinUnpin id cmd req copyOk true)) := by
  have hid : a.id = id := by simpa using List.find?_some ha
  have hmem := State.area_mem ha
  have hag : Agree a (g id) := hid ▸ h.2 a hmem
  have hs := (h.1.areas a hmem).sorted
  cases hrun with
  | refused hno => simpa [follow, ha, hno] using h
  | status hreq => simpa [follow, ha, hreq] using h
  | pin hreq hrun =>
    simp only [follow, ha, hreq, if_true]
    exact h.setUnpinned ha hinv (hag.pin hs hreq.2.2.requestOk.le hrun)
  | unpin hreq hrun =>
    simp only [follow, ha, hreq, if_true]
    exact h.setUnpinned ha hinv (hag.unpin hs hreq.2.2.requestOk.le hrun)

end

theorem Agree.congr {b : Area} {g : PageSets} (h : Agree a g) (hab : b.unpinned = a.unpinned) :
    Agree b g :=
  ⟨hab ▸ h.unpinned, hab ▸ h.punched⟩

theorem Refines.map_areas {g : AreaId → PageSets} {f : Area → Area} (h : Refines (st, g))
    (hinv : Inv { st with areas := st.areas.map f }) (hid : ∀ x, (f x).id = x.id)
    (hun : ∀ x, (f x).unpinned = x.unpinned) :
    Refines ({ st with areas := st.areas.map f }, g) := by
  refine ⟨hinv, ?_⟩
  intro b hb
  obtain ⟨c, hc, rfl⟩ := mem_map.mp hb
  rw [hid]
  exact (h.2 c hc).congr (hun c)

theorem Refines.step {x x' : State × (AreaId → PageSets)} {op : Op} (h : Refines x)
    (hg : RequestsSomething x.1 op) (hstep : pageStep x op = some x') : Refines x' := by
  obtain ⟨st, g⟩ := x
  obtain ⟨st', hst, hkeep⟩ := h.1.step op
  have hinv : Inv st' := hkeep hg.unpinsSomething
  obtain rfl : x' = (st', follow st st' g op) := by
    simpa [pageStep, hst] using hstep.symm
  cases op with
  | openArea id =>
    rw [Ashmem.step] at hst
    by_cases ha : (st.area id).isSome
    · obtain rfl : st = st' := by simpa [ha] using hst
      simpa [follow, ha] using h
    · rw [if_neg ha] at hst
      obtain rfl := Option.some.inj hst
      refine ⟨hinv, ?_⟩
      intro b hb
      have hnew : ∀ x ∈ st.areas, ¬ x.id = id := by simpa [State.area] using ha
      simp only [follow, ha, Bool.false_eq_true, if_false]
      rcases mem_append.mp hb with hb | hb
      · rw [Function.update_of_ne (hnew b hb)]
        exact h.2 b hb
      · rw [mem_singleton.mp hb, Function.update_self]
        exact Agree.fresh
  | setSize id size =>
    obtain rfl := Option.some.inj hst
    exact h.map_areas hinv (fun x => by split_ifs <;> rfl) (fun x => by split_ifs <;> rfl)
  | mmap id setupOk =>
    obtain rfl := Option.some.inj hst
    exact h.map_areas hinv (fun x => by split_ifs <;> rfl) (fun x => by split_ifs <;> rfl)
  | pinUnpin id cmd req copyOk allocOk =>
    obtain rfl : allocOk = true := hg.1
    rw [Ashmem.step] at hst
    cases ha : st.area id with
    | none =>
      obtain rfl : st = st' := by simpa [ha] using hst
      simpa [follow, ha] using h
    | some a =>
      obtain ⟨ret, st₁, heq, hrun⟩ := ashmemPinUnpin_spec copyOk true cmd req a st
      obtain rfl : st₁ = st' := by simpa [ha, heq] using hst
      exact h.pinUnpin ha hinv hrun
  | shrinkScan gfpFs trylock nrToScan =>
    rw [Ashmem.step] at hst
    split_ifs at hst
    · obtain ⟨st₁, heq, hrun⟩ := shrinkLoop_run h.1 nrToScan.val rfl
      obtain rfl : st₁ = st' := by simpa [heq] using hst
      exact hrun.refines h
    · obtain rfl := Option.some.inj hst
      exact PurgeRun.done.refines h
  | release id =>
    rw [Ashmem.step] at hst
    cases ha : st.area id with
    | none =>
      obtain rfl : st = st' := by simpa [ha] using hst
      exact h
    | some a =>
      obtain rfl : _ = st' := by simpa [ha] using hst
      exact ⟨hinv, fun b hb => h.2 b (mem_filter.mp hb).1⟩

theorem refines_of_reach {x : State × (AreaId → PageSets)}
    (h : Reach pageStep (fun x => RequestsSomething x.1) pageInit x) : Refines x := by
  refine h.invariant ⟨Inv.init, by simp [pageInit, init]⟩ ?_
  exact fun _ _ _ hx hg hs => hx.step hg hs

/-- The lists cover exactly the unpinned pages, a status request tells whether one of its pages is
unpinned, and pinning a page that was punched says so. -/
structure Shows (st : State) (g : AreaId → PageSets) : Prop where
  unpinned : ∀ a ∈ st.areas, ∀ x,
    x ∈ (g a.id).unpinned ↔ ∃ r ∈ a.unpinned, r.pgstart ≤ x ∧ x ≤ r.pgend
  status : ∀ id req ret st', ∀ a ∈ st.area id, pinGranted true req a →
    RequestsSomething st (.pinUnpin id .getPinStatus req true true) →
    ashmemPinUnpin true true .getPinStatus req a st = some (ret, st') →
    (ret = 0 ↔ ((g id).unpinned ∩ Set.Icc (pgStart req) (pgEnd a.size req)).Nonempty)
  purge : ∀ id req ret st', ∀ a ∈ st.area id, pinGranted true req a →
    ashmemPinUnpin true true .pin req a st = some (ret, st') →
    ((g id).punched ∩ Set.Icc (pgStart req) (pgEnd a.size req)).Nonempty → ret = 1

theorem Agree.status {g : PageSets} (h : Agree a g) (hok : AreaOk a) (hse : s ≤ e) :
    ashmemGetPinStatus s e a.unpinned = true ↔ (g.unpinned ∩ Set.Icc s e).Nonempty := by
  rw [ashmemGetPinStatus_iff hse hok.sorted hok.nonempty]
  simp only [Set.Nonempty, Set.mem_inter_iff, Set.mem_Icc, h.unpinned, exists_and_right]

theorem Refines.shows {g : AreaId → PageSets} (h : Refines (st, g)) : Shows st g := by
  refine ⟨?_, ?_, ?_⟩
  · intro a ha x
    rw [(h.2 a ha).unpinned x, exists_covers]
  · intro id req ret st' a ha hreq hg heq
    have hid : a.id = id := by simpa using List.find?_some ha
    have hag : Agree a (g id) := hid ▸ h.2 a (State.area_mem ha)
    have hlen := pinLen_ne_zero (hg.2.resolve_left (by decide) a ha)
    rw [← hag.status (h.1.areas a (State.area_mem ha)) (hreq.2.2.le hlen).1]
    obtain ⟨ret', st₁, heq', hrun⟩ := ashmemPinUnpin_spec true true .getPinStatus req a st
    obtain ⟨rfl, rfl⟩ : ret' = ret ∧ st₁ = st' := by simpa [heq'] using heq
    cases hrun with
    | refused hno => exact absurd hreq hno
    | status => split_ifs with hs <;> simp [hs]
  · rintro id req ret st' a ha hreq heq ⟨x, hx, hin⟩
    have hid : a.id = id := by simpa using List.find?_some ha
    have hag : Agree a (g id) := hid ▸ h.2 a (State.area_mem ha)
    obtain ⟨ret', st₁, heq', hrun⟩ := ashmemPinUnpin_spec true true .pin req a st
    obtain ⟨rfl, rfl⟩ : ret' = ret ∧ st₁ = st' := by simpa [heq'] using heq
    cases hrun with
    | refused hno => exact absurd hreq hno
    | pin _ hrun =>
      rw [if_pos (hrun.ret_of_covers (h.1.areas a (State.area_mem ha)).sorted hin
        (hag.punched x hx))]

/-- In a run without empty requests, the driver shows the pages as they are. -/
theorem shows_of_reach {x : State × (AreaId → PageSets)}
    (h : Reach pageStep (fun x => RequestsSomething x.1) pageInit x) :
    Shows x.1 x.2 ∧ ∀ op, (pageStep x op).isSome = true := by
  have href := refines_of_reach h
  refine ⟨href.shows, fun op => ?_⟩
  obtain ⟨st', heq, -⟩ := href.1.step op
  simp [pageStep, heq]

theorem shows_after_scan :
    let ops : List Op := openTwoPages ++
      [.pinUnpin 0 .unpin ⟨4096, 0⟩ true true, .shrinkScan true true 1]
    ∃ x, runGuarded pageStep (fun x => RequestsSomething x.1) pageInit ops = some x ∧
      1 ∈ (x.2 0).punched ∧ Shows x.1 x.2 ∧ ∀ op, (pageStep x op).isSome = true := by
  refine ⟨_, rfl, ?_, shows_of_reach (.of_runGuarded (openTwoPages ++
    [.pinUnpin 0 .unpin ⟨4096, 0⟩ true true, .shrinkScan true true 1]) .init rfl)⟩
  exact Or.inr ⟨(4096, 8192), by decide, by decide⟩

theorem status_after_empty_unpin :
    ∃ x, runList pageStep pageInit (openTwoPages ++ [.pinUnpin 0 .unpin ⟨8192, 0⟩ true true]) =
      some x ∧ (∀ y, y ∉ (x.2 0).unpinned) ∧ ¬ Shows x.1 x.2 := by
  have hnone : ∀ y, y ∉ (∅ ∪ Set.Icc 2 1 : Set ℕ) := by simp
  refine ⟨_, rfl, hnone, fun h => ?_⟩
  obtain ⟨y, hy, -⟩ := (h.status 0 ⟨4096, 4096⟩ 0 _ ⟨0, 8192, true, [⟨0, 2, 1, false⟩], []⟩ rfl
    (by decide) (by decide) rfl).mp rfl
  exact hnone y hy

end Cupcake.Ashmem
