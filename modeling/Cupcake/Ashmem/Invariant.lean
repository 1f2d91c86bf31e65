import Cupcake.Ashmem.Lru
import Mathlib.Data.Fintype.Card

/-! The invariant of the ashmem driver over whole runs: the shape of every list of
unpinned ranges, and the LRU list with its page count. -/

namespace Cupcake.Ashmem

open List

variable {ok : Bool} {s e : ℕ} {rs rs' R : List Range} {r : Range} {p p' : Pool}
  {a : Area} {st st' : State} {id : AreaId}

/-! ## Requests -/

/-- What the entry checks leave of a request: whole pages inside the area, with a
last page that only an empty request can wrap. -/
structure RequestOk (size s e : ℕ) : Prop where
  le : s ≤ e + 1
  inside : s ≤ e → e + 1 < 2 ^ 64 → (e + 1) * pageSize ≤ pageAlign size ∧ e < 2 ^ 20

theorem pinAccepted.requestOk {size : ℕ} {req : PinRequest} (h : pinAccepted size req) :
    RequestOk size (pgStart req) (pgEnd size req) := by
  obtain ⟨h₁, h₂, h₃, h₄⟩ := h
  have ho := req.offset.isLt
  unfold pgEnd pgStart pageSize at *
  rcases Nat.eq_zero_or_pos (req.offset.val / 4096 + pinLen size req / 4096) with h₀ | h₀
  · rw [h₀]
    exact ⟨by omega, fun h h' => absurd h' (by decide)⟩
  · rw [wsub_of_le (Nat.one_le_iff_ne_zero.mpr h₀.ne') (by omega)]
    exact ⟨by omega, fun h h' => ⟨by unfold pageSize; omega, by omega⟩⟩

theorem pinAccepted.le {size : ℕ} {req : PinRequest} (h : pinAccepted size req)
    (hlen : pinLen size req ≠ 0) : pgStart req ≤ pgEnd size req ∧ pgEnd size req + 1 < 2 ^ 64 := by
  obtain ⟨h₁, h₂, h₃, h₄⟩ := h
  have ho := req.offset.isLt
  unfold pgEnd pgStart pageSize at *
  rw [wsub_of_le (by omega) (by omega)]
  omega

def pinGranted (copyOk : Bool) (req : PinRequest) (a : Area) : Prop :=
  a.file = true ∧ copyOk = true ∧ pinAccepted a.size req

instance (copyOk : Bool) (req : PinRequest) (a : Area) : Decidable (pinGranted copyOk req a) :=
  inferInstanceAs (Decidable (_ ∧ _))

inductive PinUnpin (copyOk ok : Bool) (req : PinRequest) (a : Area) (st : State) :
    PinCmd → Int → State → Prop
  | refused {cmd : PinCmd} {err : Int} (hno : ¬ pinGranted copyOk req a) (herr : err < 0) :
      PinUnpin copyOk ok req a st cmd err st
  | pin {rs : List Range} {ret : Bool} {p : Pool} (hreq : pinGranted copyOk req a)
      (hrun : PinRun ok (pgStart req) (pgEnd a.size req) a.unpinned st.pool rs ret p) :
      PinUnpin copyOk ok req a st .pin (if ret then 1 else 0) (st.setUnpinned a.id rs p)
  | unpin {rs : List Range} {ret : Int} {p : Pool} (hreq : pinGranted copyOk req a)
      (hrun : UnpinRun ok (pgStart req) (pgEnd a.size req) false a.unpinned st.pool rs ret p) :
      PinUnpin copyOk ok req a st .unpin ret (st.setUnpinned a.id rs p)
  | status (hreq : pinGranted copyOk req a) :
      PinUnpin copyOk ok req a st .getPinStatus
        (if ashmemGetPinStatus (pgStart req) (pgEnd a.size req) a.unpinned then 0 else 1) st

theorem ashmemPinUnpin_spec (copyOk ok : Bool) (cmd : PinCmd) (req : PinRequest) (a : Area)
    (st : State) :
    ∃ ret st', ashmemPinUnpin copyOk ok cmd req a st = some (ret, st') ∧
      PinUnpin copyOk ok req a st cmd ret st' := by
  unfold ashmemPinUnpin
  by_cases hf : a.file = true
  · by_cases hc : copyOk = true
    · by_cases hacc : pinAccepted a.size req
      · simp only [hf, hc, hacc, Bool.not_true, Bool.false_eq_true, if_false, not_true]
        have hreq : pinGranted true req a := ⟨hf, rfl, hacc⟩
        cases cmd with
        | pin => exact ⟨_, _, rfl, .pin hreq (ashmemPin_run ..)⟩
        | unpin =>
          obtain ⟨rs, ret, p, heq, hrun⟩ := ashmemUnpin_run ok a.unpinned.length (pgStart req)
            (pgEnd a.size req) false a.unpinned st.pool le_rfl
          exact ⟨ret, _, by rw [heq]; rfl, .unpin hreq hrun⟩
        | getPinStatus => exact ⟨_, _, rfl, .status hreq⟩
      · exact ⟨-22, st, by simp [hf, hc, hacc], .refused (fun h => hacc h.2.2) (by decide)⟩
    · exact ⟨-14, st, by simp [hf, hc], .refused (fun h => hc h.2.1) (by decide)⟩
  · exact ⟨-22, st, by simp [hf], .refused (fun h => hf h.1) (by decide)⟩

/-! ## The invariant -/

structure AreaOk (a : Area) : Prop where
  sorted : Sorted a.unpinned
  nonempty : ∀ r ∈ a.unpinned, r.pgstart ≤ r.pgend
  inside : ∀ r ∈ a.unpinned, (r.pgend + 1) * pageSize ≤ pageAlign a.size
  low : ∀ r ∈ a.unpinned, r.pgend < 2 ^ 20
  file : a.unpinned ≠ [] → a.file = true

def State.ranges (st : State) : List Range := st.areas.flatMap (·.unpinned)

structure Inv (st : State) : Prop where
  areas : ∀ a ∈ st.areas, AreaOk a
  ids : (st.areas.map (·.id)).Nodup
  tracks : Tracks st.pool st.ranges

theorem AreaOk.nil {id : AreaId} {size : ℕ} {file : Bool} {holes : List (ℕ × ℕ)} :
    AreaOk ⟨id, size, file, [], holes⟩ :=
  ⟨sorted_nil, by simp, by simp, by simp, by simp⟩

theorem AreaOk.pin {ret : Bool} (h : AreaOk a) (hf : a.file = true) (hse : s ≤ e + 1)
    (hrun : PinRun ok s e a.unpinned p rs ret p') : AreaOk { a with unpinned := rs } where
  sorted := hrun.sorted hse h.sorted
  nonempty := by
    intro x hx
    obtain ⟨r, hr, -, -, hne⟩ := hrun.sub hse h.sorted.wf x hx
    exact hne (h.nonempty r hr)
  inside := by
    intro x hx
    obtain ⟨r, hr, -, hle, -⟩ := hrun.sub hse h.sorted.wf x hx
    exact (Nat.mul_le_mul_right _ (by omega)).trans (h.inside r hr)
  low := by
    intro x hx
    obtain ⟨r, hr, -, hle, -⟩ := hrun.sub hse h.sorted.wf x hx
    exact lt_of_le_of_lt hle (h.low r hr)
  file := fun _ => hf

theorem AreaOk.unpin {purged : Bool} {ret : Int} (h : AreaOk a) (hf : a.file = true) (hse : s ≤ e)
    (hin : (e + 1) * pageSize ≤ pageAlign a.size) (hlow : e < 2 ^ 20)
    (hrun : UnpinRun ok s e purged a.unpinned p rs ret p') : AreaOk { a with unpinned := rs } where
  sorted := hrun.sorted (by omega) h.sorted
  nonempty := hrun.forall_mem (P := fun b c => b ≤ c) (by omega) hse h.nonempty
  inside := by
    refine hrun.forall_mem (P := fun _ c => (c + 1) * pageSize ≤ pageAlign a.size) ?_ hin h.inside
    intro _ b _ d hb hd
    rcases max_choice b d with hm | hm
    · rw [hm]; exact hb
    · rw [hm]; exact hd
  low := hrun.forall_mem (P := fun _ c => c < 2 ^ 20) (fun _ _ _ _ => max_lt) hlow h.low
  file := fun _ => hf

theorem AreaOk.map_markPurged (h : AreaOk a) (id : ℕ) (holes : List (ℕ × ℕ)) :
    AreaOk { a with unpinned := a.unpinned.map (markPurged id), holes := holes } := by
  have hend (r : Range) : (markPurged id r).pgend = r.pgend := by unfold markPurged; split_ifs <;> rfl
  have hstart (r : Range) : (markPurged id r).pgstart = r.pgstart := by
    unfold markPurged; split_ifs <;> rfl
  refine ⟨⟨?_, ?_⟩, ?_, ?_, ?_, ?_⟩
  · simpa [pairwise_map, hend, hstart] using h.sorted.desc
  · simpa [hend, hstart] using h.sorted.wf
  · simpa [hend, hstart] using h.nonempty
  · simpa [hend] using h.inside
  · simpa [hend] using h.low
  · simpa using h.file

/-! ## One area among the others -/

theorem State.area_split (h : st.area id = some a) :
    ∃ pre post, st.areas = pre ++ a :: post ∧ a.id = id := by
  have hid : a.id = id := by simpa using List.find?_some h
  obtain ⟨pre, post, heq⟩ := append_of_mem (mem_of_find?_eq_some h)
  exact ⟨pre, post, heq, hid⟩

theorem map_eq_of_nodup {pre post : List Area} {f : Area → Area}
    (h : ((pre ++ a :: post).map (·.id)).Nodup) (hf : ∀ x, x.id ≠ a.id → f x = x) :
    (pre ++ a :: post).map f = pre ++ f a :: post := by
  have hmid : ∀ x ∈ pre ++ post, x.id ≠ a.id := by
    have h' := (List.Perm.map Area.id perm_middle).nodup_iff.mp h
    rw [map_cons, nodup_cons] at h'
    intro x hx heq
    exact h'.1 (mem_map.mpr ⟨x, hx, heq⟩)
  have hid : ∀ l : List Area, (∀ x ∈ l, x.id ≠ a.id) → l.map f = l := by
    intro l hl
    exact (map_congr_left fun x hx => hf x (hl x hx)).trans (map_id l)
  rw [map_append, map_cons, hid pre fun x hx => hmid x (by simp [hx]),
    hid post fun x hx => hmid x (by simp [hx])]

theorem flatMap_unpinned_perm (pre post : List Area) (a : Area) :
    ((pre ++ a :: post).flatMap (·.unpinned)).Perm
      (a.unpinned ++ (pre ++ post).flatMap (·.unpinned)) := by
  simp only [flatMap_append, flatMap_cons]
  exact perm_append_comm_assoc ..

theorem Inv.setUnpinned (h : Inv st) (ha : st.area id = some a)
    (hok : AreaOk { a with unpinned := rs })
    (htr : ∀ R, Tracks st.pool (a.unpinned ++ R) → Tracks p (rs ++ R)) :
    Inv (st.setUnpinned a.id rs p) := by
  obtain ⟨pre, post, heq, rfl⟩ := State.area_split ha
  have hareas : (st.setUnpinned a.id rs p).areas = pre ++ { a with unpinned := rs } :: post := by
    have h' := h.ids
    rw [heq] at h'
    unfold State.setUnpinned
    rw [heq, map_eq_of_nodup h' fun x hx => if_neg hx, if_pos rfl]
  refine ⟨?_, ?_, ?_⟩
  · rw [hareas]
    intro x hx
    simp only [mem_append, mem_cons] at hx
    rcases hx with hx | rfl | hx
    · exact h.areas x (by simp [heq, hx])
    · exact hok
    · exact h.areas x (by simp [heq, hx])
  · have hids := h.ids
    rw [heq] at hids
    rw [hareas]
    simpa using hids
  · have htracks := h.tracks
    rw [State.ranges, heq] at htracks
    rw [State.ranges, hareas]
    exact (htr _ (htracks.of_perm (flatMap_unpinned_perm ..))).of_perm
      (flatMap_unpinned_perm pre post { a with unpinned := rs }).symm

theorem State.area_mem (h : st.area id = some a) : a ∈ st.areas := mem_of_find?_eq_some h

theorem Inv.pinUnpin {copyOk : Bool} {cmd : PinCmd} {req : PinRequest} {ret : Int} (h : Inv st)
    (ha : st.area id = some a) (hne : cmd = .unpin → pinLen a.size req ≠ 0)
    (hrun : PinUnpin copyOk ok req a st cmd ret st') : Inv st' := by
  have haok := h.areas a (State.area_mem ha)
  cases hrun with
  | refused => exact h
  | status => exact h
  | pin hreq hrun =>
    exact h.setUnpinned ha (haok.pin hreq.1 hreq.2.2.requestOk.le hrun) fun R => hrun.tracks
  | unpin hreq hrun =>
    obtain ⟨hle, hlt⟩ := hreq.2.2.le (hne rfl)
    obtain ⟨hin, hlow⟩ := hreq.2.2.requestOk.inside hle hlt
    exact h.setUnpinned ha (haok.unpin hreq.1 hle hin hlow hrun) fun R => hrun.tracks

/-! ## The shrinker -/

theorem State.ranges_purge (st : State) (a : Area) (r : Range) :
    (st.purge a r).ranges = st.ranges.map (markPurged r.id) := by
  simp [State.ranges, State.purge, flatMap_map, map_flatMap]

theorem Tracks.purge (h : Tracks p (r :: R)) (hr : r.onLru = true) :
    Tracks (Ashmem.lruDel p { r with purged := true }) ({ r with purged := true } :: R) := by
  have hd := h.lruDel hr
  have hon : ¬ ({ r with purged := true } : Range).onLru = true := by simp [Range.onLru]
  refine ⟨?_, ?_, h.nodup, ?_⟩
  · rw [filter_cons_of_neg hon]
    exact hd.perm
  · rw [filter_cons_of_neg hon]
    exact hd.count
  · intro x hx
    rcases mem_cons.mp hx with rfl | hx
    · exact h.fresh r (by simp)
    · exact h.fresh x (by simp [hx])

theorem map_markPurged_perm (hr : r ∈ R) (hn : (R.map (·.id)).Nodup) :
    ∃ R', R.Perm (r :: R') ∧ (R.map (markPurged r.id)).Perm ({ r with purged := true } :: R') := by
  obtain ⟨pre, post, rfl⟩ := append_of_mem hr
  have hp : (pre ++ r :: post).Perm (r :: (pre ++ post)) := perm_middle
  have hn' := (hp.map (·.id)).nodup_iff.mp hn
  rw [map_cons, nodup_cons] at hn'
  have hrest : (pre ++ post).map (markPurged r.id) = pre ++ post := by
    refine (map_congr_left fun x hx => ?_).trans (map_id _)
    exact if_neg fun heq => hn'.1 (mem_map.mpr ⟨x, hx, heq⟩)
  refine ⟨pre ++ post, hp, (hp.map _).trans ?_⟩
  rw [map_cons, hrest, markPurged, if_pos rfl]

theorem Inv.purge (h : Inv st) (ha : a ∈ st.areas) (hr : r ∈ a.unpinned) (hon : r.onLru = true) :
    Inv (st.purge a r) := by
  refine ⟨?_, ?_, ?_⟩
  · intro x hx
    obtain ⟨y, hy, rfl⟩ := mem_map.mp hx
    exact (h.areas y hy).map_markPurged r.id _
  · have := h.ids
    simpa [State.purge, Function.comp_def] using this
  · obtain ⟨R', hR, hR'⟩ := map_markPurged_perm
      (mem_flatMap.mpr ⟨a, ha, hr⟩ : r ∈ st.ranges) h.tracks.nodup
    rw [State.ranges_purge]
    exact ((h.tracks.of_perm hR).purge hon).of_perm hR'.symm

inductive PurgeRun : State → State → Prop
  | done {st : State} : PurgeRun st st
  | purge {st st' : State} {a : Area} {r : Range} (ha : a ∈ st.areas) (hr : r ∈ a.unpinned)
      (hon : r.onLru = true) (h : PurgeRun (st.purge a r) st') : PurgeRun st st'

theorem PurgeRun.inv (hrun : PurgeRun st st') (h : Inv st) : Inv st' := by
  induction hrun with
  | done => exact h
  | purge ha hr hon _ ih => exact ih (h.purge ha hr hon)

theorem Inv.lookup (h : Inv st) {id : ℕ} (hid : id ∈ st.pool.lru) :
    ∃ a r, st.lookup id = some (a, r) ∧ a.file = true ∧ a ∈ st.areas ∧ r ∈ a.unpinned ∧
      r.onLru = true ∧ r.id = id := by
  obtain ⟨r, hr, hrid⟩ := mem_map.mp (h.tracks.perm.mem_iff.mp hid)
  obtain ⟨hr, hon⟩ := mem_filter.mp hr
  obtain ⟨b, hb, hrb⟩ := mem_flatMap.mp hr
  have hsome : (st.lookup id).isSome := by
    refine List.find?_isSome.mpr ⟨(b, r), ?_, by simpa using hrid⟩
    exact mem_flatMap.mpr ⟨b, hb, mem_map.mpr ⟨r, hrb, rfl⟩⟩
  obtain ⟨⟨a, x⟩, hax⟩ := Option.isSome_iff_exists.mp hsome
  have hxid : x.id = id := by simpa using List.find?_some hax
  obtain ⟨a', ha', hmem⟩ := mem_flatMap.mp (mem_of_find?_eq_some hax)
  obtain ⟨x', hx', heq⟩ := mem_map.mp hmem
  obtain ⟨rfl, rfl⟩ := Prod.mk.inj heq
  have hxr : x' ∈ st.ranges := mem_flatMap.mpr ⟨a', ha', hx'⟩
  -- addresses are distinct, so the range found is the one on the LRU list
  obtain rfl : x' = r := inj_on_of_nodup_map h.tracks.nodup hxr hr (hxid.trans hrid.symm)
  exact ⟨a', x', hax, (h.areas a' ha').file (ne_nil_of_mem hx'), ha', hx', hon, hxid⟩

theorem shrinkLoop_run (h : Inv st) (nr : ℕ) {ids : List ℕ} (hids : st.pool.lru = ids) :
    ∃ st', shrinkLoop ids nr st = some st' ∧ PurgeRun st st' := by
  induction ids generalizing st nr with
  | nil => exact ⟨st, rfl, .done⟩
  | cons id ids ih =>
    have hmem : id ∈ st.pool.lru := by simp [hids]
    obtain ⟨a, r, hl, hf, ha, hr, hon, rfl⟩ := h.lookup hmem
    rw [shrinkLoop, hl]
    simp only [hf, Bool.not_true, Bool.false_eq_true, if_false]
    split_ifs
    · exact ⟨_, rfl, .purge ha hr hon .done⟩
    · have hlru : (st.purge a r).pool.lru = ids := by
        simp [State.purge, Ashmem.lruDel, hids]
      obtain ⟨st', heq, hrun⟩ := ih (h.purge ha hr hon) _ hlru
      exact ⟨st', heq, .purge ha hr hon hrun⟩

/-! ## Whole runs -/

theorem Tracks.foldl_rangeDel (h : Tracks p (rs ++ R)) : Tracks (rs.foldl Ashmem.rangeDel p) R := by
  induction rs generalizing p with
  | nil => exact h
  | cons r rs ih => exact ih h.rangeDel

theorem Inv.release (h : Inv st) (ha : st.area id = some a) :
    Inv ⟨st.areas.filter (·.id != id), a.unpinned.foldl Ashmem.rangeDel st.pool⟩ := by
  obtain ⟨pre, post, heq, rfl⟩ := State.area_split ha
  have hids := h.ids
  rw [heq] at hids
  have hids' := (List.Perm.map Area.id perm_middle).nodup_iff.mp hids
  rw [map_cons, nodup_cons] at hids'
  have hfilter : st.areas.filter (·.id != a.id) = pre ++ post := by
    have hrest : ∀ x ∈ pre ++ post, x.id ≠ a.id := fun x hx hxa =>
      hids'.1 (mem_map.mpr ⟨x, hx, hxa⟩)
    rw [heq, filter_append, filter_cons_of_neg (by simp), ← filter_append,
      filter_eq_self]
    simpa using hrest
  rw [hfilter]
  refine ⟨?_, hids'.2, ?_⟩
  · intro x hx
    refine h.areas x ?_
    rw [heq]
    exact mem_append.mpr ((mem_append.mp hx).imp_right (mem_cons_of_mem _))
  · have htracks := h.tracks
    rw [State.ranges, heq] at htracks
    exact (htracks.of_perm (flatMap_unpinned_perm ..)).foldl_rangeDel

theorem Inv.map_areas (h : Inv st) {f : Area → Area} (hid : ∀ x, (f x).id = x.id)
    (hun : ∀ x, (f x).unpinned = x.unpinned) (hok : ∀ x, AreaOk x → AreaOk (f x)) :
    Inv { st with areas := st.areas.map f } := by
  refine ⟨?_, ?_, ?_⟩
  · intro x hx
    obtain ⟨y, hy, rfl⟩ := mem_map.mp hx
    exact hok y (h.areas y hy)
  · simpa [Function.comp_def, hid] using h.ids
  · simpa [State.ranges, flatMap_map, hun] using h.tracks

theorem Inv.init : Inv init :=
  ⟨by simp [Ashmem.init], by simp [Ashmem.init],
    ⟨by simp [Ashmem.init, State.ranges], by simp [Ashmem.init, State.ranges],
      by simp [Ashmem.init, State.ranges], by simp [Ashmem.init, State.ranges]⟩⟩

theorem Inv.openArea (h : Inv st) (hid : ¬ (st.area id).isSome = true) :
    Inv { st with areas := st.areas ++ [⟨id, 0, false, [], []⟩] } := by
  refine ⟨?_, ?_, ?_⟩
  · intro x hx
    rcases mem_append.mp hx with hx | hx
    · exact h.areas x hx
    · rw [mem_singleton.mp hx]
      exact AreaOk.nil
  · have hnew : ∀ x ∈ st.areas, ¬ x.id = id := by simpa [State.area] using hid
    rw [map_append, nodup_append]
    refine ⟨h.ids, nodup_singleton _, ?_⟩
    rintro _ hx _ hy rfl
    obtain ⟨x, hx, hxid⟩ := mem_map.mp hx
    exact hnew x hx (hxid.trans (mem_singleton.mp hy))
  · simpa [State.ranges] using h.tracks

/-- The step does not unpin with `len` 0 from an offset that is the page-aligned
size of the area modulo `2 ^ 32`, where "everything onward" is nothing. -/
def UnpinsSomething (st : State) : Op → Prop
  | .pinUnpin id .unpin req _ _ => ∀ a ∈ st.area id,
      ¬ (req.len.val = 0 ∧ pageAlign a.size % 2 ^ 32 = req.offset.val)
  | _ => True

instance (st : State) : (op : Op) → Decidable (UnpinsSomething st op)
  | .pinUnpin _ .unpin _ _ _ => inferInstanceAs (Decidable (∀ _ ∈ _, _))
  | .pinUnpin _ .pin _ _ _ | .pinUnpin _ .getPinStatus _ _ _ | .openArea _ | .setSize _ _
  | .mmap _ _ | .shrinkScan _ _ _ | .release _ => inferInstanceAs (Decidable True)

theorem pinLen_ne_zero {size : ℕ} {req : PinRequest}
    (h : ¬ (req.len.val = 0 ∧ pageAlign size % 2 ^ 32 = req.offset.val)) :
    pinLen size req ≠ 0 := by
  have := req.offset.isLt
  unfold pinLen
  split_ifs with hlen
  · unfold wsub
    omega
  · exact hlen

theorem Inv.step (h : Inv st) (op : Op) :
    ∃ st', step st op = some st' ∧ (UnpinsSomething st op → Inv st') := by
  cases op with
  | openArea id =>
    rw [Ashmem.step]
    split_ifs with hid
    · exact ⟨_, rfl, fun _ => h⟩
    · exact ⟨_, rfl, fun _ => h.openArea hid⟩
  | setSize id size =>
    refine ⟨_, rfl, fun _ => h.map_areas ?_ ?_ ?_⟩
    · intro x; split_ifs <;> rfl
    · intro x; split_ifs <;> rfl
    · intro x hx
      split_ifs with hf
      · have hnil : x.unpinned = [] := by
          by_contra hne
          exact absurd (hx.file hne) (by simp [hf.2])
        obtain ⟨xid, xsize, xfile, xs, xholes⟩ := x
        obtain rfl : xs = [] := hnil
        exact AreaOk.nil
      · exact hx
  | mmap id setupOk =>
    refine ⟨_, rfl, fun _ => h.map_areas ?_ ?_ ?_⟩
    · intro x; split_ifs <;> rfl
    · intro x; split_ifs <;> rfl
    · intro x hx
      split_ifs with hf
      · exact ⟨hx.sorted, hx.nonempty, hx.inside, hx.low, fun _ => rfl⟩
      · exact hx
  | pinUnpin id cmd req copyOk allocOk =>
    rw [Ashmem.step]
    cases ha : st.area id with
    | none => exact ⟨_, rfl, fun _ => h⟩
    | some a =>
      obtain ⟨ret, st', heq, hrun⟩ := ashmemPinUnpin_spec copyOk allocOk cmd req a st
      refine ⟨st', by simp [heq], fun hg => h.pinUnpin ha ?_ hrun⟩
      rintro rfl
      exact pinLen_ne_zero (hg a ha)
  | shrinkScan gfpFs trylock nrToScan =>
    rw [Ashmem.step]
    split_ifs
    · obtain ⟨st', heq, hrun⟩ := shrinkLoop_run h nrToScan.val rfl
      exact ⟨st', heq, fun _ => hrun.inv h⟩
    · exact ⟨_, rfl, fun _ => h⟩
  | release id =>
    rw [Ashmem.step]
    cases ha : st.area id with
    | none => exact ⟨_, rfl, fun _ => h⟩
    | some a => exact ⟨_, rfl, fun _ => h.release ha⟩

theorem inv_of_reach (h : Reach step UnpinsSomething init st) : Inv st := by
  refine h.invariant Inv.init ?_
  intro s s' op hs hg hstep
  obtain ⟨s₁, heq, hinv⟩ := hs.step op
  rw [heq] at hstep
  exact Option.some.inj hstep ▸ hinv hg

/-! ## The page count -/

theorem Sorted.sum_le (h : Sorted rs) {b : ℕ} (hb : ∀ r ∈ rs, r.pgend < b) :
    (rs.map fun r => r.pgend + 1 - r.pgstart).sum ≤ b := by
  induction rs generalizing b with
  | nil => simp
  | cons r rs ih =>
    obtain ⟨hlt, -, hs⟩ := sorted_cons.mp h
    have htail := ih hs hlt
    have hr := hb r (by simp)
    have hwf := h.wf r (by simp)
    rw [map_cons, sum_cons]
    omega

theorem AreaOk.size_eq (h : AreaOk a) (hr : r ∈ a.unpinned) :
    r.size = r.pgend + 1 - r.pgstart := by
  have hne := h.nonempty r hr
  have hlow := h.low r hr
  rw [Range.size, wsub_of_le hne (by omega), wadd_of_lt (by omega)]
  omega

def State.lruPages (st : State) : ℕ :=
  ((st.ranges.filter fun r => !r.purged).map fun r => r.pgend + 1 - r.pgstart).sum

theorem sum_flatMap_le {as : List Area} (h : ∀ a ∈ as, AreaOk a) :
    (((as.flatMap (·.unpinned)).filter fun r => !r.purged).map
      fun r => r.pgend + 1 - r.pgstart).sum ≤ as.length * 2 ^ 20 := by
  induction as with
  | nil => simp
  | cons a as ih =>
    have ha := h a (by simp)
    have hs : Sorted (a.unpinned.filter fun r => !r.purged) := ha.sorted.sublist filter_sublist
    have := hs.sum_le fun r hr => ha.low r (mem_filter.mp hr).1
    have := ih fun x hx => h x (by simp [hx])
    simp only [flatMap_cons, filter_append, map_append, sum_append,
      length_cons]
    omega

theorem Inv.lruPages_lt (h : Inv st) : st.lruPages < 2 ^ 64 := by
  have hlen : st.areas.length ≤ 2 ^ 39 := by
    have := h.ids.length_le_card
    rwa [length_map, Fintype.card_fin] at this
  have hsum : st.lruPages ≤ st.areas.length * 2 ^ 20 := sum_flatMap_le h.areas
  omega

theorem Inv.lruCount_eq (h : Inv st) : st.pool.lruCount = st.lruPages := by
  have hsize : ∀ r ∈ st.ranges.filter (·.onLru), r.size = r.pgend + 1 - r.pgstart := by
    intro r hr
    obtain ⟨a, ha, hra⟩ := mem_flatMap.mp (mem_filter.mp hr).1
    exact (h.areas a ha).size_eq hra
  rw [h.tracks.count, map_congr_left hsize]
  exact Nat.mod_eq_of_lt h.lruPages_lt

/-- What holds of the ranges between two requests. -/
structure RangesOk (st : State) : Prop where
  nonempty : ∀ a ∈ st.areas, ∀ r ∈ a.unpinned, r.pgstart ≤ r.pgend
  inside : ∀ a ∈ st.areas, ∀ r ∈ a.unpinned, (r.pgend + 1) * pageSize ≤ pageAlign a.size
  /-- decreasing, which makes them disjoint -/
  decreasing : ∀ a ∈ st.areas, a.unpinned.Pairwise fun x y => y.pgend < x.pgstart
  distinct : (st.ranges.map (·.id)).Nodup
  lru : st.pool.lru.Perm ((st.ranges.filter fun r => !r.purged).map (·.id))
  lruCount : st.pool.lruCount = st.lruPages ∧ st.lruPages < 2 ^ 64

/-- If no empty tail is unpinned, ranges and LRU list are well formed and no request faults. -/
theorem ranges_of_reach (h : Reach step UnpinsSomething init st) :
    RangesOk st ∧ ∀ op, (step st op).isSome = true := by
  have hinv := inv_of_reach h
  refine ⟨⟨fun a ha => (hinv.areas a ha).nonempty, fun a ha => (hinv.areas a ha).inside,
    fun a ha => (hinv.areas a ha).sorted.desc, hinv.tracks.nodup, hinv.tracks.perm,
    hinv.lruCount_eq, hinv.lruPages_lt⟩, fun op => ?_⟩
  obtain ⟨st', heq, -⟩ := hinv.step op
  simp [heq]

def openTwoPages : List Op := [.openArea 0, .setSize 0 8192, .mmap 0 true]

theorem ranges_of_unpin_and_scan :
    let ops : List Op := openTwoPages ++
      [.pinUnpin 0 .unpin ⟨4096, 0⟩ true true, .shrinkScan true true 1]
    ∃ st, runGuarded step UnpinsSomething init ops = some st ∧
      RangesOk st ∧ ∀ op, (step st op).isSome = true := by
  refine ⟨⟨[⟨0, 8192, true, [⟨0, 1, 1, true⟩], [(4096, 8192)]⟩], ⟨[], 0, 1⟩⟩, by decide, ?_⟩
  exact ranges_of_reach (.of_runGuarded (openTwoPages ++
    [.pinUnpin 0 .unpin ⟨4096, 0⟩ true true, .shrinkScan true true 1]) .init (by decide))

theorem unpin_at_end_empty :
    ∃ st, runList step init (openTwoPages ++ [.pinUnpin 0 .unpin ⟨8192, 0⟩ true true]) = some st ∧
      ¬ RangesOk st := by
  refine ⟨⟨[⟨0, 8192, true, [⟨0, 2, 1, false⟩], []⟩], ⟨[0], 0, 1⟩⟩, by decide, fun h => ?_⟩
  exact absurd (h.nonempty _ (mem_singleton_self _) _ (mem_singleton_self _)) (by decide)

end Cupcake.Ashmem
