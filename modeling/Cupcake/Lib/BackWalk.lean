import Mathlib.Data.Finset.Card

/-! Depth-first search without a stack: the way back to the start is kept in the nodes. -/

namespace Cupcake.BackWalk

open List Relation Function

variable {α : Type*}

structure Graph (α : Type*) where
  stop : α → Prop
  jump : α → Option α
  next : α → α

variable {G : Graph α} {node : Finset α} {start u v w p : α} {path done l : List α}

def Graph.Edge (G : Graph α) (v w : α) : Prop := ¬ G.stop v ∧ (G.jump v = some w ∨ w = G.next v)

/-! ## Finished nodes -/

/-- Nodes in the order in which they were finished, the last one first: their edges lead to
nodes finished before. -/
inductive Sorted (G : Graph α) : List α → Prop
  | nil : Sorted G []
  | cons {v : α} {l : List α} : (∀ w, G.Edge v w → w ∈ l) → Sorted G l → Sorted G (v :: l)

section

variable (h : Sorted G l)

include h

theorem Sorted.closed (hv : v ∈ l) (he : G.Edge v w) : w ∈ l := by
  induction h with
  | nil => cases hv
  | cons hedge _ ih =>
    rcases mem_cons.mp hv with rfl | hv
    · exact mem_cons_of_mem _ (hedge w he)
    · exact mem_cons_of_mem _ (ih hv)

theorem Sorted.closed_star (hv : v ∈ l) (hr : ReflTransGen G.Edge v w) : w ∈ l := by
  induction hr with
  | refl => exact hv
  | tail _ he ih => exact h.closed ih he

theorem Sorted.acyclic (hnd : l.Nodup) (hv : v ∈ l) : ¬ TransGen G.Edge v v := by
  induction h with
  | nil => cases hv
  | @cons x l hedge hl ih =>
    have hx : x ∉ l := (nodup_cons.mp hnd).1
    intro hcycle
    by_cases hmem : v ∈ l
    · exact ih (nodup_cons.mp hnd).2 hmem hcycle
    · obtain rfl : v = x := (mem_cons.mp hv).resolve_right hmem
      obtain ⟨w, hfirst, hrest⟩ := TransGen.head'_iff.mp hcycle
      exact hx (hl.closed_star (hedge w hfirst) hrest)

theorem Sorted.filter {p : α → Prop} [DecidablePred p]
    (hp : ∀ v w, p v → G.Edge v w → p w) : Sorted G (l.filter p) := by
  induction h with
  | nil => exact .nil
  | @cons v l hedge _ ih =>
    by_cases hv : p v
    · rw [filter_cons_of_pos (by simpa using hv)]
      refine .cons (fun w hw => ?_) ih
      exact mem_filter.mpr ⟨hedge w hw, decide_eq_true (hp v w hv hw)⟩
    · rwa [filter_cons_of_neg (by simpa using hv)]

theorem Sorted.exists_weight (hnd : l.Nodup) : ∃ weight : α → ℕ, ∀ v ∈ l, 0 < weight v ∧
      (¬ G.stop v → weight (G.next v) + (G.jump v).elim 0 weight < weight v) := by
  classical
  induction h with
  | nil => exact ⟨fun _ => 0, fun _ h => by cases h⟩
  | @cons x l hedge hl ih =>
    obtain ⟨hx, hnd⟩ := nodup_cons.mp hnd
    obtain ⟨weight, hw⟩ := ih hnd
    have hsame (u : α) (hu : u ∈ l) (n : ℕ) : update weight x n u = weight u := by
      refine update_of_ne ?_ ..
      rintro rfl
      exact hx hu
    have hjump (v : α) (hv : ∀ w, G.jump v = some w → w ∈ l) (n : ℕ) :
        (G.jump v).elim 0 (update weight x n) = (G.jump v).elim 0 weight := by
      cases hj : G.jump v with
      | none => rfl
      | some w => exact hsame w (hv w hj) n
    refine ⟨update weight x (weight (G.next x) + (G.jump x).elim 0 weight + 1), fun v hv => ?_⟩
    by_cases hmem : v ∈ l
    · rw [hsame v hmem]
      refine ⟨(hw v hmem).1, fun hstop => ?_⟩
      rw [hsame _ (hl.closed hmem ⟨hstop, .inr rfl⟩),
        hjump v fun w hj => hl.closed hmem ⟨hstop, .inl hj⟩]
      exact (hw v hmem).2 hstop
    · obtain rfl : v = x := (mem_cons.mp hv).resolve_right hmem
      rw [update_self]
      refine ⟨Nat.succ_pos _, fun hstop => ?_⟩
      rw [hsame _ (hedge _ ⟨hstop, .inr rfl⟩), hjump v fun w hj => hedge w ⟨hstop, .inl hj⟩]
      exact Nat.lt_succ_self _

end

/-! ## The way back -/

/-- The way from the start to `v`: `path` has the nodes before `v`, the last one first. A node
that was left through its `next` has its jump behind it. -/
inductive Trail (G : Graph α) (start : α) (done : List α) : α → List α → Prop
  | start : Trail G start done start []
  | down {p v : α} {path : List α} : ¬ G.stop p →
      (G.jump p = some v ∨ v = G.next p ∧ ∀ t, G.jump p = some t → t ∈ done) →
      Trail G start done p path → Trail G start done v (p :: path)

theorem Trail.mono (h : Trail G start done v path) {done' : List α} (hsub : ∀ u ∈ done, u ∈ done') :
    Trail G start done' v path := by
  induction h with
  | start => exact .start
  | down hstop hedge _ ih =>
    exact .down hstop (hedge.imp_right fun ⟨hn, hj⟩ => ⟨hn, fun t ht => hsub t (hj t ht)⟩) ih

def Backs (back : α → α) : α → List α → Prop
  | v, [] => back v = v
  | v, p :: path => back v = p ∧ Backs back p path

theorem Backs.congr {back back' : α → α} (h : Backs back v path)
    (heq : ∀ u ∈ v :: path, back' u = back u) : Backs back' v path := by
  induction path generalizing v with
  | nil => exact (heq v (mem_cons_self ..)).trans h
  | cons p path ih =>
    exact ⟨(heq v (mem_cons_self ..)).trans h.1,
      ih h.2 fun u hu => heq u (mem_cons_of_mem _ hu)⟩

def pending [DecidableEq α] (G : Graph α) : α → List α → ℕ
  | _, [] => 0
  | v, p :: path => (if v = G.next p then 0 else 1) + pending G p path

/-! ## The search -/

/-- What the nodes hold: whether they were seen, whether they are on the way, and the node
before. -/
structure Marks (α : Type*) where
  seen : α → Bool
  opened : α → Bool
  back : α → α

variable {s s' : Marks α} {zero : α}

/-- What holds of the nodes that were seen, whatever the search does next. -/
structure Found (G : Graph α) (node : Finset α) (start : α) (path done : List α) : Prop where
  sorted : Sorted G done
  nodup : (path ++ done).Nodup
  nodes : ∀ u ∈ path ++ done, u ∈ node
  reach : ∀ u ∈ path ++ done, ReflTransGen G.Edge start u

structure Visit (G : Graph α) (node : Finset α) (zero start : α) (s : Marks α) (v : α)
    (path done : List α) : Prop extends Found G node start path done where
  trail : Trail G start done v path
  at_node : v ∈ node
  at_reach : ReflTransGen G.Edge start v
  seen : ∀ u ∈ node, s.seen u = true ↔ u ∈ path ∨ u ∈ done
  opened : ∀ u ∈ node, s.opened u = true ↔ u ∈ path
  backs : v ∉ path → Backs s.back v path
  others : ∀ u ∈ node, u ∉ v :: path → s.back u = zero

structure Leave (G : Graph α) (node : Finset α) (zero start : α) (s : Marks α) (v : α)
    (path done : List α) : Prop extends Found G node start path done where
  trail : Trail G start done v path
  finished : v ∈ done
  seen : ∀ u ∈ node, s.seen u = true ↔ u ∈ path ∨ u ∈ done
  opened : ∀ u ∈ node, s.opened u = true ↔ u = v ∨ u ∈ path
  backs : Backs s.back v path
  others : ∀ u ∈ node, u ∉ v :: path → s.back u = zero

theorem Visit.init (hv : start ∈ node) (hseen : ∀ u ∈ node, s.seen u = false)
    (hopened : ∀ u ∈ node, s.opened u = false) (hback : s.back start = start)
    (hothers : ∀ u ∈ node, u ≠ start → s.back u = zero) : Visit G node zero start s start [] [] where
  sorted := .nil
  nodup := nodup_nil
  nodes := fun _ h => by cases h
  reach := fun _ h => by cases h
  trail := .start
  at_node := hv
  at_reach := .refl
  seen := fun u hu => by simp [hseen u hu]
  opened := fun u hu => by simp [hopened u hu]
  backs := fun _ => hback
  others := fun u hu hne => hothers u hu (by simpa using hne)

theorem Visit.mem_node (h : Visit G node zero start s v path done) (hu : u ∈ v :: path) :
    u ∈ node := by
  rcases mem_cons.mp hu with rfl | hu
  · exact h.at_node
  · exact h.nodes u (mem_append_left _ hu)

theorem Found.mem_of_reach (h : Found G node start [] done) (hs : start ∈ done)
    (hr : ReflTransGen G.Edge start u) : u ∈ done := h.sorted.closed_star hs hr

section

variable (h : Visit G node zero start s v path done) (hpath : v ∉ path)

include h hpath

theorem Visit.enter (hdone : v ∉ done) (hstop : ¬ G.stop v) (hw : w ∈ node)
    (hedge : G.jump v = some w ∨ G.jump v = none ∧ w = G.next v)
    (hseen : ∀ u ∈ node, s'.seen u = true ↔ u = v ∨ s.seen u = true)
    (hopened : ∀ u ∈ node, s'.opened u = true ↔ u = v ∨ s.opened u = true) (hback : s'.back w = v)
    (hothers : ∀ u ∈ node, u ≠ w → s'.back u = s.back u) :
    Visit G node zero start s' w (v :: path) done where
  sorted := h.sorted
  nodup := by
    rw [cons_append, nodup_cons, mem_append]
    exact ⟨not_or.mpr ⟨hpath, hdone⟩, h.nodup⟩
  nodes := fun u hu => by
    rcases mem_cons.mp hu with rfl | hu
    · exact h.at_node
    · exact h.nodes u hu
  reach := fun u hu => by
    rcases mem_cons.mp hu with rfl | hu
    · exact h.at_reach
    · exact h.reach u hu
  trail := by
    refine .down hstop (hedge.imp_right fun ⟨hnone, hnext⟩ => ⟨hnext, fun t ht => ?_⟩) h.trail
    rw [hnone] at ht
    cases ht
  at_node := hw
  at_reach := h.at_reach.tail ⟨hstop, hedge.imp_right And.right⟩
  seen := fun u hu => by
    rw [hseen u hu, h.seen u hu, mem_cons, or_assoc]
  opened := fun u hu => by
    rw [hopened u hu, h.opened u hu, mem_cons]
  backs := fun hne => ⟨hback, (h.backs hpath).congr fun u hu =>
    hothers u (h.mem_node hu) fun heq => hne (heq ▸ hu)⟩
  others := fun u hu hne => by
    rw [hothers u hu fun heq => hne (heq ▸ mem_cons_self ..)]
    exact h.others u hu fun hmem => hne (mem_cons_of_mem _ hmem)

theorem Visit.leave_seen (hdone : v ∈ done)
    (hseen : ∀ u ∈ node, s'.seen u = true ↔ u = v ∨ s.seen u = true)
    (hopened : ∀ u ∈ node, s'.opened u = true ↔ u = v ∨ s.opened u = true)
    (hback : ∀ u ∈ node, s'.back u = s.back u) : Leave G node zero start s' v path done where
  toFound := h.toFound
  trail := h.trail
  finished := hdone
  seen := fun u hu => by
    rw [hseen u hu, h.seen u hu]
    constructor
    · rintro (rfl | hmem)
      · exact .inr hdone
      · exact hmem
    · exact .inr
  opened := fun u hu => by
    rw [hopened u hu, h.opened u hu]
  backs := (h.backs hpath).congr fun u hu => hback u (h.mem_node hu)
  others := fun u hu hne => by
    rw [hback u hu]
    exact h.others u hu hne

theorem Visit.leave_stop (hdone : v ∉ done) (hstop : G.stop v)
    (hseen : ∀ u ∈ node, s'.seen u = true ↔ u = v ∨ s.seen u = true)
    (hopened : ∀ u ∈ node, s'.opened u = true ↔ u = v ∨ s.opened u = true)
    (hback : ∀ u ∈ node, s'.back u = s.back u) : Leave G node zero start s' v path (v :: done) where
  sorted := .cons (fun _ he => absurd hstop he.1) h.sorted
  nodup := by
    refine nodup_middle.mpr (nodup_cons.mpr ⟨?_, h.nodup⟩)
    rw [mem_append]
    exact not_or.mpr ⟨hpath, hdone⟩
  nodes := fun u hu => by
    rcases mem_cons.mp (perm_middle.mem_iff.mp hu) with rfl | hu
    · exact h.at_node
    · exact h.nodes u hu
  reach := fun u hu => by
    rcases mem_cons.mp (perm_middle.mem_iff.mp hu) with rfl | hu
    · exact h.at_reach
    · exact h.reach u hu
  trail := h.trail.mono fun _ => mem_cons_of_mem _
  finished := mem_cons_self ..
  seen := fun u hu => by
    rw [hseen u hu, h.seen u hu, mem_cons]
    exact or_left_comm
  opened := fun u hu => by
    rw [hopened u hu, h.opened u hu]
  backs := (h.backs hpath).congr fun u hu => hback u (h.mem_node hu)
  others := fun u hu hne => by
    rw [hback u hu]
    exact h.others u hu hne

end

theorem Leave.at_node (h : Leave G node zero start s v path done) : v ∈ node :=
  h.nodes v (mem_append_right _ h.finished)

theorem Leave.not_mem_path (h : Leave G node zero start s v path done) : v ∉ path :=
  fun hmem => (disjoint_of_nodup_append h.nodup) hmem h.finished

theorem Leave.pop_next (h : Leave G node zero start s v (p :: path) done) (hv : v = G.next p)
    (hseen : ∀ u ∈ node, s'.seen u = s.seen u)
    (hopened : ∀ u ∈ node, s'.opened u = true ↔ u ≠ v ∧ s.opened u = true)
    (hback : s'.back v = zero) (hothers : ∀ u ∈ node, u ≠ v → s'.back u = s.back u) :
    Leave G node zero start s' p path (p :: done) := by
  have hmem := h.not_mem_path
  have hne : p ≠ v := fun heq => hmem (heq ▸ mem_cons_self ..)
  have hperm : ∀ u, u ∈ path ++ p :: done ↔ u ∈ (p :: path) ++ done := fun u => by
    rw [perm_middle.mem_iff, cons_append]
  cases h.trail with
  | down hstop hedge htrail =>
    refine { sorted := .cons (fun w he => ?_) h.sorted, nodup := nodup_middle.mpr h.nodup,
             nodes := fun u hu => h.nodes u ((hperm u).mp hu),
             reach := fun u hu => h.reach u ((hperm u).mp hu),
             trail := htrail.mono fun _ => mem_cons_of_mem _,
             finished := mem_cons_self .., seen := fun u hu => ?_, opened := fun u hu => ?_,
             backs := ?_, others := fun u hu hn => ?_ }
    · rcases he.2 with hj | hn
      · rcases hedge with hj' | ⟨-, hall⟩
        · rw [hj, Option.some.injEq] at hj'
          exact hj' ▸ h.finished
        · exact hall w hj
      · rw [hn, ← hv]
        exact h.finished
    · rw [hseen u hu, h.seen u hu, mem_cons, mem_cons, or_assoc, or_left_comm]
    · rw [hopened u hu, h.opened u hu, mem_cons]
      constructor
      · rintro ⟨hn, rfl | hm⟩
        · exact absurd rfl hn
        · exact hm
      · intro hm
        exact ⟨fun heq => hmem (heq ▸ mem_cons.mpr hm), .inr hm⟩
    · refine h.backs.2.congr fun u hu => hothers u ?_ fun heq => hmem (heq ▸ hu)
      exact h.nodes u (mem_append_left _ hu)
    · by_cases heq : u = v
      · rw [heq, hback]
      · rw [hothers u hu heq]
        refine h.others u hu fun hm => ?_
        exact (mem_cons.mp hm).elim heq hn

theorem Leave.pop_jump (h : Leave G node zero start s v (p :: path) done) (hv : v ≠ G.next p)
    (hw : G.next p ∈ node) (hseen : ∀ u ∈ node, s'.seen u = s.seen u)
    (hopened : ∀ u ∈ node, s'.opened u = true ↔ u ≠ v ∧ s.opened u = true)
    (hback : s'.back (G.next p) = p) (hback' : s'.back v = zero)
    (hothers : ∀ u ∈ node, u ≠ v → u ≠ G.next p → s'.back u = s.back u) :
    Visit G node zero start s' (G.next p) (p :: path) done := by
  have hmem := h.not_mem_path
  cases h.trail with
  | down hstop hedge htrail =>
    have hjump : G.jump p = some v := hedge.resolve_right fun hn => hv hn.1
    have hall (t : α) (ht : G.jump p = some t) : t ∈ done := by
      rw [hjump, Option.some.injEq] at ht
      exact ht ▸ h.finished
    refine { toFound := h.toFound, trail := .down hstop (.inr ⟨rfl, hall⟩) htrail, at_node := hw,
             at_reach := ?_, seen := fun u hu => ?_, opened := fun u hu => ?_,
             backs := fun hn => ?_, others := fun u hu hn => ?_ }
    · exact (h.reach p (mem_append_left _ (mem_cons_self ..))).tail ⟨hstop, .inr rfl⟩
    · rw [hseen u hu, h.seen u hu]
    · rw [hopened u hu, h.opened u hu]
      constructor
      · rintro ⟨hn, rfl | hm⟩
        · exact absurd rfl hn
        · exact hm
      · intro hm
        exact ⟨fun heq => hmem (heq ▸ hm), .inr hm⟩
    · refine ⟨hback, h.backs.2.congr fun u hu => hothers u ?_ (fun heq => hmem (heq ▸ hu))
        fun heq => hn (heq ▸ hu)⟩
      exact h.nodes u (mem_append_left _ hu)
    · by_cases heq : u = v
      · rw [heq, hback']
      · rw [hothers u hu heq fun he => hn (he ▸ mem_cons_self ..)]
        refine h.others u hu fun hm => ?_
        exact (mem_cons.mp hm).elim heq fun hm => hn (mem_cons_of_mem _ hm)

structure Finished (G : Graph α) (node : Finset α) (zero start : α) (s : Marks α) : Prop where
  order : ∃ l, Sorted G l ∧ l.Nodup ∧ start ∈ l ∧ ∀ u ∈ l, u ∈ node
  seen : ∀ u ∈ node, s.seen u = true ↔ ReflTransGen G.Edge start u
  opened : ∀ u ∈ node, s.opened u = false
  back : ∀ u ∈ node, s.back u = zero

theorem Leave.pop_start (h : Leave G node zero start s v [] done)
    (hseen : ∀ u ∈ node, s'.seen u = s.seen u)
    (hopened : ∀ u ∈ node, s'.opened u = true ↔ u ≠ v ∧ s.opened u = true)
    (hback : s'.back v = zero) (hothers : ∀ u ∈ node, u ≠ v → s'.back u = s.back u) :
    Finished G node zero start s' := by
  have hstart : start ∈ done := by
    cases h.trail
    exact h.finished
  have hmem {u : α} : ReflTransGen G.Edge start u ↔ u ∈ done :=
    ⟨h.toFound.mem_of_reach hstart, fun hu => h.reach u hu⟩
  refine ⟨⟨done, h.sorted, h.nodup, hstart, h.nodes⟩, fun u hu => ?_, fun u hu => ?_, fun u hu => ?_⟩
  · rw [hseen u hu, h.seen u hu, hmem]
    simp
  · rw [Bool.eq_false_iff, Ne, hopened u hu, h.opened u hu]
    rintro ⟨hne, rfl | hm⟩
    · exact hne rfl
    · cases hm
  · by_cases heq : u = v
    · rw [heq, hback]
    · rw [hothers u hu heq]
      exact h.others u hu (by simpa using heq)

/-! ## The length of a search -/

theorem Found.length_le [DecidableEq α] (h : Found G node start path done) :
    path.length + done.length ≤ node.card := by
  rw [← length_append, ← toFinset_card_of_nodup h.nodup]
  exact Finset.card_le_card fun u hu => h.nodes u (mem_toFinset.mp hu)

def visitsLeft [DecidableEq α] (G : Graph α) (node : Finset α) (v : α) (path done : List α) : ℕ :=
  2 * (node.card - (path.length + done.length)) + pending G v path

end Cupcake.BackWalk
