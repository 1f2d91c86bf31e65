import Mathlib.Data.List.Nodup

/-! Circular doubly linked lists (`struct list_head`) as the pointers that make them up. -/

namespace Cupcake

@[ext] structure Links (α : Type*) where
  next : α → α
  prev : α → α

namespace Links

open List Function

variable {α : Type*} {m m' : Links α} {a b x y h new prv nxt : α} {l r : List α}

/-- The pointers lead from `a` over the list to `b`, and back. -/
def Path (m : Links α) : α → List α → α → Prop
  | a, [], b => m.next a = b ∧ m.prev b = a
  | a, x :: l, b => m.next a = x ∧ m.prev x = a ∧ Path m x l b

/-- A list head and the entries of the list behind it, in order. -/
structure Ring (m : Links α) (h : α) (l : List α) : Prop where
  nodup : (h :: l).Nodup
  path : m.Path h l h

theorem path_append : m.Path a (l ++ x :: r) b ↔ m.Path a l x ∧ m.Path x r b := by
  induction l generalizing a with
  | nil => simp only [nil_append, Path, and_assoc]
  | cons y l ih => simp only [cons_append, Path, ih, and_assoc]

theorem Path.eq (hp : m.Path a l b) (hp' : m'.Path a l b) :
    (∀ y ∈ a :: l, m'.next y = m.next y) ∧ ∀ y ∈ l ++ [b], m'.prev y = m.prev y := by
  induction l generalizing a with
  | nil =>
    simp only [nil_append, mem_singleton, forall_eq]
    exact ⟨hp'.1.trans hp.1.symm, hp'.2.trans hp.2.symm⟩
  | cons x l ih =>
    obtain ⟨hn, hv⟩ := ih hp.2.2 hp'.2.2
    refine ⟨forall_mem_cons.mpr ⟨hp'.1.trans hp.1.symm, hn⟩, ?_⟩
    rw [cons_append]
    exact forall_mem_cons.mpr ⟨hp'.2.1.trans hp.2.1.symm, hv⟩

theorem Path.redirect (hp : m.Path a l b) (hn : ∀ y ∈ (a :: l).dropLast, m'.next y = m.next y)
    (hv : ∀ y ∈ l, m'.prev y = m.prev y) (hlast : m'.next (m.prev b) = x)
    (hx : m'.prev x = m.prev b) : m'.Path a l x := by
  induction l generalizing a with
  | nil =>
    rw [hp.2] at hlast hx
    exact ⟨hlast, hx⟩
  | cons y l ih =>
    obtain ⟨hv₁, hv₂⟩ := forall_mem_cons.mp hv
    rw [dropLast_cons_of_ne_nil (cons_ne_nil _ _)] at hn
    obtain ⟨hn₁, hn₂⟩ := forall_mem_cons.mp hn
    exact ⟨hn₁.trans hp.1, hv₁.trans hp.2.1, ih hp.2.2 hn₂ hv₂⟩

theorem Path.prev_end (hp : m.Path a l b) : m.prev b = (a :: l).getLast (cons_ne_nil _ _) := by
  induction l generalizing a with
  | nil => exact hp.2
  | cons x l ih => rw [getLast_cons (cons_ne_nil _ _), ih hp.2.2]

theorem Path.next_prev (hp : m.Path a l b) : m.next (m.prev b) = b := by
  induction l generalizing a with
  | nil => rw [hp.2, hp.1]
  | cons x l ih => exact ih hp.2.2

/-! ## Rings -/

theorem Ring.next_eq_iff (hr : m.Ring h l) : m.next h = h ↔ l = [] := by
  cases l with
  | nil => exact iff_of_true hr.path.1 rfl
  | cons x l =>
    refine iff_of_false ?_ (cons_ne_nil _ _)
    intro he
    exact (nodup_cons.mp hr.nodup).1 (he.symm.trans hr.path.1 ▸ mem_cons_self)

theorem Ring.rotate (hr : m.Ring h (l ++ x :: r)) : m.Ring x (r ++ h :: l) := by
  obtain ⟨h₁, h₂⟩ := path_append.mp hr.path
  refine ⟨?_, path_append.mpr ⟨h₂, h₁⟩⟩
  have hperm : (h :: (l ++ x :: r)).Perm (x :: (r ++ h :: l)) :=
    show ((h :: l) ++ x :: r).Perm ((x :: r) ++ h :: l) from perm_append_comm
  exact hperm.nodup_iff.mp hr.nodup

section

variable (hr : m.Ring h l)

include hr

theorem Ring.prev_next : m.prev (m.next h) = h := by
  cases l with
  | nil => rw [hr.path.1, hr.path.2]
  | cons x l => rw [hr.path.1, hr.path.2.1]

theorem Ring.prev_mem : m.prev h ∈ h :: l :=
  hr.path.prev_end ▸ getLast_mem _

theorem Ring.next_mem : m.next h ∈ h :: l := by
  cases l with
  | nil => exact mem_singleton.mpr hr.path.1
  | cons x l => exact mem_cons_of_mem _ (hr.path.1 ▸ mem_cons_self)

theorem Ring.congr
    (hm : ∀ y ∈ h :: l, m'.next y = m.next y ∧ m'.prev y = m.prev y) : m'.Ring h l := by
  refine ⟨hr.nodup, hr.path.redirect (fun y hy => (hm y ((dropLast_sublist _).subset hy)).1)
    (fun y hy => (hm y (mem_cons_of_mem _ hy)).2) ?_ (hm h mem_cons_self).2⟩
  rw [(hm _ hr.prev_mem).1, hr.path.next_prev]

theorem Ring.eq (hr' : m'.Ring h l) (hy : y ∈ h :: l) :
    m'.next y = m.next y ∧ m'.prev y = m.prev y := by
  obtain ⟨hn, hv⟩ := hr.path.eq hr'.path
  refine ⟨hn y hy, hv y ?_⟩
  rw [mem_append, mem_singleton]
  exact (mem_cons.mp hy).symm

end

def Cycle (m : Links α) : List α → Prop
  | [] => True
  | x :: l => m.Ring x l

theorem cycle_append_cons : m.Cycle (l ++ x :: r) ↔ m.Ring x (r ++ l) := by
  cases l with
  | nil => rw [nil_append, append_nil, Cycle]
  | cons y l => exact ⟨Ring.rotate, Ring.rotate⟩

theorem Cycle.rotate (hc : m.Cycle (l ++ r)) : m.Cycle (r ++ l) := by
  cases r with
  | nil => rwa [append_nil] at hc
  | cons x r => exact cycle_append_cons.mp hc

theorem Cycle.nodup (hc : m.Cycle l) : l.Nodup := by
  cases l with
  | nil => exact nodup_nil
  | cons x l => exact Ring.nodup hc

/-! ## Operations -/

variable [DecidableEq α]

def setNext (m : Links α) (a b : α) : Links α := { m with next := Function.update m.next a b }

def setPrev (m : Links α) (a b : α) : Links α := { m with prev := Function.update m.prev a b }

/-- `__list_add` -/
def insert (m : Links α) (new prev next : α) : Links α :=
  (((m.setPrev next new).setNext new next).setPrev new prev).setNext prev new

/-- `list_add` -/
def add (m : Links α) (new head : α) : Links α := m.insert new head (m.next head)

def addTail (m : Links α) (new head : α) : Links α := m.insert new (m.prev head) head

/-- `INIT_LIST_HEAD` -/
def init (m : Links α) (a : α) : Links α := (m.setNext a a).setPrev a a

def delInit (m : Links α) (a : α) : Links α :=
  ((m.setPrev (m.next a) (m.prev a)).setNext (m.prev a) (m.next a)).init a

/-- `list_empty` -/
def isEmpty (m : Links α) (a : α) : Bool := m.next a = a

theorem insert_next : (m.insert new prv nxt).next y =
    if y = prv then new else if y = new then nxt else m.next y := by
  simp only [insert, setNext, setPrev, update_apply]

theorem insert_prev : (m.insert new prv nxt).prev y =
    if y = new then prv else if y = nxt then new else m.prev y := by
  simp only [insert, setNext, setPrev, update_apply]

theorem delInit_next : (m.delInit x).next y =
    if y = x then x else if y = m.prev x then m.next x else m.next y := by
  simp only [delInit, init, setNext, setPrev, update_apply]

theorem delInit_prev : (m.delInit x).prev y =
    if y = x then x else if y = m.next x then m.prev x else m.prev y := by
  simp only [delInit, init, setNext, setPrev, update_apply]

theorem Ring.isEmpty_iff (hr : m.Ring h l) : m.isEmpty h = true ↔ l = [] := by
  rw [isEmpty, decide_eq_true_eq, hr.next_eq_iff]

theorem Ring.addTail (hr : m.Ring h l) (hnew : new ∉ h :: l) :
    (m.addTail new h).Ring h (l ++ [new]) := by
  have hnd : (h :: (l ++ [new])).Nodup := by
    rw [← cons_append]
    exact hr.nodup.append (nodup_singleton _) (by simpa using hnew)
  have hne : ∀ y ∈ h :: l, y ≠ new := fun y hy he => hnew (he ▸ hy)
  refine ⟨hnd, path_append.mpr ⟨hr.path.redirect ?_ ?_ ?_ ?_, ?_, ?_⟩⟩
  · intro y hy
    have hlast : y ≠ m.prev h := by
      rintro rfl
      rw [hr.path.prev_end] at hy
      have hsplit := dropLast_append_getLast (cons_ne_nil h l)
      have hdis := nodup_append.mp (hsplit.symm ▸ hr.nodup)
      exact hdis.2.2 _ hy _ (mem_singleton_self _) rfl
    rw [Links.addTail, insert_next, if_neg hlast, if_neg (hne y ((dropLast_sublist _).subset hy))]
  · intro y hy
    have hh : y ≠ h := fun he => (nodup_cons.mp hr.nodup).1 (he ▸ hy)
    rw [Links.addTail, insert_prev, if_neg (hne y (mem_cons_of_mem _ hy)), if_neg hh]
  · rw [Links.addTail, insert_next, if_pos rfl]
  · rw [Links.addTail, insert_prev, if_pos rfl]
  · rw [Links.addTail, insert_next, if_neg (hne _ hr.prev_mem).symm, if_pos rfl]
  · rw [Links.addTail, insert_prev, if_neg (hne h mem_cons_self), if_pos rfl]

theorem Ring.add (hr : m.Ring h l) (hnew : new ∉ h :: l) : (m.add new h).Ring h (new :: l) := by
  have heq : m.add new h = m.addTail new (m.next h) := by
    rw [Links.add, Links.addTail, hr.prev_next]
  rw [heq]
  cases l with
  | nil =>
    rw [hr.path.1]
    exact hr.addTail hnew
  | cons x l =>
    rw [hr.path.1]
    have hx : m.Ring x (l ++ [h]) := Ring.rotate (l := []) hr
    have hnew' : new ∉ x :: (l ++ [h]) := by
      simp only [mem_cons, mem_append, not_mem_nil, or_false] at hnew ⊢
      exact fun hm => hnew (or_rotate.mpr hm)
    have hadd := hx.addTail hnew'
    rw [append_assoc] at hadd
    exact hadd.rotate

theorem Ring.delInit_last (hr : m.Ring h (l ++ [x])) : (m.delInit x).Ring h l := by
  obtain ⟨hpath, hnext, hprev⟩ := path_append.mp hr.path
  have hnd : (h :: l).Nodup := hr.nodup.sublist (by simp)
  have hx : x ∉ h :: l := by
    have := hr.nodup
    rw [← cons_append] at this
    exact fun hm => (nodup_append.mp this).2.2 x hm x (mem_singleton_self _) rfl
  have hne : ∀ y ∈ h :: l, y ≠ x := fun y hy he => hx (he ▸ hy)
  have hmem : m.prev x ∈ h :: l := hpath.prev_end ▸ getLast_mem _
  refine ⟨hnd, hpath.redirect ?_ ?_ ?_ ?_⟩
  · intro y hy
    have hlast : y ≠ m.prev x := by
      rintro rfl
      rw [hpath.prev_end] at hy
      have hsplit := dropLast_append_getLast (cons_ne_nil h l)
      have hdis := nodup_append.mp (hsplit.symm ▸ hnd)
      exact hdis.2.2 _ hy _ (mem_singleton_self _) rfl
    rw [delInit_next, if_neg (hne y ((dropLast_sublist _).subset hy)), if_neg hlast]
  · intro y hy
    have hh : y ≠ h := fun he => (nodup_cons.mp hnd).1 (he ▸ hy)
    rw [delInit_prev, if_neg (hne y (mem_cons_of_mem _ hy)), hnext, if_neg hh]
  · rw [delInit_next, if_neg (hne _ hmem), if_pos rfl, hnext]
  · rw [delInit_prev, if_neg (hne h mem_cons_self), hnext, if_pos rfl]

section

variable (hc : m.Cycle (l ++ x :: r))

include hc

theorem Cycle.addTail (hnew : new ∉ l ++ x :: r) :
    (m.addTail new x).Cycle (l ++ new :: x :: r) := by
  have hnew' : new ∉ x :: (r ++ l) := by
    simp only [mem_cons, mem_append] at hnew ⊢
    exact fun hm => hnew (or_left_comm.mp (hm.imp_right Or.symm))
  have hr := (cycle_append_cons.mp hc).addTail hnew'
  rw [append_assoc] at hr
  have hrot := cycle_append_cons.mpr hr
  rwa [append_assoc] at hrot

theorem Cycle.add (hnew : new ∉ l ++ x :: r) : (m.add new x).Cycle (l ++ x :: new :: r) := by
  refine cycle_append_cons.mpr ((cycle_append_cons.mp hc).add fun hm => hnew ?_)
  simp only [mem_cons, mem_append] at hm ⊢
  exact or_left_comm.mp (hm.imp_right Or.symm)

theorem Cycle.delInit : (m.delInit x).Cycle (l ++ r) := by
  have hr := cycle_append_cons.mp hc
  cases hrl : r ++ l with
  | nil =>
    obtain ⟨rfl, rfl⟩ := append_eq_nil_iff.mp hrl
    trivial
  | cons y k =>
    rw [hrl] at hr
    have hy : (m.delInit x).Ring y k := (Ring.rotate (l := []) hr).delInit_last
    have hcyc : (m.delInit x).Cycle (r ++ l) := hrl ▸ hy
    exact hcyc.rotate

end

theorem ring_delInit (m : Links α) (x : α) : (m.delInit x).Ring x [] :=
  ⟨nodup_singleton x, by rw [delInit_next, if_pos rfl], by rw [delInit_prev, if_pos rfl]⟩

/-! What is alone in its ring stays alone when the others change. -/

section Rest

variable (hc : m.Cycle (l ++ x :: r)) (hy : y ∉ l ++ x :: r) (hr : m.Ring y [])

include hc hy

omit [DecidableEq α] in
theorem Cycle.ne_prev_next : y ≠ x ∧ y ≠ m.prev x ∧ y ≠ m.next x := by
  have hx := cycle_append_cons.mp hc
  have hmem : ∀ z ∈ x :: (r ++ l), y ≠ z := by
    intro z hz he
    refine hy (he ▸ ?_)
    simp only [mem_cons, mem_append] at hz ⊢
    exact or_left_comm.mp (hz.imp_right Or.symm)
  exact ⟨hmem x mem_cons_self, hmem _ hx.prev_mem, hmem _ hx.next_mem⟩

include hr

theorem Cycle.addTail_rest (hne : y ≠ new) : (m.addTail new x).Ring y [] := by
  obtain ⟨h₁, h₂, -⟩ := hc.ne_prev_next hy
  refine hr.congr fun z hz => ?_
  rw [mem_singleton.mp hz, Links.addTail, insert_next, insert_prev, if_neg h₂, if_neg hne,
    if_neg hne, if_neg h₁]
  exact ⟨rfl, rfl⟩

theorem Cycle.add_rest (hne : y ≠ new) : (m.add new x).Ring y [] := by
  obtain ⟨h₁, -, h₂⟩ := hc.ne_prev_next hy
  refine hr.congr fun z hz => ?_
  rw [mem_singleton.mp hz, Links.add, insert_next, insert_prev, if_neg h₁, if_neg hne, if_neg hne,
    if_neg h₂]
  exact ⟨rfl, rfl⟩

theorem Cycle.delInit_rest : (m.delInit x).Ring y [] := by
  obtain ⟨h₁, h₂, h₃⟩ := hc.ne_prev_next hy
  refine hr.congr fun z hz => ?_
  rw [mem_singleton.mp hz, delInit_next, delInit_prev, if_neg h₁, if_neg h₂, if_neg h₁, if_neg h₃]
  exact ⟨rfl, rfl⟩

end Rest

theorem Cycle.isEmpty_iff (hc : m.Cycle (l ++ x :: r)) : m.isEmpty x = true ↔ l = [] ∧ r = [] := by
  rw [(cycle_append_cons.mp hc).isEmpty_iff, append_eq_nil_iff, and_comm]

theorem Cycle.delInit_all (hc : m.Cycle (l ++ x :: r)) (hr : ∀ y ∉ l ++ x :: r, m.Ring y []) :
    ∀ y ∉ l ++ r, (m.delInit x).Ring y [] := by
  intro y hy
  by_cases hx : y = x
  · exact hx ▸ ring_delInit m x
  · have hyx : y ∉ l ++ x :: r := by
      simp only [mem_append, mem_cons, not_or] at hy ⊢
      exact ⟨hy.1, hx, hy.2⟩
    exact hc.delInit_rest hyx (hr y hyx)

/-! A new entry goes before the second part of a ring, or to the end. -/

section Before

variable {first : α} (hc : m.Cycle (l ++ r)) (hf : (l ++ r).head? = some first)

include hc hf

theorem Cycle.addTail_before (hnew : new ∉ l ++ r) :
    (m.addTail new (r.head?.getD first)).Cycle (l ++ new :: r) := by
  cases r with
  | nil =>
    rw [append_nil] at hc hf hnew
    obtain ⟨t, rfl⟩ := head?_eq_some_iff.mp hf
    exact Ring.addTail hc hnew
  | cons x r => exact hc.addTail hnew

theorem Cycle.addTail_before_rest (hy : y ∉ l ++ r) (hr : m.Ring y []) (hne : y ≠ new) :
    (m.addTail new (r.head?.getD first)).Ring y [] := by
  cases r with
  | nil =>
    rw [append_nil] at hc hf hy
    obtain ⟨t, rfl⟩ := head?_eq_some_iff.mp hf
    exact Cycle.addTail_rest (l := []) hc hy hr hne
  | cons x r => exact hc.addTail_rest hy hr hne

end Before

end Links

end Cupcake
