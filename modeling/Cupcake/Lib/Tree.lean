import Mathlib.Data.List.Perm.Basic
import Mathlib.Tactic.Linarith

/-! Binary search trees whose nodes are linked at a leaf and then rebalanced in any way that keeps
the order of the nodes. -/

namespace Cupcake

open List

inductive Color
  | red | black

inductive Tree (α : Type*)
  | leaf
  | node (c : Color) (l : Tree α) (a : α) (r : Tree α)

namespace Tree

variable {α κ ε : Type*}

def toList : Tree α → List α
  | leaf => []
  | node _ l a r => l.toList ++ a :: r.toList

@[simp] theorem toList_leaf : (leaf : Tree α).toList = [] := rfl

@[simp] theorem toList_node (c : Color) (l : Tree α) (a : α) (r : Tree α) :
    (node c l a r).toList = l.toList ++ a :: r.toList := rfl

def link (goLeft : α → Except ε Bool) (x : α) : Tree α → Except ε (Tree α)
  | leaf => .ok (.node .red .leaf x .leaf)
  | node c l a r =>
    match goLeft a with
    | .error e => .error e
    | .ok true => (link goLeft x l).map fun l' => .node c l' a r
    | .ok false => (link goLeft x r).map fun r' => .node c l a r'

/-- Ways to rebalance: `rb_insert_color` after a node was linked, and `rb_erase`. -/
structure Balancer (α : Type*) [DecidableEq α] where
  insertColor : Tree α → Tree α
  erase : α → Tree α → Tree α
  toList_insertColor : ∀ t, (insertColor t).toList = t.toList
  toList_erase : ∀ a t, (erase a t).toList = t.toList.erase a

def ofList : List α → Tree α
  | [] => leaf
  | a :: l => node .black leaf a (ofList l)

theorem toList_ofList (l : List α) : (ofList l).toList = l := by
  induction l with
  | nil => rfl
  | cons a l ih => simp [ofList, ih]

instance [DecidableEq α] : Inhabited (Balancer α) where
  default :=
    { insertColor := id
      erase := fun a t => ofList (t.toList.erase a)
      toList_insertColor := fun _ => rfl
      toList_erase := fun a t => toList_ofList (t.toList.erase a) }

theorem exists_link [LinearOrder κ] (key : α → κ) (goLeft : α → Except ε Bool) (x : α) {t : Tree α}
    (hgo : ∀ y ∈ t.toList, goLeft y = .ok (decide (key x < key y)))
    (hs : t.toList.Pairwise fun a b => key a ≤ key b) :
    ∃ t', t.link goLeft x = .ok t' ∧ t'.toList.Perm (x :: t.toList) ∧
      t'.toList.Pairwise fun a b => key a ≤ key b := by
  induction t with
  | leaf => exact ⟨_, rfl, by simp, by simp⟩
  | node c l a r ihl ihr =>
    simp only [toList_node] at hgo hs ⊢
    obtain ⟨hl, har, hlar⟩ := pairwise_append.mp hs
    obtain ⟨hr, hrs⟩ := pairwise_cons.mp har
    have ha : goLeft a = .ok (decide (key x < key a)) := hgo a (by simp)
    by_cases hx : key x < key a
    · obtain ⟨l', hl', hperm, hsort⟩ := ihl (fun y hy => hgo y (by simp [hy])) hl
      refine ⟨.node c l' a r, ?_, hperm.append_right _, ?_⟩
      · simp only [link, ha, hx, decide_true, hl', Except.map]
      · refine pairwise_append.mpr ⟨hsort, har, ?_⟩
        intro y hy z hz
        rcases mem_cons.mp (hperm.mem_iff.mp hy) with rfl | hy
        · rcases mem_cons.mp hz with rfl | hz
          · exact hx.le
          · exact hx.le.trans (hr z hz)
        · exact hlar y hy z hz
    · obtain ⟨r', hr', hperm, hsort⟩ := ihr (fun y hy => hgo y (by simp [hy])) hrs
      refine ⟨.node c l a r', ?_, ?_, ?_⟩
      · simp only [link, ha, hx, decide_false, hr', Except.map]
      · refine ((hperm.cons a).append_left l.toList).trans ?_
        exact ((List.Perm.swap x a _).append_left _).trans perm_middle
      · have hax : ∀ z ∈ r'.toList, key a ≤ key z := by
          intro z hz
          rcases mem_cons.mp (hperm.mem_iff.mp hz) with rfl | hz
          · exact not_lt.mp hx
          · exact hr z hz
        refine pairwise_append.mpr ⟨hl, pairwise_cons.mpr ⟨hax, hsort⟩, ?_⟩
        intro y hy z hz
        have hya := hlar y hy a (by simp)
        rcases mem_cons.mp hz with rfl | hz
        · exact hya
        · exact hya.trans (hax z hz)

/-! ## Nodes in place -/

def map (f : α → α) : Tree α → Tree α
  | leaf => leaf
  | node c l a r => node c (l.map f) (f a) (r.map f)

@[simp] theorem toList_map (f : α → α) (t : Tree α) : (t.map f).toList = t.toList.map f := by
  induction t with
  | leaf => rfl
  | node c l a r ihl ihr => simp [map, ihl, ihr]

def linkAt (goLeft : α → Bool) (x : α) : Tree α → Tree α
  | leaf => node .red leaf x leaf
  | node c l a r => if goLeft a then node c (linkAt goLeft x l) a r else node c l a (linkAt goLeft x r)

theorem toList_linkAt {goLeft : α → Bool} {x : α} {t : Tree α} {l₁ l₂ : List α}
    (ht : t.toList = l₁ ++ l₂) (h₁ : ∀ a ∈ l₁, goLeft a = false) (h₂ : ∀ a ∈ l₂, goLeft a = true) :
    (t.linkAt goLeft x).toList = l₁ ++ x :: l₂ := by
  induction t generalizing l₁ l₂ with
  | leaf =>
    obtain ⟨rfl, rfl⟩ := append_eq_nil_iff.mp ht.symm
    rfl
  | node c l a r ihl ihr =>
    rw [toList_node] at ht
    by_cases ha : goLeft a = true
    · obtain ⟨m, rfl, hm⟩ | ⟨m, hm, hr⟩ := append_eq_append_iff.mp ht
      · cases m with
        | nil =>
          rw [nil_append] at hm
          rw [linkAt, if_pos ha, toList_node,
            ihl (append_nil _).symm (by simpa using h₁) (by simp), ← hm]
          simp
        | cons b m =>
          obtain ⟨rfl, -⟩ := List.cons.inj hm
          exact absurd ha (by simp [h₁ a (by simp)])
      · subst hr
        rw [linkAt, if_pos ha, toList_node,
          ihl hm h₁ (fun b hb => h₂ b (mem_append_left _ hb))]
        simp
    · obtain ⟨m, rfl, hm⟩ | ⟨m, hm, rfl⟩ := append_eq_append_iff.mp ht
      · cases m with
        | nil => exact absurd (h₂ a (by rw [nil_append] at hm; simp [← hm])) ha
        | cons b m =>
          obtain ⟨rfl, hr⟩ := List.cons.inj hm
          rw [linkAt, if_neg ha, toList_node, ihr hr (fun b hb => h₁ b (by simp [hb])) h₂]
          simp
      · exact absurd (h₂ a (by simp)) ha

section Neighbours

variable [DecidableEq α]

/-- The nodes that `rb_next` steps through from `a`, with `a` itself. -/
def nodesFrom (t : Tree α) (a : α) : List α := t.toList.dropWhile (· ≠ a)

def next (t : Tree α) (a : α) : Option α := (t.nodesFrom a).tail.head?

def prev (t : Tree α) (a : α) : Option α := (t.toList.takeWhile (· ≠ a)).getLast?

variable {t : Tree α} {a : α} {l₁ l₂ : List α}

section

variable (h : t.toList = l₁ ++ a :: l₂) (ha : a ∉ l₁)

include h ha

theorem nodesFrom_eq : t.nodesFrom a = a :: l₂ := by
  have hne : ∀ b ∈ l₁, decide (b ≠ a) = true := fun b hb => decide_eq_true fun he => ha (he ▸ hb)
  rw [nodesFrom, h, dropWhile_append_of_pos hne]
  simp

theorem next_eq : t.next a = l₂.head? := by
  rw [next, nodesFrom_eq h ha, tail_cons]

theorem prev_eq : t.prev a = l₁.getLast? := by
  have hne : ∀ b ∈ l₁, decide (b ≠ a) = true := fun b hb => decide_eq_true fun he => ha (he ▸ hb)
  rw [prev, h, takeWhile_append_of_pos hne]
  simp

end

end Neighbours

end Tree

end Cupcake
