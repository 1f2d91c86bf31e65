import Mathlib.Tactic.Common

/-! Intrusive lists (`struct list_head`) as lists of records that are told apart by a
key, such as their address. -/

namespace Cupcake.Chain

variable {α κ : Type*} [DecidableEq κ] (key : α → κ)

def find (k : κ) : List α → Option α
  | [] => none
  | a :: l => if key a = k then some a else find k l

def next (k : κ) : List α → Option α
  | [] => none
  | a :: l => if key a = k then l.head? else next k l

def prev (k : κ) : List α → Option α
  | a :: b :: l => if key b = k then some a else prev k (b :: l)
  | _ => none

def insertAfter (k : κ) (x : α) : List α → List α
  | [] => []
  | a :: l => if key a = k then a :: x :: l else a :: insertAfter k x l

def remove (k : κ) : List α → List α
  | [] => []
  | a :: l => if key a = k then l else a :: remove k l

def modify (k : κ) (f : α → α) : List α → List α
  | [] => []
  | a :: l => if key a = k then f a :: l else a :: modify k f l

variable {key} {pre post : List α} {b : α}

section Split

variable (h : ∀ a ∈ pre, key a ≠ key b) (post)

include h

theorem find_split : find key (key b) (pre ++ b :: post) = some b := by
  induction pre with
  | nil => simp [find]
  | cons a l ih => simpa [find, h a (by simp)] using ih fun x hx => h x (by simp [hx])

theorem next_split : next key (key b) (pre ++ b :: post) = post.head? := by
  induction pre with
  | nil => simp [next]
  | cons a l ih => simpa [next, h a (by simp)] using ih fun x hx => h x (by simp [hx])

theorem prev_split (hp : pre ≠ []) : prev key (key b) (pre ++ b :: post) = pre.getLast? := by
  induction pre with
  | nil => exact absurd rfl hp
  | cons a l ih =>
    cases l with
    | nil => simp [prev]
    | cons c l =>
      have hc : key c ≠ key b := h c (by simp)
      simpa [prev, hc] using ih (fun x hx => h x (by simp [hx])) (by simp)

theorem insertAfter_split (x : α) :
    insertAfter key (key b) x (pre ++ b :: post) = pre ++ b :: x :: post := by
  induction pre with
  | nil => simp [insertAfter]
  | cons a l ih => simpa [insertAfter, h a (by simp)] using ih fun x hx => h x (by simp [hx])

theorem remove_split : remove key (key b) (pre ++ b :: post) = pre ++ post := by
  induction pre with
  | nil => simp [remove]
  | cons a l ih => simpa [remove, h a (by simp)] using ih fun x hx => h x (by simp [hx])

theorem modify_split (f : α → α) :
    modify key (key b) f (pre ++ b :: post) = pre ++ f b :: post := by
  induction pre with
  | nil => simp [modify]
  | cons a l ih => simpa [modify, h a (by simp)] using ih fun x hx => h x (by simp [hx])

end Split

theorem next_map (k : κ) (l : List α) : (next key k l).map key = next id k (l.map key) := by
  induction l with
  | nil => rfl
  | cons a l ih =>
    by_cases ha : key a = k
    · simp [next, ha]
    · simpa [next, ha] using ih

theorem mem_of_find {k : κ} {l : List α} {a : α} (h : find key k l = some a) :
    a ∈ l ∧ key a = k := by
  induction l with
  | nil => cases h
  | cons c l ih =>
    rw [find] at h
    split_ifs at h with hc
    · obtain rfl := Option.some.inj h
      exact ⟨by simp, hc⟩
    · exact ⟨List.mem_cons_of_mem _ (ih h).1, (ih h).2⟩

theorem modify_of_not_mem {k : κ} {f : α → α} {l : List α} (h : ∀ a ∈ l, key a ≠ k) :
    modify key k f l = l := by
  induction l with
  | nil => rfl
  | cons a l ih => simpa [modify, h a (by simp)] using ih fun x hx => h x (by simp [hx])

theorem next_append_right {k : κ} (h : ∀ a ∈ pre, key a ≠ k) :
    next key k (pre ++ post) = next key k post := by
  induction pre with
  | nil => rfl
  | cons a l ih => simpa [next, h a (by simp)] using ih fun x hx => h x (by simp [hx])

theorem next_append_left {k : κ} {post' : List α} (h : k ∈ pre.map key)
    (hhead : post.head?.map key = post'.head?.map key) :
    (next key k (pre ++ post)).map key = (next key k (pre ++ post')).map key := by
  induction pre with
  | nil => cases h
  | cons a l ih =>
    by_cases ha : key a = k
    · cases l with
      | nil => simpa [next, ha] using hhead
      | cons c l => simp [next, ha]
    · have hl : k ∈ l.map key := by
        rcases List.mem_cons.mp h with h | h
        · exact absurd h.symm ha
        · exact h
      simpa [next, ha] using ih hl

end Cupcake.Chain
