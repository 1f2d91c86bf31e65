import Mathlib.Data.List.Basic

/-! Hash tables with chaining: a list of buckets, each a list of rows. A row stands
in the bucket that the hash of its key names. -/

namespace Cupcake.Buckets

open List

variable {α κ : Type*} [DecidableEq κ] (hash : κ → ℕ) (key : α → κ)

def insert (a : α) (t : List (List α)) : List (List α) := t.modify (hash (key a)) (a :: ·)

def find (k : κ) (t : List (List α)) : Option α := (t.getD (hash k) []).find? fun a => key a = k

/-- Take the first row with the key out. -/
def erase (k : κ) (t : List (List α)) : List (List α) :=
  t.modify (hash k) fun l => l.eraseP fun a => key a = k

/-- The number of rows with the key, in all buckets. -/
def count (k : κ) (t : List (List α)) : ℕ := t.flatten.countP fun a => key a = k

/-- Every row is in the bucket of its key. -/
def Placed (t : List (List α)) : Prop := ∀ i, ∀ a ∈ t.getD i [], hash (key a) = i

variable {hash key} {k : κ} {t : List (List α)} {a : α} {i : ℕ} {f : List α → List α}

omit [DecidableEq κ] in
theorem getD_modify (j : ℕ) (hf : i < t.length) : (t.modify i f).getD j [] =
    if i = j then f (t.getD j []) else t.getD j [] := by
  rw [getD_eq_getElem?_getD, getElem?_modify, getD_eq_getElem?_getD]
  split_ifs with hij
  · subst hij
    rw [getElem?_eq_getElem hf]
    rfl
  · simp

omit [DecidableEq κ] in
theorem countP_flatten_modify (p : α → Bool) (hi : i < t.length) :
    (t.modify i f).flatten.countP p + (t.getD i []).countP p =
      t.flatten.countP p + (f (t.getD i [])).countP p := by
  induction t generalizing i with
  | nil => simp at hi
  | cons l t ih =>
    cases i with
    | zero =>
      simp only [modify_zero_cons, flatten_cons, countP_append, getD_cons_zero]
      omega
    | succ i =>
      have := ih (i := i) (by simpa using hi)
      simp only [modify_succ_cons, flatten_cons, countP_append, getD_cons_succ]
      omega

omit [DecidableEq κ] in
theorem placed_insert (h : Placed hash key t) (hlt : hash (key a) < t.length) :
    Placed hash key (insert hash key a t) := by
  intro i b hb
  rw [insert, getD_modify i hlt] at hb
  split_ifs at hb with hi
  · rcases mem_cons.mp hb with rfl | hb
    · exact hi
    · exact h i b hb
  · exact h i b hb

theorem placed_erase (h : Placed hash key t) (hlt : hash k < t.length) :
    Placed hash key (erase hash key k t) := by
  intro i b hb
  rw [erase, getD_modify i hlt] at hb
  split_ifs at hb
  · exact h i b (mem_of_mem_eraseP hb)
  · exact h i b hb

theorem count_insert (hlt : hash (key a) < t.length) :
    count key k (insert hash key a t) = count key k t + if key a = k then 1 else 0 := by
  have h := countP_flatten_modify (f := (a :: ·)) (fun b => decide (key b = k)) hlt
  rw [countP_cons] at h
  simp only [decide_eq_true_eq] at h
  rw [count, count, insert]
  omega

theorem count_eq (h : Placed hash key t) (hlt : hash k < t.length) :
    count key k t = (t.getD (hash k) []).countP fun a => key a = k := by
  have hzero : ((t.modify (hash k) fun _ => []).flatten).countP (fun a => key a = k) = 0 := by
    rw [countP_eq_zero]
    intro b hb hk
    obtain ⟨l, hl, hbl⟩ := mem_flatten.mp hb
    obtain ⟨i, hi, rfl⟩ := getElem_of_mem hl
    have hget : b ∈ (t.modify (hash k) fun _ => []).getD i [] := by
      rwa [getD_eq_getElem?_getD, getElem?_eq_getElem hi]
    rw [getD_modify i hlt] at hget
    split_ifs at hget with hne
    · cases hget
    · exact hne ((h i b hget).symm.trans (congrArg hash (of_decide_eq_true hk))).symm
  have := countP_flatten_modify (f := fun _ => []) (fun b => decide (key b = k)) hlt
  rw [hzero] at this
  rw [count]
  simpa using this.symm

theorem find_eq_none_iff (h : Placed hash key t) (hlt : hash k < t.length) :
    find hash key k t = none ↔ count key k t = 0 := by
  rw [count_eq h hlt, find, find?_eq_none, countP_eq_zero]

theorem countP_eraseP_self (p : α → Bool) (l : List α) :
    (l.eraseP p).countP p = l.countP p - 1 := by
  induction l with
  | nil => rfl
  | cons a l ih =>
    by_cases ha : p a
    · rw [eraseP_cons_of_pos ha, countP_cons_of_pos ha]
      rfl
    · rw [eraseP_cons_of_neg ha, countP_cons_of_neg ha, countP_cons_of_neg ha, ih]

theorem countP_eraseP_of_ne {p q : α → Bool} (h : ∀ a, p a → ¬ q a) (l : List α) :
    (l.eraseP p).countP q = l.countP q := by
  induction l with
  | nil => rfl
  | cons a l ih =>
    by_cases ha : p a
    · rw [eraseP_cons_of_pos ha, countP_cons_of_neg (h a ha)]
    · rw [eraseP_cons_of_neg ha, countP_cons, countP_cons, ih]

theorem count_erase (h : Placed hash key t) (hlt : hash k < t.length) (k' : κ) :
    count key k' (erase hash key k t) = if k' = k then count key k t - 1 else count key k' t := by
  split_ifs with hk
  · subst hk
    rw [count_eq (placed_erase h hlt) (by rwa [erase, length_modify]), count_eq h hlt, erase,
      getD_modify _ hlt, if_pos rfl, countP_eraseP_self]
  · have hmod := countP_flatten_modify (f := fun l => l.eraseP fun a => key a = k)
      (fun b => decide (key b = k')) hlt
    rw [countP_eraseP_of_ne fun a ha hb =>
      hk ((of_decide_eq_true hb).symm.trans (of_decide_eq_true ha))]
      at hmod
    rw [count, count, erase]
    omega

end Cupcake.Buckets
