import Cupcake.Mlog.Defs

/-! The log as a bounded queue: the oldest numbers fall out when it is full, and the
reader is given the others one by one, each in the format of its own column. -/

namespace Cupcake.Mlog

open List Function

abbrev Entry := Fmt × ℤ

def Entry.text (e : Entry) : List Char := if e.1 = .cr then ['\n'] else snprintf e.1 e.2

structure Queue where
  unread : List Entry
  /-- Whether the reader has been given nothing yet. -/
  fresh : Bool
  reader : Option (ℕ × ℕ)
  out : List (List Char)

def push (unread : List Entry) (e : Entry) : List Entry :=
  if mlogBufLen < (unread ++ [e]).length then (unread ++ [e]).tail else unread ++ [e]

/-- What is left for a round: `skip` lets a reader that starts pass over what is left of a record
without its mark. -/
def Queue.left (skip : Bool) (q : Queue) : List Entry :=
  if skip && q.fresh then q.unread.dropWhile fun e => e.1 ≠ .cr else q.unread

def Queue.step (skip : Bool) (q : Queue) : Action → Queue
  | .log group => { q with unread := group.entries.foldl push q.unread }
  | .read len => { q with reader := some (len, 0) }
  | .next =>
    match q.reader with
    | none => q
    | some (len, size) =>
      if mlogStrLen < wsub 64 len size then
        match q.left skip with
        | [] => { q with unread := [], reader := none }
        | e :: unread =>
          { unread := unread
            fresh := false
            reader := some (len, size + e.text.length)
            out := q.out ++ [e.text] }
      else { q with reader := none }

def Queue.init : Queue := { unread := [], fresh := true, reader := none, out := [] }

def Queue.run (skip : Bool) (acts : List Action) : Queue := acts.foldl (Queue.step skip) .init

def hasRoom (s : State) : Bool :=
  match s.reader with
  | none => false
  | some (len, size) => mlogStrLen < wsub 64 len size

/-- The numbers in the ring from `mlog_start` to `mlog_end`. -/
def unread (s : State) : List ℤ :=
  (range (wsub 32 s.mlogEnd s.mlogStart)).map fun i => mlogBuf s (s.mlogStart + i)

/-- Only the mark of a record is `MLOG_ID`, and unread numbers are overwritten only before the
reader was given one. In a round the counters have not wrapped between the reader and the writer,
and a reader that was given something has two numbers left, one that starts has no mark as the
last one and, unless it may skip, a mark as the first one. -/
def guard (skip : Bool) (s : State) : Action → Prop
  | .log group => (∀ e ∈ group.entries, e.2 = mlogId → e.1 = .cr) ∧
      (s.strfmtIdx = 0 ∨ (unread s).length + group.entries.length ≤ mlogBufLen)
  | .read _ => True
  | .next => hasRoom s = true → unread s = [] ∨ s.mlogStart < s.mlogEnd ∧
      if s.strfmtIdx = 0 then (unread s).getLast? ≠ some mlogId ∧
        (skip = true ∨ (unread s).head? = some mlogId)
      else 2 ≤ (unread s).length

instance (skip : Bool) (s : State) : ∀ a, Decidable (guard skip s a)
  | .log _ => inferInstanceAs (Decidable (_ ∧ _))
  | .read _ => inferInstanceAs (Decidable True)
  | .next => inferInstanceAs (Decidable (_ → _))

/-! ## The ring -/

variable {s : State} {u : List Entry} {e : Entry} {first f w : ℕ}

theorem mlogBufLen_eq : mlogBufLen = 16384 := rfl

/-- The unread numbers lie in the ring from position `first` on. -/
structure Ring (s : State) (u : List Entry) (first : ℕ) : Prop where
  start_eq : s.mlogStart = first % 2 ^ 32
  end_eq : s.mlogEnd = (first + u.length) % 2 ^ 32
  length_le : u.length ≤ mlogBufLen
  cell : ∀ i e, u[i]? = some e → s.buffer ((first + i) % mlogBufLen) = e.2

theorem mod_mod_bufLen (n : ℕ) : n % 2 ^ 32 % mlogBufLen = n % mlogBufLen :=
  Nat.mod_mod_of_dvd n (by decide)

theorem Ring.length_eq (h : Ring s u first) : wsub 32 s.mlogEnd s.mlogStart = u.length := by
  have hle := h.length_le
  rw [mlogBufLen_eq] at hle
  rw [h.start_eq, h.end_eq, ← Nat.mod_add_mod, wsub_mod_add (Nat.mod_lt _ (by norm_num)),
    Nat.mod_eq_of_lt (by omega)]

theorem Ring.mlogBuf_eq (h : Ring s u first) (i : ℕ) (e : Entry) (he : u[i]? = some e) :
    mlogBuf s (s.mlogStart + i) = e.2 := by
  rw [mlogBuf, h.start_eq, ← h.cell i e he, Nat.add_mod, mod_mod_bufLen, ← Nat.add_mod]

theorem Ring.unread_eq (h : Ring s u first) : unread s = u.map Prod.snd := by
  apply ext_getElem
  · rw [unread, length_map, length_range, h.length_eq, length_map]
  · intro i hi hi'
    rw [length_map] at hi'
    simpa [unread] using h.mlogBuf_eq i u[i] (getElem?_eq_getElem hi')

theorem Ring.of_eq (h : Ring s u first) {s' : State} (hb : s'.buffer = s.buffer)
    (hs : s'.mlogStart = s.mlogStart) (he : s'.mlogEnd = s.mlogEnd) : Ring s' u first :=
  ⟨hs.trans h.start_eq, he.trans h.end_eq, h.length_le, hb ▸ h.cell⟩

theorem Ring.drop {l : List Entry} (h : Ring s (l ++ u) first) {s' : State}
    (hb : s'.buffer = s.buffer) (hs : s'.mlogStart = (first + l.length) % 2 ^ 32)
    (he : s'.mlogEnd = s.mlogEnd) : Ring s' u (first + l.length) := by
  have hle := h.length_le
  rw [length_append] at hle
  refine ⟨hs, ?_, by omega, fun i x hx => ?_⟩
  · rw [he, h.end_eq, length_append, add_assoc]
  · rw [hb, add_assoc]
    exact h.cell (l.length + i) x (by rw [getElem?_append_right (by omega)]; simpa using hx)

theorem cell_ne {i k : ℕ} (hi : i < k) (hk : k - i < mlogBufLen) :
    (first + i) % mlogBufLen ≠ (first + k) % mlogBufLen := by
  rw [mlogBufLen_eq] at *
  omega

theorem Ring.emit (h : Ring s u first) (e : Entry) :
    ∃ first', Ring (mlogEmit32 s e.2) (push u e) first' := by
  have hle := h.length_le
  have hend : wadd 32 s.mlogEnd 1 = (first + (u.length + 1)) % 2 ^ 32 := by
    rw [h.end_eq, wadd, Nat.mod_add_mod, add_assoc]
  have hlen : wsub 32 (wadd 32 s.mlogEnd 1) s.mlogStart = u.length + 1 := by
    rw [mlogBufLen_eq] at hle
    rw [hend, h.start_eq, ← Nat.mod_add_mod, wsub_mod_add (Nat.mod_lt _ (by norm_num)),
      Nat.mod_eq_of_lt (by omega)]
  -- the cell written is that of the position behind the last one
  have hcell : ∀ j y, (u ++ [e])[j]? = some y → u.length - j < mlogBufLen →
      update s.buffer (s.mlogEnd % mlogBufLen) e.2 ((first + j) % mlogBufLen) = y.2 := by
    intro j y hy hj
    rw [h.end_eq, mod_mod_bufLen]
    rcases lt_or_ge j u.length with hlt | hge
    · rw [getElem?_append_left hlt] at hy
      rw [update_of_ne (cell_ne hlt hj), h.cell j y hy]
    · have hj' : j = u.length := by
        have := (List.getElem?_eq_some_iff.mp hy).1
        simp only [length_append, length_singleton] at this
        omega
      subst hj'
      rw [getElem?_concat_length, Option.some_inj] at hy
      rw [update_self, hy]
  rw [mlogEmit32, push, length_append, length_singleton]
  by_cases hfull : mlogBufLen < u.length + 1
  · -- the ring is full: the new number takes the cell of the oldest one
    have hu : u.length = mlogBufLen := by omega
    refine ⟨first + 1, ?_⟩
    simp only [hlen, if_pos hfull]
    have htail : (u ++ [e]).tail.length = mlogBufLen := by simp [hu]
    refine ⟨?_, ?_, htail.le, fun i y hy => ?_⟩
    · rw [hend, hu, show first + (mlogBufLen + 1) = mlogBufLen + (first + 1) by omega,
        wsub_mod_add (by decide)]
    · rw [htail, hend, hu, show first + (mlogBufLen + 1) = first + 1 + mlogBufLen by omega]
    · rw [show first + 1 + i = first + (i + 1) by omega]
      rw [getElem?_tail] at hy
      exact hcell (i + 1) y hy (by rw [hu, mlogBufLen_eq]; omega)
  · refine ⟨first, ?_⟩
    simp only [hlen, if_neg hfull]
    have hlength : (u ++ [e]).length = u.length + 1 := by simp
    refine ⟨h.start_eq, ?_, by omega, fun i y hy => hcell i y hy (by omega)⟩
    rw [hend, hlength]

theorem Ring.foldl (h : Ring s u first) (es : List Entry) :
    ∃ first', Ring (es.foldl (fun s e => mlogEmit32 s e.2) s) (es.foldl push u) first' := by
  induction es generalizing s u first with
  | nil => exact ⟨first, h⟩
  | cons e es ih =>
    obtain ⟨first₁, h₁⟩ := h.emit e
    exact ih h₁

theorem foldl_push (hu : u.length ≤ mlogBufLen) (es : List Entry) :
    es.foldl push u = (u ++ es).drop (u.length + es.length - mlogBufLen) := by
  induction es generalizing u with
  | nil =>
    rw [length_nil, add_zero, Nat.sub_eq_zero_of_le hu]
    simp
  | cons e es ih =>
    have hlen : (u ++ [e]).length = u.length + 1 := by simp
    have hassoc : u ++ e :: es = u ++ [e] ++ es := by simp
    rw [foldl_cons, hassoc, length_cons]
    by_cases hfull : mlogBufLen < (u ++ [e]).length
    · have htail : (u ++ [e] ++ es).tail = (u ++ [e]).tail ++ es :=
        tail_append_of_ne_nil (by simp)
      have hlen' : (u ++ [e]).tail.length = u.length := by simp
      rw [push, if_pos hfull, ih (by omega), ← htail, hlen', ← drop_one, drop_drop,
        show 1 + (u.length + es.length - mlogBufLen) =
          u.length + (es.length + 1) - mlogBufLen by omega]
    · rw [push, if_neg hfull, ih (by omega), hlen, Nat.add_right_comm, Nat.add_assoc]

end Cupcake.Mlog
