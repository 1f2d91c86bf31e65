import Cupcake.Fs.Locks.Defs

/-! `flock64_to_posix_lock` and `posix_lock_to_flock`: byte ranges as a process writes them and as
the lists keep them. Sums of `loff_t` wrap around, and an overflow is remembered. -/

namespace Cupcake.Fs.Locks

/-! ## The code -/

inductive Errno
  | einval
  | eoverflow

/-- A computation with `loff_t`, and whether one of its sums has overflowed. -/
abbrev Loff (α : Type) : Type := ExceptT Errno (StateM Bool) α

def IsLoff (x : ℤ) : Prop := -2 ^ 63 ≤ x ∧ x < 2 ^ 63

instance (x : ℤ) : Decidable (IsLoff x) := inferInstanceAs (Decidable (_ ∧ _))

/-- The value of a sum or difference whose exact value is `x`. -/
def sum (x : ℤ) : Loff ℤ := do
  if ¬ IsLoff x then set true
  return Int.bmod x (2 ^ 64)

structure Flock64 where
  type : ℤ
  whence : ℤ
  start : ℤ
  len : ℤ
  start_loff : IsLoff start
  len_loff : IsLoff len

structure File where
  pos : ℤ
  size : ℤ
  pos_ok : 0 ≤ pos ∧ pos ≤ offsetMax
  size_ok : 0 ≤ size ∧ size ≤ offsetMax

/-- What is written to the `struct file_lock`. -/
structure PosixRange where
  type : Ltype
  start : ℤ
  stop : ℤ

/-- The offset that `l_whence` stands for. -/
def whenceBase (f : File) (whence : ℤ) : Option ℤ :=
  if whence = 0 then some 0 else if whence = 1 then some f.pos
  else if whence = 2 then some f.size else none

def assignType (type : ℤ) : Option Ltype :=
  if type = 0 then some .rdlck else if type = 1 then some .wrlck
  else if type = 2 then some .unlck else none

/-- The part of `flock64_to_posix_lock` that looks at `l_len`. -/
def lenRange (start len : ℤ) : Loff (ℤ × ℤ) :=
  if len > 0 then do
    if (← sum (len - 1)) > (← sum (offsetMax - start)) then throw .eoverflow
    return (start, ← sum ((← sum (start + len)) - 1))
  else if len < 0 then do
    if (← sum (start + len)) < 0 then throw .einval
    let stop ← sum (start - 1)
    return (← sum (start + len), stop)
  else return (start, (offsetMax : ℤ))

def flock64ToPosixLock (f : File) (l : Flock64) : Loff PosixRange := do
  let some base := whenceBase f l.whence | throw .einval
  if l.start > (← sum (offsetMax - base)) then throw .eoverflow
  let start ← sum (base + l.start)
  if start < 0 then throw .einval
  let (start, stop) ← lenRange start l.len
  let some type := assignType l.type | throw .einval
  return ⟨type, start, stop⟩

/-- The start and the length that `posix_lock_to_flock` writes, with `SEEK_SET`. -/
def posixLockToFlock (r : PosixRange) : Loff (ℤ × ℤ) := do
  let len ← if r.stop = offsetMax then pure 0 else sum ((← sum (r.stop - r.start)) + 1)
  return (r.start, len)

/-! ## The range of a request -/

/-- The first and the last byte that POSIX assigns to a request; `offsetMax` is the end of any
file. -/
def posixBytes (start len : ℤ) : ℤ × ℤ :=
  if len > 0 then (start, start + len - 1)
  else if len < 0 then (start + len, start - 1)
  else (start, offsetMax)

def Within (r : ℤ × ℤ) : Prop := 0 ≤ r.1 ∧ r.1 ≤ r.2 ∧ r.2 ≤ offsetMax

instance (r : ℤ × ℤ) : Decidable (Within r) := inferInstanceAs (Decidable (_ ∧ _ ∧ _))

structure Asks (f : File) (l : Flock64) (r : PosixRange) : Prop where
  type : assignType l.type = some r.type
  bytes : ∃ base, whenceBase f l.whence = some base ∧
    posixBytes (base + l.start) l.len = (r.start, r.stop)

/-- The request is decoded as POSIX has it, without an overflow, and so is what is made of the
result again. -/
structure Decodes (f : File) (l : Flock64) : Prop where
  accepts : (∃ r, ((flock64ToPosixLock f l).run false).1 = .ok r) ↔
    ∃ r, Asks f l r ∧ Within (r.start, r.stop)
  range : ∀ r, ((flock64ToPosixLock f l).run false).1 = .ok r → Asks f l r ∧ Within (r.start, r.stop)
  exact : ((flock64ToPosixLock f l).run false).2 = false
  again : ∀ r, ((flock64ToPosixLock f l).run false).1 = .ok r → ∃ l' : Flock64,
    (posixLockToFlock r).run false = (.ok (l'.start, l'.len), false) ∧ l'.whence = 0 ∧
    l'.type = l.type ∧ (flock64ToPosixLock f l').run false = (.ok r, false)

/-- The requests that are not decoded so: a negative length from the byte behind the last one, and
a positive one that ends there. -/
def Edge (f : File) (l : Flock64) : Prop :=
  ∃ base, whenceBase f l.whence = some base ∧
    (l.len < 0 ∧ base + l.start = offsetMax + 1 ∧ (assignType l.type).isSome ∨
      0 < l.len ∧ base + l.start + l.len = offsetMax + 1)

variable {f : File} {l : Flock64} {base x start len : ℤ}

theorem sum_of_isLoff (h : IsLoff x) : sum x = pure x := by
  have hmod : Int.bmod x (2 ^ 64) = x := by
    obtain ⟨h₁, h₂⟩ := h
    apply Int.bmod_eq_of_le_mul_two
    · omega
    · omega
  rw [sum, if_neg (not_not.mpr h), hmod]

theorem run_bind_of_run {α β : Type} {m : Loff α} {g : α → Loff β} {a : α} {b c : Bool}
    (h : m.run b = (.ok a, c)) : (m >>= g).run b = (g a).run c := by
  change (ExceptT.bindCont g (m.run b).1) (m.run b).2 = _
  rw [h]
  rfl

theorem within_iff {a b : ℤ} : Within (a, b) ↔ 0 ≤ a ∧ a ≤ b ∧ b ≤ offsetMax := Iff.rfl

theorem offsetMax_eq : (offsetMax : ℤ) = 2 ^ 63 - 1 := rfl

theorem whenceBase_bounds (h : whenceBase f l.whence = some base) :
    0 ≤ base ∧ base ≤ offsetMax := by
  unfold whenceBase at h
  split_ifs at h
  · cases h
    decide
  · cases h
    exact f.pos_ok
  · cases h
    exact f.size_ok

theorem flock64ToPosixLock_eq (h : whenceBase f l.whence = some base) :
    flock64ToPosixLock f l =
      if offsetMax < base + l.start then throw .eoverflow
      else if base + l.start < 0 then throw .einval
      else do
        let (start, stop) ← lenRange (base + l.start) l.len
        let some type := assignType l.type | throw .einval
        return ⟨type, start, stop⟩ := by
  obtain ⟨hbase, hbase'⟩ := whenceBase_bounds h
  obtain ⟨hstart, hstart'⟩ := l.start_loff
  have hmax := offsetMax_eq
  rw [flock64ToPosixLock, h]
  simp only [sum_of_isLoff (x := offsetMax - base) ⟨by omega, by omega⟩, pure_bind]
  by_cases hover : offsetMax < base + l.start
  · rw [if_pos hover, if_pos (by omega)]
    rfl
  · rw [if_neg hover, if_neg (by omega)]
    simp only [sum_of_isLoff (x := base + l.start) ⟨by omega, by omega⟩, pure_bind]
    by_cases hneg : base + l.start < 0
    · rw [if_pos hneg, if_pos hneg]
      rfl
    · rw [if_neg hneg, if_neg hneg]

theorem lenRange_eq (hstart : 0 ≤ start ∧ start ≤ offsetMax) (hlen : IsLoff len)
    (hend : 0 < len → start + len ≠ offsetMax + 1) :
    ∃ e, lenRange start len =
      if Within (posixBytes start len) then pure (posixBytes start len) else throw e := by
  obtain ⟨hlo, hhi⟩ := hlen
  have hmax := offsetMax_eq
  rcases lt_trichotomy len 0 with hneg | hzero | hpos
  · refine ⟨.einval, ?_⟩
    have hbytes : posixBytes start len = (start + len, start - 1) := by
      rw [posixBytes, if_neg (by omega), if_pos hneg]
    rw [hbytes, lenRange, if_neg (by omega), if_pos hneg,
      sum_of_isLoff (x := start + len) ⟨by omega, by omega⟩, pure_bind]
    by_cases hin : start + len < 0
    · rw [if_pos hin, if_neg (by rw [within_iff]; omega)]
      rfl
    · rw [if_neg hin, if_pos (within_iff.mpr (by omega)),
        sum_of_isLoff (x := start - 1) ⟨by omega, by omega⟩]
      rfl
  · refine ⟨.einval, ?_⟩
    have hbytes : posixBytes start len = (start, (offsetMax : ℤ)) := by
      rw [posixBytes, if_neg (by omega), if_neg (by omega)]
    rw [hbytes, lenRange, if_neg (by omega), if_neg (by omega), if_pos ⟨hstart.1, hstart.2, le_rfl⟩]
  · refine ⟨.eoverflow, ?_⟩
    have hlast := hend hpos
    have hbytes : posixBytes start len = (start, start + len - 1) := by
      rw [posixBytes, if_pos hpos]
    rw [hbytes, lenRange, if_pos hpos, sum_of_isLoff (x := len - 1) ⟨by omega, by omega⟩, pure_bind,
      sum_of_isLoff (x := offsetMax - start) ⟨by omega, by omega⟩, pure_bind]
    by_cases hin : offsetMax < start + len
    · rw [if_pos (by omega), if_neg (by rw [within_iff]; omega)]
      rfl
    · rw [if_neg (by omega), if_pos (within_iff.mpr (by omega)),
        sum_of_isLoff (x := start + len) ⟨by omega, by omega⟩, pure_bind,
        sum_of_isLoff (x := start + len - 1) ⟨by omega, by omega⟩]
      rfl

theorem lenRange_edge (hlen : IsLoff len) (hpos : 0 < len) (hend : start + len = offsetMax + 1) :
    (lenRange start len).run false = (.ok (start, (offsetMax : ℤ)), true) := by
  obtain ⟨hlo, hhi⟩ := hlen
  have hmax := offsetMax_eq
  rw [lenRange, if_pos hpos, sum_of_isLoff (x := len - 1) ⟨by omega, by omega⟩, pure_bind,
    sum_of_isLoff (x := offsetMax - start) ⟨by omega, by omega⟩, pure_bind, if_neg (by omega), hend]
  rfl

theorem start_within (hbase : whenceBase f l.whence = some base)
    (htype : (assignType l.type).isSome) (hedge : ¬ Edge f l)
    (hin : Within (posixBytes (base + l.start) l.len)) :
    0 ≤ base + l.start ∧ base + l.start ≤ offsetMax := by
  unfold posixBytes at hin
  split_ifs at hin with hpos hneg
  · obtain ⟨h₁, h₂, h₃⟩ := within_iff.mp hin
    exact ⟨h₁, h₂.trans h₃⟩
  · obtain ⟨h₁, h₂, h₃⟩ := within_iff.mp hin
    have hne : base + l.start ≠ offsetMax + 1 := fun hend =>
      hedge ⟨base, hbase, .inl ⟨hneg, hend, htype⟩⟩
    omega
  · exact ⟨hin.1, hin.2.1⟩

theorem decode_of_within {r : PosixRange} (hasks : Asks f l r) (hin : Within (r.start, r.stop))
    (hedge : ¬ Edge f l) : flock64ToPosixLock f l = pure r := by
  obtain ⟨htype, base, hbase, hbytes⟩ := hasks
  have hstart := start_within hbase (htype ▸ rfl) hedge (hbytes ▸ hin)
  obtain ⟨e, he⟩ := lenRange_eq hstart l.len_loff fun hpos hend =>
    hedge ⟨base, hbase, .inr ⟨hpos, hend⟩⟩
  rw [flock64ToPosixLock_eq hbase, if_neg (by omega), if_neg (by omega), he, hbytes, if_pos hin,
    pure_bind, htype]

theorem decode_of_not_within (h : ¬ ∃ r, Asks f l r ∧ Within (r.start, r.stop))
    (hedge : ¬ Edge f l) : ∃ e, flock64ToPosixLock f l = throw e := by
  cases hbase : whenceBase f l.whence with
  | none =>
    refine ⟨.einval, ?_⟩
    rw [flock64ToPosixLock, hbase]
  | some base =>
    rw [flock64ToPosixLock_eq hbase]
    by_cases hover : offsetMax < base + l.start
    · exact ⟨.eoverflow, if_pos hover⟩
    by_cases hneg : base + l.start < 0
    · exact ⟨.einval, by rw [if_neg hover, if_pos hneg]⟩
    obtain ⟨e, he⟩ := lenRange_eq ⟨not_lt.mp hneg, not_lt.mp hover⟩ l.len_loff fun hpos hend =>
      hedge ⟨base, hbase, .inr ⟨hpos, hend⟩⟩
    rw [if_neg hover, if_neg hneg, he]
    split_ifs with hin
    · cases htype : assignType l.type with
      | none => exact ⟨.einval, rfl⟩
      | some t => exact absurd ⟨⟨t, _, _⟩, ⟨htype, base, hbase, rfl⟩, hin⟩ h
    · exact ⟨e, rfl⟩

theorem posixBytes_again {r : PosixRange} (hin : Within (r.start, r.stop))
    (hlen : len = if r.stop = offsetMax then 0 else r.stop - r.start + 1) :
    posixBytes r.start len = (r.start, r.stop) ∧ 0 ≤ len ∧ (0 < len → r.start + len ≤ offsetMax) := by
  obtain ⟨h₁, h₂, h₃⟩ := within_iff.mp hin
  unfold posixBytes
  split_ifs at hlen with hstop
  · rw [hlen, hstop]
    exact ⟨rfl, le_rfl, fun h => absurd h (lt_irrefl _)⟩
  · rw [if_pos (by omega)]
    refine ⟨?_, by omega, by omega⟩
    congr 1
    omega

theorem posixLockToFlock_eq {r : PosixRange} (hin : Within (r.start, r.stop)) :
    posixLockToFlock r =
      pure (r.start, if r.stop = offsetMax then 0 else r.stop - r.start + 1) := by
  obtain ⟨h₁, h₂, h₃⟩ := within_iff.mp hin
  have hmax := offsetMax_eq
  unfold posixLockToFlock
  split_ifs with hstop
  · rfl
  · rw [sum_of_isLoff (x := r.stop - r.start) ⟨by omega, by omega⟩, pure_bind,
      sum_of_isLoff (x := r.stop - r.start + 1) ⟨by omega, by omega⟩]
    rfl

theorem exists_again {r : PosixRange} (hasks : Asks f l r) (hin : Within (r.start, r.stop)) :
    ∃ l' : Flock64, (posixLockToFlock r).run false = (.ok (l'.start, l'.len), false) ∧
      l'.whence = 0 ∧ l'.type = l.type ∧ (flock64ToPosixLock f l').run false = (.ok r, false) := by
  obtain ⟨len, hlen⟩ : ∃ len, len = if r.stop = offsetMax then 0 else r.stop - r.start + 1 :=
    ⟨_, rfl⟩
  obtain ⟨hbytes, hnonneg, hend⟩ := posixBytes_again hin hlen
  obtain ⟨h₁, h₂, h₃⟩ := within_iff.mp hin
  have hmax := offsetMax_eq
  have hstart : IsLoff r.start := ⟨by omega, by omega⟩
  have hloff : IsLoff len := ⟨by omega, by split_ifs at hlen <;> omega⟩
  refine ⟨⟨l.type, 0, r.start, len, hstart, hloff⟩, ?_, rfl, rfl, ?_⟩
  · rw [posixLockToFlock_eq hin, ← hlen]
    rfl
  · have hagain : Asks f ⟨l.type, 0, r.start, len, hstart, hloff⟩ r :=
      ⟨hasks.type, 0, rfl, by rw [zero_add, hbytes]⟩
    rw [decode_of_within hagain hin]
    · rfl
    · rintro ⟨base, hbase, ⟨hneg, -⟩ | ⟨hpos, hlast⟩⟩
      · exact absurd hneg (not_lt.mpr hnonneg)
      · cases hbase
        have hle : r.start + len ≤ offsetMax := hend hpos
        have heq : r.start + len = offsetMax + 1 := by rw [← hlast, zero_add]
        omega

theorem decodes_of_not_edge (hedge : ¬ Edge f l) : Decodes f l := by
  by_cases h : ∃ r, Asks f l r ∧ Within (r.start, r.stop)
  · have hex := h
    obtain ⟨r, hasks, hin⟩ := hex
    have hrun : (flock64ToPosixLock f l).run false = (.ok r, false) := by
      rw [decode_of_within hasks hin hedge]
      rfl
    refine ⟨⟨fun _ => h, fun _ => ⟨r, by rw [hrun]⟩⟩, ?_, by rw [hrun], ?_⟩
    · intro r' hr'
      rw [hrun] at hr'
      cases hr'
      exact ⟨hasks, hin⟩
    · intro r' hr'
      rw [hrun] at hr'
      cases hr'
      exact exists_again hasks hin
  · obtain ⟨e, he⟩ := decode_of_not_within h hedge
    have hrun : (flock64ToPosixLock f l).run false = (.error e, false) := by
      rw [he]
      rfl
    have hno : ∀ r, ((flock64ToPosixLock f l).run false).1 ≠ .ok r := by
      intro r hr
      rw [hrun] at hr
      cases hr
    exact ⟨⟨fun ⟨r, hr⟩ => absurd hr (hno r), fun hex => absurd hex h⟩,
      fun r hr => absurd hr (hno r), by rw [hrun], fun r hr => absurd hr (hno r)⟩

theorem not_decodes_of_edge (hedge : Edge f l) : ¬ Decodes f l := by
  intro hdec
  have hmax := offsetMax_eq
  obtain ⟨hlo, hhi⟩ := l.len_loff
  obtain ⟨base, hbase, ⟨hneg, hend, htype⟩ | ⟨hpos, hend⟩⟩ := hedge
  · obtain ⟨t, ht⟩ := Option.isSome_iff_exists.mp htype
    have hbytes : posixBytes (base + l.start) l.len =
        (base + l.start + l.len, base + l.start - 1) := by
      rw [posixBytes, if_neg (by omega), if_pos hneg]
    have hin : Within (base + l.start + l.len, base + l.start - 1) := within_iff.mpr (by omega)
    obtain ⟨r, hr⟩ := hdec.accepts.mpr ⟨⟨t, _, _⟩, ⟨ht, base, hbase, hbytes⟩, hin⟩
    rw [flock64ToPosixLock_eq hbase, if_pos (by omega)] at hr
    cases hr
  · have hrun := lenRange_edge l.len_loff hpos hend
    have hexact := hdec.exact
    rw [flock64ToPosixLock_eq hbase, if_neg (by omega), if_neg (by omega)] at hexact
    rw [run_bind_of_run hrun] at hexact
    cases htype : assignType l.type with
    | none =>
      rw [htype] at hexact
      cases hexact
    | some t =>
      rw [htype] at hexact
      cases hexact

theorem decodes_iff (f : File) (l : Flock64) : Decodes f l ↔ ¬ Edge f l :=
  ⟨fun hdec hedge => not_decodes_of_edge hedge hdec, decodes_of_not_edge⟩

theorem not_decodes_one_byte :
    ¬ Decodes ⟨0, 1, by decide, by decide⟩ ⟨0, 2, 2 ^ 63 - 1, -1, by decide, by decide⟩ ∧
    ¬ Decodes ⟨0, 1, by decide, by decide⟩ ⟨0, 0, 1, 2 ^ 63 - 1, by decide, by decide⟩ :=
  ⟨not_decodes_of_edge ⟨1, rfl, .inl (by decide)⟩, not_decodes_of_edge ⟨0, rfl, .inr (by decide)⟩⟩

end Cupcake.Fs.Locks
