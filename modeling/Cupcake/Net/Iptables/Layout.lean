import Cupcake.Net.Iptables.Defs

/-! The entries of a table, and what the first loop of `translate_table` makes sure of. -/

namespace Cupcake.Iptables

open Bytes Function

variable {m m' m₀ : Mem} {size e e' i k : ℕ}

/-! ## Entry boundaries -/

def start (m : Mem) : ℕ → ℕ
  | 0 => 0
  | k + 1 => start m k + nextOffset m (start m k)

/-- An address that summing `next_offset` leads to. -/
def Boundary (m : Mem) (e : ℕ) : Prop := ∃ k, start m k = e

theorem Boundary.zero : Boundary m 0 := ⟨0, rfl⟩

theorem Boundary.next (h : Boundary m e) : Boundary m (e + nextOffset m e) := by
  obtain ⟨k, rfl⟩ := h
  exact ⟨k + 1, rfl⟩

theorem start_succ_of_eq {n : ℕ} (h : start m k = e) (hn : nextOffset m e = n) :
    start m (k + 1) = e + n := by
  rw [start, h, hn]

theorem start_mono : Monotone (start m) := monotone_nat_of_le_succ fun _ => Nat.le_add_right ..

theorem Boundary.next_le (h : Boundary m e) (h' : Boundary m e') (hlt : e < e') :
    e + nextOffset m e ≤ e' := by
  obtain ⟨k, rfl⟩ := h
  obtain ⟨l, rfl⟩ := h'
  have hkl : k < l := start_mono.reflect_lt hlt
  exact start_mono (Nat.succ_le_of_lt hkl)

structure Shape (m : Mem) (size : ℕ) : Prop where
  boundary : Boundary m size
  next_ge : ∀ e, Boundary m e → e < size → 144 ≤ nextOffset m e

def IsEntry (m : Mem) (size e : ℕ) : Prop := Boundary m e ∧ e < size

theorem IsEntry.next_le_size (hs : Shape m size) (he : IsEntry m size e) :
    e + nextOffset m e ≤ size := he.1.next_le hs.boundary he.2

theorem IsEntry.exists_start (he : IsEntry m size e) (hk : size ≤ start m k) :
    ∃ i < k, e = start m i := by
  obtain ⟨⟨i, rfl⟩, hlt⟩ := he
  refine ⟨i, ?_, rfl⟩
  by_contra hge
  have := start_mono (m := m) (not_lt.mp hge)
  omega

theorem IsEntry.apart (hs : Shape m size) (he : IsEntry m size e) (he' : IsEntry m size e')
    (hne : e ≠ e') : e + 144 ≤ e' ∨ e' + 144 ≤ e := by
  rcases hne.lt_or_gt with hlt | hlt
  · have := he.1.next_le he'.1 hlt
    have := hs.next_ge e he.1 he.2
    omega
  · have := he'.1.next_le he.1 hlt
    have := hs.next_ge e' he'.1 he'.2
    omega

/-! ## The fields that the check of the chains uses -/

def Window (m : Mem) (size i : ℕ) : Prop := ∃ e, IsEntry m size e ∧ e + 92 ≤ i ∧ i < e + 112

def Kept (m : Mem) (size : ℕ) (m' : Mem) : Prop := ∀ i, ¬ Window m size i → m' i = m i

theorem Kept.refl : Kept m size m := fun _ _ => rfl

theorem not_window_head (hs : Shape m size) (he : IsEntry m size e) (h₁ : e ≤ i) (h₂ : i < e + 92) :
    ¬ Window m size i := by
  rintro ⟨e', he', hlow, hhigh⟩
  rcases eq_or_ne e e' with rfl | hne
  · omega
  · have := he.apart hs he' hne
    omega

theorem not_window_elems (hs : Shape m size) (he : IsEntry m size e) (h₁ : e + 112 ≤ i)
    (h₂ : i < e + nextOffset m e) : ¬ Window m size i := by
  rintro ⟨e', he', hlow, hhigh⟩
  rcases lt_trichotomy e e' with hlt | rfl | hlt
  · have := he.1.next_le he'.1 hlt
    omega
  · omega
  · have := he'.1.next_le he.1 hlt
    have := hs.next_ge e' he'.1 he'.2
    omega

theorem nextOffset_congr (h : ∀ i, e ≤ i → i < e + 92 → m' i = m i) :
    nextOffset m' e = nextOffset m e := load_congr fun i h₁ h₂ => h i (by omega) (by omega)

theorem targetOffset_congr (h : ∀ i, e ≤ i → i < e + 92 → m' i = m i) :
    targetOffset m' e = targetOffset m e := load_congr fun i h₁ h₂ => h i (by omega) (by omega)

section

variable (hk : Kept m size m') (hs : Shape m size) (he : IsEntry m size e)

include hk hs he

theorem Kept.head :
    ∀ i, e ≤ i → i < e + 92 → m' i = m i := fun i h₁ h₂ => hk i (not_window_head hs he h₁ h₂)

theorem Kept.nextOffset_eq : nextOffset m' e = nextOffset m e := nextOffset_congr (hk.head hs he)

end

theorem IsEntry.congr (he : IsEntry m size e)
    (h : ∀ e, IsEntry m size e → nextOffset m' e = nextOffset m e) : IsEntry m' size e := by
  obtain ⟨⟨k, rfl⟩, hlt⟩ := he
  refine ⟨⟨k, ?_⟩, hlt⟩
  induction k with
  | zero => rfl
  | succ k ih =>
    have hlt' : start m k < size := (start_mono (Nat.le_succ k)).trans_lt hlt
    rw [start, start, ih hlt', h _ ⟨⟨k, rfl⟩, hlt'⟩]

/-! ## Writing these fields -/

section

variable (hk : Kept m size m') (he : IsEntry m size e)

include hk he

theorem kept_store {a n v : ℕ} (h₁ : e + 92 ≤ a) (h₂ : a + n ≤ e + 112) :
    Kept m size (store m' a n v) := by
  intro i hi
  rw [store_of_not_mem, hk i hi]
  intro h
  exact hi ⟨e, he, by omega, by omega⟩

theorem Kept.setComefrom {v : ℕ} :
    Kept m size (setComefrom m' e v) := kept_store hk he (by omega) (by omega)

theorem Kept.setPcnt {v : ℕ} :
    Kept m size (setPcnt m' e v) := kept_store hk he (by omega) (by omega)

theorem Kept.setBcnt {v : ℕ} :
    Kept m size (setBcnt m' e v) := kept_store hk he (by omega) (by omega)

end

section Fields

variable {v : ℕ}

@[simp] theorem comefrom_setComefrom : comefrom (setComefrom m e v) e = v % 2 ^ 32 := load_store

@[simp] theorem pcnt_setPcnt : pcnt (setPcnt m e v) e = v % 2 ^ 64 := load_store

@[simp] theorem comefrom_setPcnt_self : comefrom (setPcnt m e v) e = comefrom m e :=
  load_store_of_disjoint (by omega)

@[simp] theorem pcnt_setComefrom_self : pcnt (setComefrom m e v) e = pcnt m e :=
  load_store_of_disjoint (by omega)

section

variable (h : e + 144 ≤ e' ∨ e' + 144 ≤ e)

include h

theorem comefrom_setComefrom_of_ne :
    comefrom (setComefrom m e v) e' = comefrom m e' := load_store_of_disjoint (by omega)

theorem pcnt_setPcnt_of_ne :
    pcnt (setPcnt m e v) e' = pcnt m e' := load_store_of_disjoint (by omega)

theorem comefrom_setPcnt_of_ne :
    comefrom (setPcnt m e v) e' = comefrom m e' := load_store_of_disjoint (by omega)

theorem pcnt_setComefrom_of_ne :
    pcnt (setComefrom m e v) e' = pcnt m e' := load_store_of_disjoint (by omega)

end

end Fields

/-! ## The check of one entry -/

variable {repl : Replace} {info info' : Info}

/-- What `check_entry_size_and_hooks` makes sure of. -/
structure LocalOk (m : Mem) (size e : ℕ) : Prop where
  next_ge : 144 ≤ nextOffset m e
  next_le : e + nextOffset m e ≤ size
  target_header : targetOffset m e + 32 ≤ nextOffset m e
  target_end : targetOffset m e + recordSize m (getTarget m e) ≤ nextOffset m e

def clear (m : Mem) (e : ℕ) : Mem := setComefrom (setBcnt (setPcnt m e 0) e 0) e 0

theorem checkEntrySizeAndHooks_ok (h : checkEntrySizeAndHooks repl m info e = .ok (m', info')) :
    LocalOk m repl.size e ∧ e % 8 = 0 ∧ m' = clear m e ∧
      (List.range numHooks).foldlM (checkHook repl m e) info = .ok info' := by
  rw [checkEntrySizeAndHooks] at h
  split_ifs at h with h₁ h₂
  obtain ⟨_, hcheck, h⟩ := bind_ok h
  obtain ⟨info₁, hfold, h⟩ := bind_ok h
  cases h
  rw [checkEntry] at hcheck
  split_ifs at hcheck with h₃ h₄ h₅
  simp only [sizeofRecord, sizeofEntry] at h₂ h₄
  exact ⟨⟨by omega, by omega, by omega, by omega⟩, by omega, rfl, hfold⟩

theorem clear_of_not_mem (h : ¬ (e + 92 ≤ i ∧ i < e + 112)) : clear m e i = m i := by
  rw [clear, setComefrom, setBcnt, setPcnt, store_of_not_mem (by omega), store_of_not_mem (by omega),
    store_of_not_mem (by omega)]

theorem pcnt_clear : pcnt (clear m e) e = 0 := by
  rw [clear, pcnt_setComefrom_self]
  have h : pcnt (setBcnt (setPcnt m e 0) e 0) e = pcnt (setPcnt m e 0) e :=
    load_store_of_disjoint (by omega)
  rw [h, pcnt_setPcnt, Nat.zero_mod]

/-! ## The first loop -/

def HookOk (m : Mem) (size : ℕ) (P : ℕ → Prop) (pos : ℕ) : Prop :=
  pos = noHook ∨ IsEntry m size pos ∧ P pos

structure InfoOk (m : Mem) (size : ℕ) (info : Info) : Prop where
  size_eq : info.size = size
  hook : ∀ h, HookOk m size (fun _ => True) (info.hookEntry h)
  underflow : ∀ h, HookOk m size (fun e => checkUnderflow m e) (info.underflow h)

theorem InfoOk.setHook (hi : InfoOk m size info) (he : IsEntry m size e) (h : ℕ) :
    InfoOk m size { info with hookEntry := update info.hookEntry h e } := by
  refine ⟨hi.size_eq, fun h' => ?_, hi.underflow⟩
  rcases eq_or_ne h' h with rfl | hne
  · simp only [update_self]
    exact .inr ⟨he, trivial⟩
  · simp only [update_of_ne hne]
    exact hi.hook h'

theorem InfoOk.setUnderflow (hi : InfoOk m size info) (he : IsEntry m size e)
    (hu : checkUnderflow m e = true) (h : ℕ) :
    InfoOk m size { info with underflow := update info.underflow h e } := by
  refine ⟨hi.size_eq, hi.hook, fun h' => ?_⟩
  rcases eq_or_ne h' h with rfl | hne
  · simp only [update_self]
    exact .inr ⟨he, hu⟩
  · simp only [update_of_ne hne]
    exact hi.underflow h'

theorem checkHook_ok {h : ℕ} (hm : checkUnderflow m' e = checkUnderflow m e)
    (he : IsEntry m repl.size e) (hi : InfoOk m repl.size info)
    (hok : checkHook repl m' e info h = .ok info') : InfoOk m repl.size info' := by
  rw [checkHook] at hok
  by_cases hvalid : repl.validHooks.testBit h
  · rw [if_neg (not_not.mpr hvalid)] at hok
    have hfirst : InfoOk m repl.size (if e = repl.hookEntry h then
        { info with hookEntry := update info.hookEntry h (repl.hookEntry h) } else info) := by
      split_ifs with heq
      · rw [← heq]
        exact hi.setHook he h
      · exact hi
    dsimp only at hok
    generalize (if e = repl.hookEntry h then _ else info) = info₁ at hok hfirst
    split_ifs at hok with heq hu
    · cases hok
      rw [← heq]
      exact hfirst.setUnderflow he (hm ▸ hu) h
    · cases hok
      exact hfirst
  · rw [if_pos hvalid] at hok
    cases hok
    exact hi

theorem unconditional_congr (h : ∀ i, e ≤ i → i < e + 92 → m' i = m i) :
    unconditional m' e = unconditional m e := by
  have hread : read m' e sizeofIp = read m e sizeofIp :=
    read_congr fun i h₁ h₂ => h i h₁ (by rw [sizeofIp] at h₂; omega)
  rw [unconditional, unconditional, decide_eq_decide, targetOffset_congr h, hread]

theorem named_congr {t : ℕ} {name : List UInt8}
    (h : ∀ i, t + 2 ≤ i → i < t + 3 + name.length → m' i = m i) : named m' t name = named m t name := by
  have hread : read m' (t + 2) (name.length + 1) = read m (t + 2) (name.length + 1) :=
    read_congr fun i h₁ h₂ => h i h₁ (by omega)
  rw [named, named, hread]

theorem rawVerdict_congr {t : ℕ} (h : ∀ i, t + 32 ≤ i → i < t + 36 → m' i = m i) :
    rawVerdict m' t = rawVerdict m t := load_congr h

theorem checkUnderflow_congr (h : ∀ i, e ≤ i → m' i = m i) :
    checkUnderflow m' e = checkUnderflow m e := by
  have htarget : getTarget m' e = getTarget m e := by
    rw [getTarget, getTarget, targetOffset_congr fun i h₁ _ => h i h₁]
  have hle : e ≤ getTarget m e := Nat.le_add_right ..
  rw [checkUnderflow, checkUnderflow, htarget, unconditional_congr fun i h₁ _ => h i h₁,
    named_congr fun i h₁ _ => h i (by omega), rawVerdict_congr fun i h₁ _ => h i (by omega)]

theorem LocalOk.congr (h : ∀ i, e ≤ i → m' i = m i) (hl : LocalOk m' size e) : LocalOk m size e := by
  have htarget : targetOffset m' e = targetOffset m e := targetOffset_congr fun i h₁ _ => h i h₁
  have hnext : nextOffset m' e = nextOffset m e := nextOffset_congr fun i h₁ _ => h i h₁
  have hsize : recordSize m' (getTarget m' e) = recordSize m (getTarget m e) := by
    rw [getTarget, getTarget, htarget]
    exact load_congr fun i h₁ _ => h i (by omega)
  have h₁ := hl.next_ge
  have h₂ := hl.next_le
  have h₃ := hl.target_header
  have h₄ := hl.target_end
  rw [hnext] at h₁ h₂ h₃ h₄
  rw [htarget] at h₃ h₄
  rw [hsize] at h₄
  exact ⟨h₁, h₂, h₃, h₄⟩

structure Scanned (m : Mem) (size : ℕ) (w : Walk) (e : ℕ) : Prop where
  boundary : Boundary m e
  le : e ≤ size
  local_ok : ∀ e', Boundary m e' → e' < e → LocalOk m size e' ∧ e' % 8 = 0
  ahead : ∀ i, e ≤ i → w.mem i = m i
  kept : Kept m size w.mem
  cleared : ∀ e', Boundary m e' → e' < e → comefrom w.mem e' = 0 ∧ pcnt w.mem e' = 0
  info : InfoOk m size w.info

theorem Boundary.lt_or_eq (h : Boundary m e) (h' : Boundary m e')
    (hlt : e' < e + nextOffset m e) : e' < e ∨ e' = e := by
  by_contra hcon
  have := h.next_le h' (by omega)
  omega

theorem Scanned.step {w : Walk} {mem : Mem} {info : Info} (hs : Scanned m repl.size w e)
    (hlt : e < repl.size) (hok : checkEntrySizeAndHooks repl w.mem w.info e = .ok (mem, info)) :
    Scanned m repl.size ⟨mem, info, w.count + 1⟩ (e + nextOffset m e) ∧
      nextOffset mem e = nextOffset m e := by
  obtain ⟨hlocal, halign, rfl, hfold⟩ := checkEntrySizeAndHooks_ok hok
  have hentry : IsEntry m repl.size e := ⟨hs.boundary, hlt⟩
  have hlocal := hlocal.congr hs.ahead
  have hge := hlocal.next_ge
  refine ⟨⟨hs.boundary.next, hlocal.next_le, fun e' hb hlt' => ?_, fun i hi => ?_, ?_,
    fun e' hb hlt' => ?_, ?_⟩, ?_⟩
  · rcases hs.boundary.lt_or_eq hb hlt' with hbefore | rfl
    · exact hs.local_ok e' hb hbefore
    · exact ⟨hlocal, halign⟩
  · simp only
    rw [clear_of_not_mem (by omega), hs.ahead i (by omega)]
  · exact ((hs.kept.setPcnt hentry).setBcnt hentry).setComefrom hentry
  · rcases hs.boundary.lt_or_eq hb hlt' with hbefore | rfl
    · have hgap := hb.next_le hs.boundary hbefore
      have hge' := (hs.local_ok e' hb hbefore).1.next_ge
      have hsame : ∀ i, e' ≤ i → i < e' + 112 → clear w.mem e i = w.mem i :=
        fun i _ _ => clear_of_not_mem (by omega)
      have hc : comefrom (clear w.mem e) e' = comefrom w.mem e' :=
        load_congr fun i _ _ => hsame i (by omega) (by omega)
      have hp : pcnt (clear w.mem e) e' = pcnt w.mem e' :=
        load_congr fun i _ _ => hsame i (by omega) (by omega)
      simp only
      rw [hc, hp]
      exact hs.cleared e' hb hbefore
    · exact ⟨by rw [clear, comefrom_setComefrom, Nat.zero_mod], pcnt_clear⟩
  · refine foldlM_invariant (P := InfoOk m repl.size) (fun info h info' hi hok => ?_) _ hs.info hfold
    exact checkHook_ok (checkUnderflow_congr hs.ahead) hentry hi hok
  · rw [nextOffset_congr fun i _ _ => clear_of_not_mem (by omega)]
    exact nextOffset_congr fun i hi _ => hs.ahead i hi

theorem Res.bind_ok {α β : Type} {x : Res α} {f : α → Res β} {b : β}
    (h : (x >>= f) = Res.of (.ok b)) : ∃ a, x = Res.of (.ok a) ∧ f a = Res.of (.ok b) := by
  cases x with
  | none => cases h
  | some y =>
    cases y with
    | error err => cases h
    | ok a => exact ⟨a, rfl, h⟩

theorem Res.of_inj {α : Type} {x y : Except Errno α} (h : Res.of x = Res.of y) : x = y :=
  Option.some.inj h

theorem checkEntries_ok {fuel : ℕ} {w w' : Walk} (hs : Scanned m repl.size w e)
    (hok : checkEntries repl fuel w e = Res.of (.ok w')) : Scanned m repl.size w' repl.size := by
  induction fuel generalizing w e with
  | zero => cases hok
  | succ fuel ih =>
    rw [checkEntries] at hok
    split_ifs at hok with hlt
    · obtain ⟨⟨mem, info⟩, hcheck, hok⟩ := Res.bind_ok hok
      obtain ⟨hs', hnext⟩ := hs.step hlt (Res.of_inj hcheck)
      dsimp only at hok
      rw [hnext] at hok
      refine ih ?_ hok
      refine ⟨hs'.boundary, hs'.le, hs'.local_ok, hs'.ahead, hs'.kept, hs'.cleared, ?_⟩
      dsimp only
      split_ifs
      · exact ⟨hs'.info.size_eq, hs'.info.hook, hs'.info.underflow⟩
      · exact hs'.info
    · cases hok
      have heq : e = repl.size := by
        have := hs.le
        omega
      exact heq ▸ hs

theorem Scanned.shape {w : Walk} (hs : Scanned m size w size) : Shape m size :=
  ⟨hs.boundary, fun e hb hlt => (hs.local_ok e hb hlt).1.next_ge⟩

theorem Scanned.init {number : ℕ} :
    Scanned m size ⟨m, ⟨size, number, 0, fun _ => noHook, fun _ => noHook⟩, 0⟩ 0 where
  boundary := .zero
  le := Nat.zero_le _
  local_ok := fun _ _ h => absurd h (Nat.not_lt_zero _)
  ahead := fun _ _ => rfl
  kept := Kept.refl
  cleared := fun _ _ h => absurd h (Nat.not_lt_zero _)
  info := ⟨rfl, fun _ => .inl rfl, fun _ => .inl rfl⟩

end Cupcake.Iptables
