import Cupcake.Net.Iptables.Layout

/-! What the check of the matches and of the target of an entry makes sure of, and which bytes
it writes. -/

namespace Cupcake.Iptables

open Bytes

variable {m m' m₁ : Mem} {env : Env} {repl : Replace} {x : Extension} {size e t a b fuel mask : ℕ}

/-! ## Match records -/

inductive Meets (m : Mem) : ℕ → ℕ → Prop
  | refl (a : ℕ) : Meets m a a
  | next {a b : ℕ} : a < b → Meets m (a + recordSize m a) b → Meets m a b

/-- Records, each at least as large as its header, tile the space from `a` to `b`. -/
inductive Records (m : Mem) : ℕ → ℕ → Prop
  | refl (a : ℕ) : Records m a a
  | next {a b : ℕ} : 32 ≤ recordSize m a → Records m (a + recordSize m a) b → Records m a b

theorem Meets.le (h : Meets m a b) : a ≤ b := by
  cases h with
  | refl => exact le_rfl
  | next hlt _ => exact hlt.le

theorem Records.le (h : Records m a b) : a ≤ b := by
  induction h with
  | refl => exact le_rfl
  | next _ _ ih => omega

theorem Records.meets (h : Records m a b) : Meets m a b := by
  induction h with
  | refl => exact .refl _
  | next hmin hrest ih =>
    have := hrest.le
    exact .next (by omega) ih

theorem recordSize_congr (h : ∀ i, t ≤ i → i < t + 2 → m' i = m i) :
    recordSize m' t = recordSize m t := load_congr h

theorem Meets.congr (hm : Meets m a b) (h : ∀ i, a ≤ i → i ≤ b → m' i = m i) : Meets m' a b := by
  induction hm with
  | refl => exact .refl _
  | next hlt hrest ih =>
    have hsize := recordSize_congr fun i h₁ h₂ => h i h₁ (by omega)
    refine .next hlt (hsize ▸ ih fun i h₁ h₂ => h i (by omega) h₂)

theorem Records.congr (hm : Records m a b) (h : ∀ i, a ≤ i → i ≤ b → m' i = m i) :
    Records m' a b := by
  induction hm with
  | refl => exact .refl _
  | next hmin hrest ih =>
    have hle := hrest.le
    have hsize := recordSize_congr fun i h₁ h₂ => h i h₁ (by omega)
    exact .next (hsize ▸ hmin) (hsize ▸ ih fun i h₁ h₂ => h i (by omega) h₂)

/-! ## Extensions -/

def Registered (r : Registry × Registry) (x : Extension) : Prop :=
  x ∈ r.1.ipv4 ∨ x ∈ r.1.unspec ∨ x ∈ r.2.ipv4 ∨ x ∈ r.2.unspec

theorem findIn_ok {xs : List Extension} {err : Errno} (h : findIn m t xs err = .ok x) :
    x ∈ xs ∧ named m t x.name = true := by
  induction xs generalizing err with
  | nil => cases h
  | cons y xs ih =>
    rw [findIn] at h
    split_ifs at h with hname hrev
    · cases h
      exact ⟨List.mem_cons_self .., hname⟩
    · obtain ⟨hmem, hname⟩ := ih h
      exact ⟨List.mem_cons_of_mem _ hmem, hname⟩
    · obtain ⟨hmem, hname⟩ := ih h
      exact ⟨List.mem_cons_of_mem _ hmem, hname⟩

theorem find_ok {r : Registry} (h : r.find m t = .ok x) :
    (x ∈ r.ipv4 ∨ x ∈ r.unspec) ∧ named m t x.name = true := by
  rw [Registry.find] at h
  cases hf : findIn m t r.ipv4 .enoent with
  | ok y =>
    rw [hf] at h
    cases h
    obtain ⟨hmem, hname⟩ := findIn_ok hf
    exact ⟨.inl hmem, hname⟩
  | error err =>
    rw [hf] at h
    obtain ⟨hmem, hname⟩ := findIn_ok h
    exact ⟨.inr hmem, hname⟩

theorem requestFind_ok {r : Registry × Registry} (h : requestFind r m t = .ok x) :
    Registered r x ∧ named m t x.name = true := by
  rw [requestFind] at h
  cases hf : r.1.find m t with
  | ok y =>
    rw [hf] at h
    cases h
    obtain ⟨hmem, hname⟩ := find_ok hf
    exact ⟨hmem.imp_right .inl, hname⟩
  | error err =>
    rw [hf] at h
    obtain ⟨hmem, hname⟩ := find_ok h
    exact ⟨.inr (.inr hmem), hname⟩

theorem xtAlign_eq (x : Extension) : xtAlign x.size = (x.size + 7) / 8 * 8 := by
  have := x.size_lt
  exact Nat.mod_eq_of_lt (by omega)

theorem size_of_aligned {n : ℕ} (hn : n < 2 ^ 16) (h : xtAlign x.size = wsub 32 n sizeofRecord) :
    n = 32 + (x.size + 7) / 8 * 8 := by
  have hlt := x.size_lt
  rw [xtAlign_eq, wsub, sizeofRecord] at h
  omega

theorem recordSize_lt : recordSize m t < 2 ^ 16 := load_lt

theorem checkExtension_ok {table : List UInt8} {proto : ℕ} {inv : Bool}
    (h : checkExtension x table mask proto inv m t = .ok m') {i : ℕ}
    (hi : ¬ (t + 32 ≤ i ∧ i < t + 32 + x.size) ∨ x.checkentry = none) : m' i = m i := by
  rw [checkExtension] at h
  split_ifs at h
  cases hc : x.checkentry with
  | none =>
    rw [hc] at h
    cases h
    rfl
  | some check =>
    rw [hc] at h
    dsimp only at h
    split_ifs at h
    cases h
    exact if_neg (hi.resolve_right (by simp [hc]))

theorem recordSize_setRecordPointer {v : ℕ} : recordSize (setRecordPointer m t v) t = recordSize m t :=
  load_store_of_disjoint (by omega)

theorem findCheckMatch_ok (h : findCheckMatch env repl e mask m t = .ok m') :
    32 ≤ recordSize m t ∧ ∀ i, ¬ (t + 8 ≤ i ∧ i < t + recordSize m t) → m' i = m i := by
  obtain ⟨x, -, h⟩ := bind_ok h
  rw [xtCheckMatch, recordSize_setRecordPointer] at h
  split_ifs at h with hsize
  have hne : x.size ≠ 2 ^ 32 - 1 := by
    have := x.size_lt
    omega
  have halign : xtAlign x.size = wsub 32 (recordSize m t) sizeofRecord :=
    of_not_not fun hcon => hsize ⟨hcon, hne⟩
  have heq := size_of_aligned recordSize_lt halign
  refine ⟨by omega, fun i hi => ?_⟩
  rw [checkExtension_ok h (.inl (by omega)), setRecordPointer, store_of_not_mem (by omega)]

theorem findCheckMatches_ok (he : e + 112 ≤ t) (hmeets : Meets m t (getTarget m e))
    (h : findCheckMatches env repl e mask fuel m t = Res.of (.ok m')) :
    Records m t (getTarget m e) ∧ Records m' t (getTarget m e) ∧
      ∀ i, ¬ (t + 8 ≤ i ∧ i < getTarget m e) → m' i = m i := by
  induction fuel generalizing m t with
  | zero => cases h
  | succ fuel ih =>
    rw [findCheckMatches] at h
    split_ifs at h with hlt
    · obtain ⟨m₁, hmatch, h⟩ := Res.bind_ok h
      obtain ⟨hmin, hframe⟩ := findCheckMatch_ok (Res.of_inj hmatch)
      have hsame : getTarget m₁ e = getTarget m e := by
        rw [getTarget, getTarget, targetOffset_congr fun i _ _ => hframe i (by omega)]
      have hsize : recordSize m₁ t = recordSize m t :=
        recordSize_congr fun i _ _ => hframe i (by omega)
      cases hmeets with
      | refl => exact absurd hlt (lt_irrefl _)
      | next _ hrest =>
        have hle := hrest.le
        have hrest' : Meets m₁ (t + recordSize m t) (getTarget m e) :=
          hrest.congr fun i _ _ => hframe i (by omega)
        rw [hsize] at h
        obtain ⟨hrec, hrec', hframe'⟩ := ih (by omega) (hsame.symm ▸ hrest') h
        rw [hsame] at hrec hrec' hframe'
        have hsize' : recordSize m' t = recordSize m t := by
          rw [← hsize]
          exact recordSize_congr fun i _ _ => hframe' i (by omega)
        refine ⟨.next hmin (hrec.congr fun i _ _ => (hframe i (by omega)).symm),
          .next (hsize' ▸ hmin) (hsize' ▸ hrec'), fun i hi => ?_⟩
        rw [hframe' i (by omega), hframe i (by omega)]
    · have heq : t = getTarget m e := le_antisymm hmeets.le (not_lt.mp hlt)
      cases h
      exact ⟨heq ▸ .refl _, heq ▸ .refl _, fun _ _ => rfl⟩

theorem checkTarget_ok (htarget : 112 ≤ targetOffset m e)
    (h : checkTarget repl x (setRecordPointer m (getTarget m e) x.address) e = Res.of (.ok m')) :
    recordSize m (getTarget m e) = 32 + (x.size + 7) / 8 * 8 ∧
      recordPointer m' (getTarget m e) = x.address % 2 ^ 64 ∧
      (∀ i, ¬ (getTarget m e + 8 ≤ i ∧ i < getTarget m e + recordSize m (getTarget m e)) → m' i = m i) ∧
      (x.checkentry = none → ∀ i, getTarget m e + 16 ≤ i → m' i = m i) := by
  have hsame : getTarget (setRecordPointer m (getTarget m e) x.address) e = getTarget m e := by
    have hoff : targetOffset (setRecordPointer m (getTarget m e) x.address) e = targetOffset m e :=
      load_store_of_disjoint (by rw [getTarget]; omega)
    rw [getTarget, hoff, getTarget]
  rw [checkTarget] at h
  simp only [hsame, recordSize_setRecordPointer] at h
  split_ifs at h with hptr
  · cases h
  · have h := Res.of_inj h
    rw [xtCheckTarget] at h
    split_ifs at h with halign
    have heq := size_of_aligned recordSize_lt (of_not_not halign)
    refine ⟨heq, ?_, fun i hi => ?_, fun hnone i hi => ?_⟩
    · rw [← of_not_not hptr]
      exact load_congr fun i _ _ => checkExtension_ok h (.inl (by omega))
    · rw [checkExtension_ok h (.inl (by omega)), setRecordPointer, store_of_not_mem (by omega)]
    · rw [checkExtension_ok h (.inr hnone), setRecordPointer, store_of_not_mem (by omega)]

/-! ## Entries -/

/-- The matches end where the target starts, behind the header of the entry. -/
structure Fits (m : Mem) (e : ℕ) : Prop where
  header : 112 ≤ targetOffset m e
  meets : Meets m (e + 112) (getTarget m e)

structure EntryDone (env : Env) (m m' : Mem) (e : ℕ) : Prop where
  head : ∀ i, e ≤ i → i < e + 92 → m' i = m i
  records : Records m (e + 112) (getTarget m e)
  records' : Records m' (e + 112) (getTarget m e)
  target_min : 32 ≤ recordSize m (getTarget m e)
  target : ∃ x, Registered (env.targetExts (getTarget m e)) x ∧ named m (getTarget m e) x.name = true ∧
    recordPointer m' (getTarget m e) = x.address % 2 ^ 64 ∧
    recordSize m (getTarget m e) = 32 + (x.size + 7) / 8 * 8 ∧
    (x.checkentry = none → ∀ i, getTarget m e + 16 ≤ i → i < e + nextOffset m e → m' i = m i)

theorem EntryDone.congr (h : EntryDone env m m' e) (hmin : 112 ≤ nextOffset m e)
    (htarget : targetOffset m e + 32 ≤ nextOffset m e)
    (hsame : ∀ i, e ≤ i → i < e + nextOffset m e → m₁ i = m' i) : EntryDone env m m₁ e := by
  refine ⟨fun i h₁ h₂ => ?_, h.records, h.records'.congr fun i h₁ h₂ => ?_, h.target_min, ?_⟩
  · rw [hsame i h₁ (by omega), h.head i h₁ h₂]
  · rw [getTarget] at h₂
    exact hsame i (by omega) (by omega)
  · obtain ⟨x, hreg, hname, hptr, hsize, hkeep⟩ := h.target
    refine ⟨x, hreg, hname, ?_, hsize, fun hnone i h₁ h₂ => ?_⟩
    · rw [← hptr]
      exact load_congr fun i h₁ h₂ => hsame i (by rw [getTarget] at h₁; omega)
        (by rw [getTarget] at h₂; omega)
    · rw [hsame i (by rw [getTarget] at h₁; omega) h₂, hkeep hnone i h₁ h₂]

def SameEntry (m m' : Mem) (e : ℕ) : Prop :=
  ∀ i, e ≤ i → i < e + nextOffset m e → ¬ (e + 92 ≤ i ∧ i < e + 112) → m' i = m i

theorem findCheckEntry_ok (hl : LocalOk m size e) (hfits : Fits m e) (hsame : SameEntry m m₁ e)
    (h : findCheckEntry env repl fuel m₁ e = Res.of (.ok m')) :
    EntryDone env m m' e ∧ ∀ i, ¬ (e + 92 ≤ i ∧ i < e + nextOffset m e) → m' i = m₁ i := by
  obtain ⟨counter, -, h⟩ := Res.bind_ok h
  obtain ⟨m₂, hmatches, h⟩ := Res.bind_ok h
  obtain ⟨x, hfind, h⟩ := Res.bind_ok h
  have hge := hl.next_ge
  have htarget := hl.target_header
  have hheader := hfits.header
  -- the counter is not a byte of the records
  have hcounter (i : ℕ) (hi : ¬ (e + 92 ≤ i ∧ i < e + 112)) : setPcnt m₁ e counter i = m₁ i :=
    store_of_not_mem (by omega)
  have hstart (i : ℕ) (h₁ : e ≤ i) (h₂ : i < e + nextOffset m e) (h₃ : ¬ (e + 92 ≤ i ∧ i < e + 112)) :
      setPcnt m₁ e counter i = m i := (hcounter i h₃).trans (hsame i h₁ h₂ h₃)
  have hget : getTarget (setPcnt m₁ e counter) e = getTarget m e := by
    rw [getTarget, getTarget, targetOffset_congr fun i h₁ h₂ => hstart i h₁ (by omega) (by omega)]
  have hmeets : Meets (setPcnt m₁ e counter) (e + 112) (getTarget (setPcnt m₁ e counter) e) := by
    rw [hget]
    refine hfits.meets.congr fun i h₁ h₂ => hstart i (by omega) ?_ (by omega)
    rw [getTarget] at h₂
    omega
  obtain ⟨hrec, hrec₂, hframe⟩ := findCheckMatches_ok le_rfl hmeets hmatches
  rw [hget] at hrec hrec₂ hframe
  have hle := hrec.le
  have hin : getTarget m e + 32 ≤ e + nextOffset m e := by
    rw [getTarget]
    omega
  have hget₂ : getTarget m₂ e = getTarget m e := by
    rw [← hget, getTarget, getTarget, targetOffset_congr fun i h₁ h₂ => hframe i (by omega)]
  have hlate (i : ℕ) (h₁ : getTarget m e ≤ i) (h₂ : i < e + nextOffset m e) : m₂ i = m i :=
    (hframe i (by omega)).trans (hstart i (by omega) h₂ (by omega))
  obtain ⟨hreg, hname⟩ := requestFind_ok (Res.of_inj hfind)
  obtain ⟨hsize, hptr, hout, hnone⟩ := checkTarget_ok (by
    rw [targetOffset_congr fun i h₁ h₂ => (hframe i (by omega)).trans
      (hstart i h₁ (by omega) (by omega))]
    exact hheader) h
  rw [hget₂] at hreg hname hsize hptr hout hnone
  have hrs : recordSize m₂ (getTarget m e) = recordSize m (getTarget m e) :=
    recordSize_congr fun i h₁ h₂ => hlate i h₁ (by omega)
  rw [hrs] at hsize hout
  have hend := hl.target_end
  have hnamelt := x.name_lt
  refine ⟨⟨fun i h₁ h₂ => ?_, hrec.congr fun i h₁ h₂ => ?_, hrec₂.congr fun i h₁ h₂ => ?_, by omega,
    x, hreg, ?_, hptr, hsize, fun hn i h₁ h₂ => ?_⟩, fun i hi => ?_⟩
  · rw [hout i (by omega), hframe i (by omega), hstart i h₁ (by omega) (by omega)]
  · exact (hstart i (by omega) (by omega) (by omega)).symm
  · exact hout i (by omega)
  · rw [← hname]
    exact named_congr fun i h₁ h₂ => (hlate i (by omega) (by omega)).symm
  · rw [hnone hn i h₁, hlate i (by omega) h₂]
  · have hT : getTarget m e + recordSize m (getTarget m e) ≤ e + nextOffset m e := by
      rw [getTarget] at hend ⊢
      omega
    rw [hout i (by omega), hframe i (by omega), hcounter i (by omega)]

theorem findCheckEntries_ok (hs : Shape m repl.size)
    (hl : ∀ e, IsEntry m repl.size e → LocalOk m repl.size e)
    (hfits : ∀ e, IsEntry m repl.size e → Fits m e) (hb : Boundary m e) (hle : e ≤ repl.size)
    (hahead : ∀ i, e ≤ i → ¬ Window m repl.size i → m₁ i = m i)
    (h : findCheckEntries env repl fuel m₁ e = Res.of (.ok m')) :
    (∀ e', IsEntry m repl.size e' → e ≤ e' → EntryDone env m m' e') ∧ ∀ i < e, m' i = m₁ i := by
  induction fuel generalizing m₁ e with
  | zero => cases h
  | succ fuel ih =>
    rw [findCheckEntries] at h
    split_ifs at h with hlt
    · obtain ⟨m₂, hentry, h⟩ := Res.bind_ok h
      have he : IsEntry m repl.size e := ⟨hb, hlt⟩
      have hlocal := hl e he
      have hge := hlocal.next_ge
      have hsame : SameEntry m m₁ e := by
        intro i h₁ h₂ h₃
        refine hahead i h₁ ?_
        rcases Nat.lt_or_ge i (e + 92) with hlow | hhigh
        · exact not_window_head hs he h₁ hlow
        · exact not_window_elems hs he (by omega) h₂
      obtain ⟨hdone, hframe⟩ := findCheckEntry_ok hlocal (hfits e he) hsame hentry
      have hnext : nextOffset m₂ e = nextOffset m e := nextOffset_congr hdone.head
      rw [hnext] at h
      obtain ⟨hrest, hbefore⟩ := ih hb.next hlocal.next_le
        (fun i h₁ h₂ => (hframe i (by omega)).trans (hahead i (by omega) h₂)) h
      refine ⟨fun e' he' hle' => ?_, fun i hi => ?_⟩
      · rcases hle'.lt_or_eq with hlt' | rfl
        · exact hrest e' he' (hb.next_le he'.1 hlt')
        · exact hdone.congr (by omega) hlocal.target_header fun i _ h₂ => hbefore i h₂
      · rw [hbefore i (by omega), hframe i (by omega)]
    · cases h
      refine ⟨fun e' he' hle' => ?_, fun _ _ => rfl⟩
      have := he'.2
      omega

end Cupcake.Iptables
