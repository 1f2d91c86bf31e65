import Cupcake.Lib.BackWalk
import Cupcake.Net.Iptables.Offsets
import Mathlib.Data.Nat.Bitwise

/-! `mark_source_chains` marks exactly the entries that the hooks lead to. -/

namespace Cupcake.Iptables

open List BackWalk Bytes Relation

variable {m m' m₁ : Mem} {size start e u v fuel hook : ℕ} {path done : List ℕ}

/-! ## The graph of a table -/

structure Table (m : Mem) (size : ℕ) : Prop where
  shape : Shape m size
  size_lt : size < 2 ^ 32
  target : ∀ e, IsEntry m size e → 112 ≤ targetOffset m e ∧ targetOffset m e + 32 ≤ nextOffset m e

def graph (m : Mem) : Graph ℕ where
  stop := fun e => unconditional m e = true ∧ standardWith m e (· < 0) = true
  jump := fun e => if standardWith m e (0 ≤ ·) then some (verdict m (getTarget m e)).toNat else none
  next := fun e => e + nextOffset m e

open Classical in
noncomputable def entries (m : Mem) (size : ℕ) : Finset ℕ :=
  (Finset.range size).filter (IsEntry m size)

theorem mem_entries : e ∈ entries m size ↔ IsEntry m size e := by
  classical
  rw [entries, Finset.mem_filter, Finset.mem_range]
  exact ⟨And.right, fun h => ⟨h.2, h⟩⟩

theorem card_entries_le : (entries m size).card ≤ size := by
  classical
  exact (Finset.card_filter_le _ _).trans (Finset.card_range size).le

theorem not_window_verdict (he : IsEntry m size e) {i : ℕ} (h₁ : e + 112 ≤ i)
    (h₂ : i < e + nextOffset m e + 4) : ¬ Window m size i := by
  rintro ⟨e', he', hlow, hhigh⟩
  rcases Nat.lt_or_ge e e' with hlt | hge
  · have := he.1.next_le he'.1 hlt
    omega
  · omega

section

variable (hk : Kept m size m')

include hk

theorem Kept.elems (he : IsEntry m size e) :
    ∀ i, e + 112 ≤ i → i < e + nextOffset m e + 4 → m' i = m i :=
  fun i h₁ h₂ => hk i (not_window_verdict he h₁ h₂)

theorem Kept.getTarget_eq (hs : Shape m size) (he : IsEntry m size e) :
    getTarget m' e = getTarget m e := by
  rw [getTarget, getTarget, targetOffset_congr (hk.head hs he)]

theorem Kept.verdict_eq (ht : Table m size) (he : IsEntry m size e) :
    verdict m' (getTarget m' e) = verdict m (getTarget m e) := by
  obtain ⟨h₁, h₂⟩ := ht.target e he
  have hraw : rawVerdict m' (getTarget m e) = rawVerdict m (getTarget m e) := by
    rw [getTarget]
    exact rawVerdict_congr fun i _ _ => hk.elems he i (by omega) (by omega)
  rw [hk.getTarget_eq ht.shape he, verdict, verdict, hraw]

theorem Kept.standardWith_eq (ht : Table m size) (he : IsEntry m size e) (p : ℤ → Bool) :
    standardWith m' e p = standardWith m e p := by
  obtain ⟨h₁, h₂⟩ := ht.target e he
  have hname : named m' (getTarget m e) standardTarget =
      named m (getTarget m e) standardTarget := by
    refine named_congr fun i hi₁ hi₂ => hk.elems he i ?_ ?_
    · rw [getTarget] at hi₁
      omega
    · rw [getTarget, standardTarget, length_nil] at hi₂
      omega
  rw [standardWith, standardWith, hk.verdict_eq ht he, hk.getTarget_eq ht.shape he, hname]

end

/-! ## The marks -/

def marksOf (m : Mem) (hook : ℕ) : Marks ℕ where
  seen := fun e => (comefrom m e).testBit hook
  opened := fun e => (comefrom m e).testBit loopBit
  back := pcnt m

def OtherBits (m : Mem) (size hook : ℕ) (m' m₁ : Mem) : Prop :=
  ∀ e, IsEntry m size e → ∀ b, b ≠ hook → b ≠ loopBit →
    (comefrom m₁ e).testBit b = (comefrom m' e).testBit b

def SameBits (m : Mem) (size : ℕ) (m' m₁ : Mem) : Prop :=
  ∀ e, IsEntry m size e → ∀ b, b ≠ loopBit → (comefrom m₁ e).testBit b = (comefrom m' e).testBit b

theorem SameBits.trans {m₂ : Mem} (h : SameBits m size m' m₁) (h' : SameBits m size m₁ m₂) :
    SameBits m size m' m₂ :=
  fun e he b hb => (h' e he b hb).trans (h e he b hb)

theorem SameBits.other (h : SameBits m size m' m₁) : OtherBits m size hook m' m₁ :=
  fun e he b _ hb => h e he b hb

theorem comefrom_lt : comefrom m e < 2 ^ 32 := load_lt

theorem OtherBits.trans {m₂ : Mem} (h : OtherBits m size hook m' m₁)
    (h' : OtherBits m size hook m₁ m₂) : OtherBits m size hook m' m₂ :=
  fun e he b h₁ h₂ => (h' e he b h₁ h₂).trans (h e he b h₁ h₂)

def enterMark (m : Mem) (hook v : ℕ) : Mem :=
  setComefrom m v (comefrom m v ||| (2 ^ hook ||| 2 ^ loopBit))

theorem testBit_comefrom_enterMark (ht : Table m size) (hhook : hook < numHooks) (hv : IsEntry m size v)
    (hu : IsEntry m size u) {b : ℕ} :
    (comefrom (enterMark m' hook v) u).testBit b =
      ((comefrom m' u).testBit b ||
        (decide (u = v) && (decide (hook = b) || decide (loopBit = b)))) := by
  rw [enterMark]
  rcases eq_or_ne u v with rfl | hne
  · have hlt : comefrom m' u ||| (2 ^ hook ||| 2 ^ loopBit) < 2 ^ 32 := by
      refine Nat.or_lt_two_pow comefrom_lt (Nat.or_lt_two_pow ?_ (by decide))
      exact Nat.pow_lt_pow_right (by decide) (hhook.trans (by decide))
    rw [comefrom_setComefrom, Nat.mod_eq_of_lt hlt, Nat.testBit_or, Nat.testBit_or,
      Nat.testBit_two_pow, Nat.testBit_two_pow, decide_eq_true rfl, Bool.true_and]
  · rw [comefrom_setComefrom_of_ne (hv.apart ht.shape hu hne.symm)]
    simp [hne]

theorem pcnt_enterMark (ht : Table m size) (hv : IsEntry m size v) (hu : IsEntry m size u) :
    pcnt (enterMark m' hook v) u = pcnt m' u := by
  rw [enterMark]
  rcases eq_or_ne u v with rfl | hne
  · exact pcnt_setComefrom_self
  · exact pcnt_setComefrom_of_ne (hv.apart ht.shape hu hne.symm)

def leaveMark (m : Mem) (v : ℕ) : Mem :=
  setPcnt (setComefrom m v (comefrom m v ^^^ 2 ^ loopBit)) v 0

theorem testBit_comefrom_leaveMark (ht : Table m size) (hv : IsEntry m size v)
    (hu : IsEntry m size u) {b : ℕ} :
    (comefrom (leaveMark m' v) u).testBit b =
      ((comefrom m' u).testBit b ^^ (decide (u = v) && decide (loopBit = b))) := by
  rw [leaveMark]
  rcases eq_or_ne u v with rfl | hne
  · have hlt : comefrom m' u ^^^ 2 ^ loopBit < 2 ^ 32 := Nat.xor_lt_two_pow comefrom_lt (by decide)
    rw [comefrom_setPcnt_self, comefrom_setComefrom, Nat.mod_eq_of_lt hlt, Nat.testBit_xor,
      Nat.testBit_two_pow, decide_eq_true rfl, Bool.true_and]
  · have hap := hv.apart ht.shape hu hne.symm
    rw [comefrom_setPcnt_of_ne hap, comefrom_setComefrom_of_ne hap]
    simp [hne]

theorem pcnt_leaveMark_self : pcnt (leaveMark m' v) v = 0 := by
  rw [leaveMark, pcnt_setPcnt, Nat.zero_mod]

section

variable (ht : Table m size) (hv : IsEntry m size v) (hu : IsEntry m size u)

include ht hv hu

theorem pcnt_leaveMark_of_ne (hne : u ≠ v) : pcnt (leaveMark m' v) u = pcnt m' u := by
  have hap := hv.apart ht.shape hu hne.symm
  rw [leaveMark, pcnt_setPcnt_of_ne hap, pcnt_setComefrom_of_ne hap]

theorem pcnt_setPcnt_eq (he : e < 2 ^ 32) :
    pcnt (setPcnt m' v e) u = if u = v then e else pcnt m' u := by
  rcases eq_or_ne u v with rfl | hne
  · rw [if_pos rfl, pcnt_setPcnt]
    exact Nat.mod_eq_of_lt (he.trans (by decide))
  · rw [if_neg hne]
    exact pcnt_setPcnt_of_ne (hv.apart ht.shape hu hne.symm)

theorem comefrom_setPcnt_eq :
    comefrom (setPcnt m' v e) u = comefrom m' u := by
  rcases eq_or_ne u v with rfl | hne
  · exact comefrom_setPcnt_self
  · exact comefrom_setPcnt_of_ne (hv.apart ht.shape hu hne.symm)

end

theorem Kept.enterMark (hk : Kept m size m') (hv : IsEntry m size v) :
    Kept m size (enterMark m' hook v) := hk.setComefrom hv

theorem Kept.leaveMark (hk : Kept m size m') (hv : IsEntry m size v) :
    Kept m size (leaveMark m' v) := (hk.setComefrom hv).setPcnt hv

section

variable (ht : Table m size) (hhook : hook < numHooks) (hv : IsEntry m size v)

include ht hhook hv

theorem seen_enterMark :
    ∀ u ∈ entries m size, (marksOf (enterMark m' hook v) hook).seen u = true ↔
      u = v ∨ (marksOf m' hook).seen u = true := by
  intro u hu
  simp only [marksOf, testBit_comefrom_enterMark ht hhook hv (mem_entries.mp hu)]
  simp [or_comm]

theorem opened_enterMark :
    ∀ u ∈ entries m size, (marksOf (enterMark m' hook v) hook).opened u = true ↔
      u = v ∨ (marksOf m' hook).opened u = true := by
  intro u hu
  simp only [marksOf, testBit_comefrom_enterMark ht hhook hv (mem_entries.mp hu)]
  simp [or_comm]

theorem otherBits_enterMark :
    OtherBits m size hook m' (enterMark m' hook v) := by
  intro u hu b h₁ h₂
  rw [testBit_comefrom_enterMark ht hhook hv hu]
  simp [h₁.symm, h₂.symm]

theorem seen_leaveMark :
    ∀ u ∈ entries m size,
      (marksOf (leaveMark m' v) hook).seen u = (marksOf m' hook).seen u := by
  intro u hu
  have hne : ¬ loopBit = hook := by
    rw [loopBit]
    rw [numHooks] at hhook
    omega
  simp only [marksOf, testBit_comefrom_leaveMark ht hv (mem_entries.mp hu)]
  simp [hne]

end

section

variable (ht : Table m size) (hv : IsEntry m size v)

include ht hv

theorem opened_leaveMark (hopen : (marksOf m' hook).opened v = true) :
    ∀ u ∈ entries m size, (marksOf (leaveMark m' v) hook).opened u = true ↔
      u ≠ v ∧ (marksOf m' hook).opened u = true := by
  intro u hu
  simp only [marksOf] at hopen
  simp only [marksOf, testBit_comefrom_leaveMark ht hv (mem_entries.mp hu)]
  rcases eq_or_ne u v with rfl | hne
  · simp [hopen]
  · simp [hne]

theorem sameBits_leaveMark :
    SameBits m size m' (leaveMark m' v) := by
  intro u hu b hb
  rw [testBit_comefrom_leaveMark ht hv hu]
  simp [hb.symm]

theorem sameBits_setPcnt :
    SameBits m size m' (setPcnt m' v e) := by
  intro u hu b _
  rw [comefrom_setPcnt_eq ht hv hu]

end

/-! ## Leaving entries -/

theorem backtrack_succ : backtrack (fuel + 1) m' v =
    if pcnt m' v % 2 ^ 32 = v then some (leaveMark m' v, none)
    else if v = wadd 32 (pcnt m' v % 2 ^ 32) (nextOffset (leaveMark m' v) (pcnt m' v % 2 ^ 32)) then
      backtrack fuel (leaveMark m' v) (pcnt m' v % 2 ^ 32)
    else some (leaveMark m' v, some (pcnt m' v % 2 ^ 32)) := by
  rw [backtrack, pcnt_setComefrom_self]
  rfl

theorem backtrack_turn {p : ℕ} (ht : Table m size) (hk : Kept m size m')
    (h : Leave (graph m) (entries m size) 0 start (marksOf m' hook) v (p :: path) done) :
    backtrack (fuel + 1) m' v =
      if v = (graph m).next p then backtrack fuel (leaveMark m' v) p
      else some (leaveMark m' v, some p) := by
  have hp : IsEntry m size p :=
    mem_entries.mp (h.nodes p (mem_append_left _ (mem_cons_self ..)))
  have hv : IsEntry m size v := mem_entries.mp h.at_node
  have hback : pcnt m' v % 2 ^ 32 = p := by
    rw [show pcnt m' v = p from h.backs.1]
    exact Nat.mod_eq_of_lt (hp.2.trans ht.size_lt)
  have hne : p ≠ v := fun heq => h.not_mem_path (heq ▸ mem_cons_self ..)
  rw [backtrack_succ, hback, if_neg hne, wadd_next ht.shape ht.size_lt (hk.leaveMark hv) hp]
  rfl

theorem backtrack_start (ht : Table m size)
    (h : Leave (graph m) (entries m size) 0 start (marksOf m' hook) v [] done) :
    backtrack (fuel + 1) m' v = some (leaveMark m' v, none) := by
  have hv : IsEntry m size v := mem_entries.mp h.at_node
  have hback : pcnt m' v % 2 ^ 32 = v := by
    rw [show pcnt m' v = v from h.backs]
    exact Nat.mod_eq_of_lt (hv.2.trans ht.size_lt)
  rw [backtrack_succ, if_pos hback]

theorem backtrack_total (ht : Table m size) (hhook : hook < numHooks) (hk : Kept m size m')
    (h : Leave (graph m) (entries m size) 0 start (marksOf m' hook) v path done)
    (hfuel : path.length < fuel) : ∃ r, backtrack fuel m' v = some r := by
  induction path generalizing m' v done fuel with
  | nil =>
    obtain ⟨fuel, rfl⟩ := Nat.exists_eq_succ_of_ne_zero (Nat.ne_of_gt hfuel)
    exact ⟨_, backtrack_start ht h⟩
  | cons p path ih =>
    obtain ⟨fuel, rfl⟩ := Nat.exists_eq_succ_of_ne_zero (Nat.ne_of_gt ((Nat.zero_le _).trans_lt hfuel))
    have hv : IsEntry m size v := mem_entries.mp h.at_node
    rw [Nat.succ_eq_add_one, backtrack_turn ht hk h]
    split_ifs with hnext
    · have hopen : (marksOf m' hook).opened v = true := (h.opened v h.at_node).mpr (.inl rfl)
      refine ih (hk.leaveMark hv) (h.pop_next hnext (seen_leaveMark ht hhook hv)
        (opened_leaveMark ht hv hopen) pcnt_leaveMark_self fun u hu hne => ?_)
        (by rw [length_cons] at hfuel; omega)
      exact pcnt_leaveMark_of_ne ht hv (mem_entries.mp hu) hne
    · exact ⟨_, rfl⟩

def VisitBelow (m : Mem) (size hook start : ℕ) (m₁ : Mem) (w bound : ℕ) : Prop :=
  ∃ path done, Visit (graph m) (entries m size) 0 start (marksOf m₁ hook) w path done ∧
    visitsLeft (graph m) (entries m size) w path done < bound

theorem backtrack_spec {r : Option ℕ} (ht : Table m size) (hhook : hook < numHooks)
    (hk : Kept m size m')
    (h : Leave (graph m) (entries m size) 0 start (marksOf m' hook) v path done)
    (hr : backtrack fuel m' v = some (m₁, r)) :
    Kept m size m₁ ∧ SameBits m size m' m₁ ∧
      (r = none → Finished (graph m) (entries m size) 0 start (marksOf m₁ hook)) ∧
      ∀ p, r = some p → IsEntry m size p ∧ (IsEntry m size (p + nextOffset m p) →
        VisitBelow m size hook start (setPcnt m₁ (p + nextOffset m p) p) (p + nextOffset m p)
          (visitsLeft (graph m) (entries m size) v path done)) := by
  induction path generalizing m' v done fuel with
  | nil =>
    cases fuel with
    | zero => cases hr
    | succ fuel =>
      have hv : IsEntry m size v := mem_entries.mp h.at_node
      have hopen : (marksOf m' hook).opened v = true := (h.opened v h.at_node).mpr (.inl rfl)
      rw [backtrack_start ht h] at hr
      cases hr
      refine ⟨hk.leaveMark hv, sameBits_leaveMark ht hv, fun _ => ?_, nofun⟩
      exact h.pop_start (seen_leaveMark ht hhook hv) (opened_leaveMark ht hv hopen)
        pcnt_leaveMark_self fun u hu hne => pcnt_leaveMark_of_ne ht hv (mem_entries.mp hu) hne
  | cons p path ih =>
    cases fuel with
    | zero => cases hr
    | succ fuel =>
      have hv : IsEntry m size v := mem_entries.mp h.at_node
      have hp : IsEntry m size p :=
        mem_entries.mp (h.nodes p (mem_append_left _ (mem_cons_self ..)))
      have hopen : (marksOf m' hook).opened v = true := (h.opened v h.at_node).mpr (.inl rfl)
      have hothers : ∀ u ∈ entries m size, u ≠ v →
          (marksOf (leaveMark m' v) hook).back u = (marksOf m' hook).back u :=
        fun u hu hne => pcnt_leaveMark_of_ne ht hv (mem_entries.mp hu) hne
      rw [backtrack_turn ht hk h] at hr
      split_ifs at hr with hnext
      · have hpop := h.pop_next hnext (seen_leaveMark ht hhook hv) (opened_leaveMark ht hv hopen)
          pcnt_leaveMark_self hothers
        obtain ⟨hk₁, hbits, hstart, hgo⟩ := ih (hk.leaveMark hv) hpop hr
        have hleft : visitsLeft (graph m) (entries m size) p path (p :: done) =
            visitsLeft (graph m) (entries m size) v (p :: path) done := by
          simp only [visitsLeft, pending, if_pos hnext, length_cons]
          omega
        rw [hleft] at hgo
        exact ⟨hk₁, (sameBits_leaveMark ht hv).trans hbits, hstart, hgo⟩
      · cases hr
        refine ⟨hk.leaveMark hv, sameBits_leaveMark ht hv, nofun, fun p' hp' => ?_⟩
        cases hp'
        refine ⟨hp, fun hw => ⟨p :: path, done, ?_, ?_⟩⟩
        · have hback (u : ℕ) (hu : u ∈ entries m size) :
              (marksOf (setPcnt (leaveMark m' v) (p + nextOffset m p) p) hook).back u =
                if u = p + nextOffset m p then p else pcnt (leaveMark m' v) u :=
            pcnt_setPcnt_eq ht hw (mem_entries.mp hu) (hp.2.trans ht.size_lt)
          refine h.pop_jump hnext (mem_entries.mpr hw) (fun u hu => ?_) (fun u hu => ?_) ?_ ?_
            fun u hu h₁ h₂ => ?_
          · exact (congrArg (Nat.testBit · hook) (comefrom_setPcnt_eq ht hw (mem_entries.mp hu))).trans
              (seen_leaveMark ht hhook hv u hu)
          · rw [← opened_leaveMark ht hv hopen u hu]
            exact iff_of_eq (congrArg (Nat.testBit · loopBit = true)
              (comefrom_setPcnt_eq ht hw (mem_entries.mp hu)))
          · exact (hback _ (mem_entries.mpr hw)).trans (if_pos rfl)
          · exact (hback v h.at_node).trans ((if_neg hnext).trans pcnt_leaveMark_self)
          · exact (hback u hu).trans ((if_neg h₂).trans (hothers u hu h₁))
        · simp only [visitsLeft, pending, if_neg hnext]
          simp [graph]

/-! ## One turn -/

def TurnOk (m : Mem) (size hook start : ℕ) (m' : Mem) (left : ℕ) (t : Turn) : Prop :=
  (∀ m₁, t = .done m₁ → Kept m size m₁ ∧ OtherBits m size hook m' m₁ ∧
    Finished (graph m) (entries m size) 0 start (marksOf m₁ hook)) ∧
  ∀ m₁ w, t = .go m₁ w → Kept m size m₁ ∧ OtherBits m size hook m' m₁ ∧
    VisitBelow m size hook start m₁ w left

theorem TurnOk.fail {left : ℕ} : TurnOk m size hook start m' left .fail := ⟨nofun, nofun⟩

theorem TurnOk.mono {left left' : ℕ} {t : Turn} {m₀ : Mem} (h : TurnOk m size hook start m' left t)
    (hle : left ≤ left') (hbits : OtherBits m size hook m₀ m') :
    TurnOk m size hook start m₀ left' t := by
  refine ⟨fun m₁ ht => ?_, fun m₁ w ht => ?_⟩
  · obtain ⟨hk, hb, hf⟩ := h.1 m₁ ht
    exact ⟨hk, hbits.trans hb, hf⟩
  · obtain ⟨hk, hb, path, done, hv, hlt⟩ := h.2 m₁ w ht
    exact ⟨hk, hbits.trans hb, path, done, hv, hlt.trans_le hle⟩

section

variable (ht : Table m size) (hhook : hook < numHooks) (hk : Kept m size m')
  (h : Leave (graph m) (entries m size) 0 start (marksOf m' hook) v path done)

include ht hhook hk h

theorem leave_spec {t : Turn} (hl : leave size fuel m' v = some t) :
    TurnOk m size hook start m' (visitsLeft (graph m) (entries m size) v path done) t := by
  rw [leave] at hl
  cases hb : backtrack fuel m' v with
  | none => simp [hb] at hl
  | some r =>
    obtain ⟨m₂, back⟩ := r
    obtain ⟨hk₂, hbits, hdone, hgo⟩ := backtrack_spec ht hhook hk h hb
    cases back with
    | none =>
      simp only [hb, Option.some.injEq] at hl
      subst hl
      refine ⟨fun m₁ heq => ?_, fun _ _ heq => by cases heq⟩
      cases heq
      exact ⟨hk₂, hbits.other, hdone rfl⟩
    | some p =>
      obtain ⟨hp, hvisit⟩ := hgo p rfl
      simp only [hb, wadd_next ht.shape ht.size_lt hk₂ hp] at hl
      split_ifs at hl with hend
      · cases hl
        exact .fail
      · cases hl
        have hnext := hp.next (not_le.mp hend)
        refine ⟨(fun _ heq => by cases heq), fun m₁ w heq => ?_⟩
        cases heq
        exact ⟨hk₂.setPcnt hnext, (hbits.trans (sameBits_setPcnt ht hnext)).other, hvisit hnext⟩

theorem leave_total (hfuel : path.length < fuel) : ∃ t, leave size fuel m' v = some t := by
  obtain ⟨⟨m₁, back⟩, hb⟩ := backtrack_total ht hhook hk h hfuel
  rw [leave, hb]
  cases back with
  | none => exact ⟨_, rfl⟩
  | some p =>
    dsimp only
    split_ifs
    · exact ⟨_, rfl⟩
    · exact ⟨_, rfl⟩

end

section

variable (ht : Table m size) (hhook : hook < numHooks) (hk : Kept m size m')
  (h : Visit (graph m) (entries m size) 0 start (marksOf m' hook) v path done)
  (hpath : v ∉ path) (hdone : v ∉ done) (hstop : ¬ (graph m).stop v)

include ht hhook hk h hpath hdone hstop

theorem go_spec {w : ℕ} (hw : IsEntry m size w)
    (hedge : (graph m).jump v = some w ∨ (graph m).jump v = none ∧ w = (graph m).next v) :
    TurnOk m size hook start m' (visitsLeft (graph m) (entries m size) v path done)
      (.go (setPcnt (enterMark m' hook v) w v) w) := by
  have hv : IsEntry m size v := mem_entries.mp h.at_node
  have hback (u : ℕ) (hu : u ∈ entries m size) :
      (marksOf (setPcnt (enterMark m' hook v) w v) hook).back u =
        if u = w then v else pcnt (enterMark m' hook v) u :=
    pcnt_setPcnt_eq ht hw (mem_entries.mp hu) (hv.2.trans ht.size_lt)
  have hcome (u : ℕ) (hu : u ∈ entries m size) :
      comefrom (setPcnt (enterMark m' hook v) w v) u = comefrom (enterMark m' hook v) u :=
    comefrom_setPcnt_eq ht hw (mem_entries.mp hu)
  have hvisit : Visit (graph m) (entries m size) 0 start
      (marksOf (setPcnt (enterMark m' hook v) w v) hook) w (v :: path) done := by
    refine h.enter hpath hdone hstop (mem_entries.mpr hw) hedge (fun u hu => ?_) (fun u hu => ?_) ?_
      fun u hu hne => ?_
    · rw [← seen_enterMark ht hhook hv u hu]
      exact iff_of_eq (congrArg (Nat.testBit · hook = true) (hcome u hu))
    · rw [← opened_enterMark ht hhook hv u hu]
      exact iff_of_eq (congrArg (Nat.testBit · loopBit = true) (hcome u hu))
    · exact (hback w (mem_entries.mpr hw)).trans (if_pos rfl)
    · exact (hback u hu).trans ((if_neg hne).trans (pcnt_enterMark ht hv (mem_entries.mp hu)))
  refine ⟨nofun, fun m₁ w' heq => ?_⟩
  cases heq
  refine ⟨(hk.enterMark hv).setPcnt hw,
    (otherBits_enterMark ht hhook hv).trans (sameBits_setPcnt ht hw).other, v :: path, done, hvisit, ?_⟩
  have hlen := hvisit.toFound.length_le
  have hone : (if w = (graph m).next v then 0 else 1) ≤ 1 := by split_ifs <;> omega
  simp only [visitsLeft, pending, length_cons] at hlen ⊢
  omega

theorem enter_spec {t : Turn} (he : enter size fuel (enterMark m' hook v) v = some t) :
    TurnOk m size hook start m' (visitsLeft (graph m) (entries m size) v path done) t := by
  have hv : IsEntry m size v := mem_entries.mp h.at_node
  have hk₁ : Kept m size (enterMark m' hook v) := hk.enterMark hv
  rw [enter, hk₁.standardWith_eq ht hv, hk₁.verdict_eq ht hv,
    wadd_next ht.shape ht.size_lt hk₁ hv] at he
  dsimp only at he
  by_cases hstd : standardWith m v (0 ≤ ·) = true
  · rw [if_pos hstd] at he
    have hjump : (graph m).jump v = some (verdict m (getTarget m v)).toNat := if_pos hstd
    split_ifs at he
    · cases he
      exact .fail
    · cases hf : findJumpTarget size (enterMark m' hook v) (verdict m (getTarget m v)).toNat fuel 0 with
      | none => simp [hf] at he
      | some found =>
        cases found with
        | false =>
          simp only [hf, Option.some.injEq] at he
          subst he
          exact .fail
        | true =>
          simp only [hf, Option.some.injEq] at he
          subst he
          exact go_spec ht hhook hk h hpath hdone hstop
            (isEntry_of_findJumpTarget ht.shape hk₁ .zero hf) (.inl hjump)
  · rw [if_neg hstd] at he
    have hjump : (graph m).jump v = none := if_neg hstd
    split_ifs at he with hend
    · cases he
      exact .fail
    · cases he
      exact go_spec ht hhook hk h hpath hdone hstop (hv.next (not_le.mp hend)) (.inr ⟨hjump, rfl⟩)

end

theorem findJumpTarget_total {target : ℕ} (hs : Shape m size) (hk : Kept m size m')
    (hb : Boundary m e) (hle : e ≤ size) (hfuel : size < e + fuel) :
    ∃ b, findJumpTarget size m' target fuel e = some b := by
  induction fuel generalizing e with
  | zero => omega
  | succ fuel ih =>
    rw [findJumpTarget]
    split_ifs with hlt
    · exact ⟨_, rfl⟩
    · have hge := hs.next_ge e hb hlt
      have hnext := (show IsEntry m size e from ⟨hb, hlt⟩).next_le_size hs
      rw [hk.nextOffset_eq hs ⟨hb, hlt⟩]
      exact ih hb.next hnext (by omega)
    · exact ⟨_, rfl⟩

theorem enter_total (ht : Table m size) (hk : Kept m size m') (hfuel : size < fuel) :
    ∃ t, enter size fuel m' v = some t := by
  rw [enter]
  dsimp only
  split_ifs
  · exact ⟨_, rfl⟩
  · have hfind : ∃ b, findJumpTarget size m' (verdict m' (getTarget m' v)).toNat fuel 0 = some b :=
      findJumpTarget_total ht.shape hk .zero (Nat.zero_le _) (by omega)
    obtain ⟨b, hb⟩ := hfind
    rw [hb]
    cases b with
    | false => exact ⟨_, rfl⟩
    | true => exact ⟨_, rfl⟩
  · exact ⟨_, rfl⟩
  · exact ⟨_, rfl⟩

theorem leaves_of_visit (ht : Table m size) (hhook : hook < numHooks)
    (h : Visit (graph m) (entries m size) 0 start (marksOf m' hook) v path done) (hpath : v ∉ path)
    (hleave : v ∈ done ∨ (graph m).stop v) :
    ∃ done',
      Leave (graph m) (entries m size) 0 start (marksOf (enterMark m' hook v) hook) v path done' ∧
      visitsLeft (graph m) (entries m size) v path done' ≤
        visitsLeft (graph m) (entries m size) v path done := by
  have hv : IsEntry m size v := mem_entries.mp h.at_node
  have hback : ∀ u ∈ entries m size,
      (marksOf (enterMark m' hook v) hook).back u = (marksOf m' hook).back u :=
    fun u hu => pcnt_enterMark ht hv (mem_entries.mp hu)
  by_cases hdone : v ∈ done
  · exact ⟨done, h.leave_seen hpath hdone (seen_enterMark ht hhook hv) (opened_enterMark ht hhook hv)
      hback, le_rfl⟩
  · refine ⟨v :: done, h.leave_stop hpath hdone (hleave.resolve_left hdone)
      (seen_enterMark ht hhook hv) (opened_enterMark ht hhook hv) hback, ?_⟩
    simp only [visitsLeft, length_cons]
    omega

theorem turn_eq (ht : Table m size) (hk : Kept m size m')
    (h : Visit (graph m) (entries m size) 0 start (marksOf m' hook) v path done) :
    turn size hook fuel m' v =
      if v ∈ path then some .fail
      else if v ∈ done ∨ unconditional m v = true ∧ standardWith m v (· < 0) = true then
        if standardWith m v (· < minVerdict) then some .fail
        else leave size fuel (enterMark m' hook v) v
      else enter size fuel (enterMark m' hook v) v := by
  have hv : IsEntry m size v := mem_entries.mp h.at_node
  have hk₁ : Kept m size (enterMark m' hook v) := hk.enterMark hv
  have hopened : (comefrom m' v).testBit loopBit = true ↔ v ∈ path := h.opened v h.at_node
  have hseen : (comefrom m' v).testBit hook = true ↔ v ∈ path ∨ v ∈ done := h.seen v h.at_node
  by_cases hpath : v ∈ path
  · rw [turn, if_pos hpath]
    exact if_pos (hopened.mpr hpath)
  · have hclosed : ¬ (comefrom m' v).testBit loopBit = true := fun hc => hpath (hopened.mp hc)
    have hvisited : (comefrom m' v).testBit hook = true ↔ v ∈ done := by
      rw [hseen, or_iff_right hpath]
    rw [turn, if_neg hpath]
    dsimp only
    rw [if_neg hclosed]
    change (if (unconditional (enterMark m' hook v) v && standardWith (enterMark m' hook v) v (· < 0) ||
        (comefrom m' v).testBit hook) = true then
          if standardWith (enterMark m' hook v) v (· < minVerdict) = true then some Turn.fail
          else leave size fuel (enterMark m' hook v) v
        else enter size fuel (enterMark m' hook v) v) = _
    rw [unconditional_congr (hk₁.head ht.shape hv), hk₁.standardWith_eq ht hv,
      hk₁.standardWith_eq ht hv]
    simp only [Bool.or_eq_true, Bool.and_eq_true, hvisited]
    congr 1
    exact propext or_comm

section

variable (ht : Table m size) (hhook : hook < numHooks) (hk : Kept m size m')
  (h : Visit (graph m) (entries m size) 0 start (marksOf m' hook) v path done)

include ht hhook hk h

theorem turn_spec {t : Turn} (hturn : turn size hook fuel m' v = some t) :
    TurnOk m size hook start m' (visitsLeft (graph m) (entries m size) v path done) t := by
  have hv : IsEntry m size v := mem_entries.mp h.at_node
  rw [turn_eq ht hk h] at hturn
  split_ifs at hturn with hpath hleave hbad
  · cases hturn
    exact .fail
  · cases hturn
    exact .fail
  · obtain ⟨done', hl, hle⟩ := leaves_of_visit ht hhook h hpath hleave
    exact (leave_spec ht hhook (hk.enterMark hv) hl hturn).mono hle (otherBits_enterMark ht hhook hv)
  · exact enter_spec ht hhook hk h hpath (fun hd => hleave (.inl hd)) (fun hs => hleave (.inr hs)) hturn

theorem turn_total (hfuel : size < fuel) : ∃ t, turn size hook fuel m' v = some t := by
  have hv : IsEntry m size v := mem_entries.mp h.at_node
  rw [turn_eq ht hk h]
  split_ifs with hpath hleave hbad
  · exact ⟨_, rfl⟩
  · exact ⟨_, rfl⟩
  · obtain ⟨done', hl, -⟩ := leaves_of_visit ht hhook h hpath hleave
    have hlen := hl.toFound.length_le
    have hcard : (entries m size).card ≤ size := card_entries_le
    exact leave_total ht hhook (hk.enterMark hv) hl (by omega)
  · exact enter_total ht (hk.enterMark hv) hfuel

end

/-! ## One hook -/

section

variable (ht : Table m size) (hhook : hook < numHooks) (hk : Kept m size m')
  (h : Visit (graph m) (entries m size) 0 start (marksOf m' hook) v path done)

include ht hhook hk h

theorem walkHook_spec (hw : walkHook size hook fuel m' v = some (some m₁)) :
    Kept m size m₁ ∧ OtherBits m size hook m' m₁ ∧
      Finished (graph m) (entries m size) 0 start (marksOf m₁ hook) := by
  induction fuel generalizing m' v path done with
  | zero => cases hw
  | succ fuel ih =>
    rw [walkHook] at hw
    cases hturn : turn size hook fuel m' v with
    | none => simp [hturn] at hw
    | some t =>
      obtain ⟨hdone, hgo⟩ := turn_spec ht hhook hk h hturn
      cases t with
      | fail => simp [hturn] at hw
      | done m₂ =>
        simp only [hturn, Option.some.injEq] at hw
        exact hw ▸ hdone m₂ rfl
      | go m₂ w =>
        simp only [hturn] at hw
        obtain ⟨hk₂, hbits, path', done', hv', -⟩ := hgo m₂ w rfl
        obtain ⟨hk₁, hbits', hf⟩ := ih hk₂ hv' hw
        exact ⟨hk₁, hbits.trans hbits', hf⟩

theorem walkHook_total (hfuel : size + 1 + visitsLeft (graph m) (entries m size) v path done < fuel) :
    ∃ r, walkHook size hook fuel m' v = some r := by
  induction fuel generalizing m' v path done with
  | zero => omega
  | succ fuel ih =>
    obtain ⟨t, hturn⟩ := turn_total ht hhook hk h (by omega : size < fuel)
    rw [walkHook, hturn]
    cases t with
    | fail => exact ⟨_, rfl⟩
    | done m₂ => exact ⟨_, rfl⟩
    | go m₂ w =>
      obtain ⟨hk₂, -, path', done', hv', hlt⟩ := (turn_spec ht hhook hk h hturn).2 m₂ w rfl
      exact ih hk₂ hv' (by omega)

end

/-! ## All hooks -/

structure Settled (m : Mem) (info : Info) (validHooks : ℕ) (hooks : List ℕ) (m' : Mem) : Prop where
  kept : Kept m info.size m'
  closed : ∀ e, IsEntry m info.size e → (comefrom m' e).testBit loopBit = false
  counters : ∀ e, IsEntry m info.size e → pcnt m' e = 0
  bits : ∀ e, IsEntry m info.size e → ∀ b, b ≠ loopBit → ((comefrom m' e).testBit b = true ↔
    b ∈ hooks ∧ validHooks.testBit b = true ∧ ReflTransGen (graph m).Edge (info.hookEntry b) e)
  order : ∀ b ∈ hooks, validHooks.testBit b = true →
    ∃ l, Sorted (graph m) l ∧ l.Nodup ∧ info.hookEntry b ∈ l ∧ ∀ e ∈ l, IsEntry m info.size e

variable {info : Info} {validHooks : ℕ} {hooks before : List ℕ}

theorem Settled.visit (ht : Table m info.size) (h : Settled m info validHooks before m')
    (hnew : hook ∉ before) (hhook : hook < numHooks)
    (hentry : IsEntry m info.size (info.hookEntry hook)) :
    Visit (graph m) (entries m info.size) 0 (info.hookEntry hook)
      (marksOf (setPcnt m' (info.hookEntry hook) (info.hookEntry hook)) hook) (info.hookEntry hook)
      [] [] := by
  have hback (u : ℕ) (hu : u ∈ entries m info.size) :
      (marksOf (setPcnt m' (info.hookEntry hook) (info.hookEntry hook)) hook).back u =
        if u = info.hookEntry hook then info.hookEntry hook else pcnt m' u :=
    pcnt_setPcnt_eq ht hentry (mem_entries.mp hu) (hentry.2.trans ht.size_lt)
  have hne : hook ≠ loopBit := Nat.ne_of_lt hhook
  refine Visit.init (mem_entries.mpr hentry) (fun u hu => ?_) (fun u hu => ?_) ?_ fun u hu hne => ?_
  · have hu := mem_entries.mp hu
    simp only [marksOf, comefrom_setPcnt_eq ht hentry hu]
    rw [Bool.eq_false_iff, Ne, h.bits u hu hook hne]
    exact fun hcon => hnew hcon.1
  · have hu := mem_entries.mp hu
    simp only [marksOf, comefrom_setPcnt_eq ht hentry hu]
    exact h.closed u hu
  · exact (hback _ (mem_entries.mpr hentry)).trans (if_pos rfl)
  · exact (hback u hu).trans ((if_neg hne).trans (h.counters u (mem_entries.mp hu)))

theorem Settled.step (h : Settled m info validHooks before m')
    (hvalid : validHooks.testBit hook = true) (hk : Kept m info.size m₁)
    (hbits : OtherBits m info.size hook m' m₁)
    (hf : Finished (graph m) (entries m info.size) 0 (info.hookEntry hook) (marksOf m₁ hook)) :
    Settled m info validHooks (hook :: before) m₁ := by
  refine ⟨hk, fun e he => hf.opened e (mem_entries.mpr he), fun e he => hf.back e (mem_entries.mpr he),
    fun e he b hb => ?_, fun b hb hv => ?_⟩
  · rcases eq_or_ne b hook with rfl | hne
    · have hseen : (comefrom m₁ e).testBit b = true ↔ _ := hf.seen e (mem_entries.mpr he)
      rw [hseen]
      exact ⟨fun hr => ⟨mem_cons_self .., hvalid, hr⟩, fun hr => hr.2.2⟩
    · rw [hbits e he b hne hb, h.bits e he b hb, mem_cons, or_iff_right hne]
  · rcases mem_cons.mp hb with rfl | hb
    · obtain ⟨l, hsort, hnd, hstart, hmem⟩ := hf.order
      exact ⟨l, hsort, hnd, hstart, fun e he => mem_entries.mp (hmem e he)⟩
    · exact h.order b hb hv

theorem Settled.skip (h : Settled m info validHooks before m')
    (hvalid : ¬ validHooks.testBit hook = true) :
    Settled m info validHooks (hook :: before) m' := by
  refine ⟨h.kept, h.closed, h.counters, fun e he b hb => ?_, fun b hb hv => ?_⟩
  · rw [h.bits e he b hb, mem_cons]
    refine and_congr_left fun hr => (or_iff_right ?_).symm
    rintro rfl
    exact hvalid hr.1
  · rcases mem_cons.mp hb with rfl | hb
    · exact absurd hv hvalid
    · exact h.order b hb hv

theorem markHooks_spec (fuel : ℕ) (ht : Table m info.size)
    (hentry : ∀ h ∈ hooks, validHooks.testBit h = true → IsEntry m info.size (info.hookEntry h))
    (hlt : ∀ h ∈ hooks, h < numHooks) (hnd : hooks.Nodup) (hnew : ∀ h ∈ hooks, h ∉ before)
    (h : Settled m info validHooks before m') :
    (∀ m₁, markHooks info validHooks fuel hooks m' = some (some m₁) →
      Settled m info validHooks (hooks.reverse ++ before) m₁) ∧
    (3 * info.size + 1 < fuel → ∃ r, markHooks info validHooks fuel hooks m' = some r) := by
  induction hooks generalizing m' before with
  | nil =>
    refine ⟨fun m₁ hm => ?_, fun _ => ⟨_, rfl⟩⟩
    cases hm
    exact h
  | cons hook hooks ih =>
    obtain ⟨hmem, hnd'⟩ := nodup_cons.mp hnd
    have hself := mem_cons_self (a := hook) (l := hooks)
    have hrest {h' : ℕ} (hh : h' ∈ hooks) : h' ∈ hook :: hooks := mem_cons_of_mem _ hh
    have hnew' (h' : ℕ) (hh : h' ∈ hooks) : h' ∉ hook :: before := by
      rw [mem_cons, not_or]
      exact ⟨fun heq => hmem (heq ▸ hh), hnew h' (hrest hh)⟩
    have hlast : (hook :: hooks).reverse ++ before = hooks.reverse ++ hook :: before := by simp
    rw [hlast]
    have hgo {m₂ : Mem} (hs : Settled m info validHooks (hook :: before) m₂) :=
      ih (fun h' hh => hentry h' (hrest hh)) (fun h' hh => hlt h' (hrest hh)) hnd' hnew' hs
    rw [markHooks]
    split_ifs with hvalid
    · dsimp only
      have he := hentry hook hself hvalid
      have hk := h.kept.setPcnt (v := info.hookEntry hook) he
      have hvisit := h.visit ht (hnew hook hself) (hlt hook hself) he
      cases hw : walkHook info.size hook fuel (setPcnt m' (info.hookEntry hook) (info.hookEntry hook))
          (info.hookEntry hook) with
      | none =>
        refine ⟨(fun _ heq => by cases heq), fun hfuel => ?_⟩
        have hcard : (entries m info.size).card ≤ info.size := card_entries_le
        have hleft : info.size + 1 + visitsLeft (graph m) (entries m info.size)
            (info.hookEntry hook) [] [] < fuel := by
          simp only [visitsLeft, pending, length_nil]
          omega
        simpa [hw] using walkHook_total ht (hlt hook hself) hk hvisit hleft
      | some r =>
        cases r with
        | none => exact ⟨(fun _ heq => by cases heq), fun _ => ⟨_, rfl⟩⟩
        | some m₂ =>
          obtain ⟨hk₂, hbits, hf⟩ := walkHook_spec ht (hlt hook hself) hk hvisit hw
          exact hgo (h.step hvalid hk₂ ((sameBits_setPcnt ht he).other.trans hbits) hf)
    · exact hgo (h.skip hvalid)

/-! ## The marks of a table -/

theorem WellFormed.table (h : WellFormed m size) (hsize : size < 2 ^ 32) : Table m size := by
  have hentry (e : ℕ) (he : IsEntry m size e) :
      112 ≤ targetOffset m e ∧ targetOffset m e + 32 ≤ nextOffset m e := by
    have hok := h.entries e he
    have hmin := hok.target_min
    have hend := hok.target_end
    rw [sizeofRecord] at hmin
    exact ⟨hok.target_start, by omega⟩
  refine ⟨⟨h.tiles, fun e hb hlt => ?_⟩, hsize, hentry⟩
  have := hentry e ⟨hb, hlt⟩
  omega

theorem Settled.init (hk : Kept m info.size m')
    (h : ∀ e, IsEntry m info.size e → comefrom m' e = 0 ∧ pcnt m' e = 0) :
    Settled m info validHooks [] m' where
  kept := hk
  closed := fun e he => by rw [(h e he).1, Nat.zero_testBit]
  counters := fun e he => (h e he).2
  bits := fun e he b _ => by simp [(h e he).1]
  order := fun _ hb => by cases hb

/-- The walk ends; if it returns 1, the marks are the rules reached, without a loop. -/
theorem markSourceChains_exact (hwf : WellFormed m info.size) (hsize : info.size < 2 ^ 32)
    (hhooks : ∀ h < numHooks, validHooks.testBit h = true → IsEntry m info.size (info.hookEntry h))
    (hclean : ∀ e, IsEntry m info.size e → comefrom m e = 0 ∧ pcnt m e = 0) :
    (∀ fuel, 3 * info.size + 1 < fuel → ∃ r, markSourceChains info validHooks fuel m = some r) ∧
    ∀ fuel m', markSourceChains info validHooks fuel m = some (some m') →
      (∀ h < numHooks, validHooks.testBit h = true → ∀ e,
        ReflTransGen (graph m).Edge (info.hookEntry h) e →
          IsEntry m info.size e ∧ ¬ TransGen (graph m).Edge e e) ∧
      ∀ e, IsEntry m info.size e → (comefrom m' e).testBit loopBit = false ∧ pcnt m' e = 0 ∧
        ∀ h < numHooks, ((comefrom m' e).testBit h = true ↔
          validHooks.testBit h = true ∧ ReflTransGen (graph m).Edge (info.hookEntry h) e) := by
  have hspec (fuel : ℕ) := markHooks_spec fuel (hwf.table hsize)
    (fun h hh => hhooks h (mem_range.mp hh)) (fun h hh => mem_range.mp hh)
    nodup_range (fun _ _ => not_mem_nil) (Settled.init .refl hclean)
  refine ⟨fun fuel hfuel => (hspec fuel).2 hfuel, fun fuel m' hm => ?_⟩
  have hs := (hspec fuel).1 m' hm
  have hmem {h : ℕ} (hh : h < numHooks) : h ∈ (List.range numHooks).reverse ++ [] := by simpa using hh
  refine ⟨fun h hh hv e hr => ?_, fun e he => ⟨hs.closed e he, hs.counters e he, fun h hh => ?_⟩⟩
  · obtain ⟨l, hsort, hnd, hstart, hl⟩ := hs.order h (hmem hh) hv
    have he := hsort.closed_star hstart hr
    exact ⟨hl e he, hsort.acyclic hnd he⟩
  · rw [hs.bits e he h (Nat.ne_of_lt hh)]
    exact ⟨fun hb => hb.2, fun hb => ⟨hmem hh, hb⟩⟩

theorem start_icmpTable : Iptables.start icmpTable 1 = 192 ∧ Iptables.start icmpTable 2 = 344 := by
  have hfirst : Iptables.start icmpTable 1 = 0 + 192 := start_succ_of_eq rfl (by decide +kernel)
  exact ⟨hfirst, start_succ_of_eq (n := 152) hfirst (by decide +kernel)⟩

theorem isEntry_icmpTable (h : IsEntry icmpTable 344 e) : e = 0 ∨ e = 192 := by
  obtain ⟨i, hi, rfl⟩ := h.exists_start start_icmpTable.2.ge
  cases i with
  | zero => exact .inl rfl
  | succ i =>
    obtain rfl : i = 0 := by omega
    exact .inr start_icmpTable.1

theorem wellFormed_icmpTable : WellFormed icmpTable 344 := by
  refine ⟨⟨2, start_icmpTable.2⟩, fun e he => ?_⟩
  have hmatch : recordSize icmpTable 112 = 40 := by decide +kernel
  have hfirst : getTarget icmpTable 0 = 112 + recordSize icmpTable 112 := by decide +kernel
  have hlast : getTarget icmpTable 192 = 304 := by decide +kernel
  rcases isEntry_icmpTable he with rfl | rfl
  · refine ⟨by decide +kernel, ?_, by decide +kernel, by decide +kernel⟩
    rw [hfirst]
    exact .next (show 32 ≤ recordSize icmpTable 112 by rw [hmatch]; decide) (.refl _)
  · refine ⟨by decide +kernel, ?_, by decide +kernel, by decide +kernel⟩
    rw [hlast]
    exact .refl 304

def icmpInfo : Info := ⟨344, 2, 0, fun _ => 0, fun _ => 192⟩

theorem markSourceChains_icmpTable :
    ((markSourceChains icmpInfo 14 1034 icmpTable).bind id).isSome = true ∧
    (∀ fuel, 3 * icmpInfo.size + 1 < fuel → ∃ r, markSourceChains icmpInfo 14 fuel icmpTable = some r) ∧
    ∀ fuel m', markSourceChains icmpInfo 14 fuel icmpTable = some (some m') →
      (∀ h < numHooks, (14 : ℕ).testBit h = true → ∀ e,
        ReflTransGen (graph icmpTable).Edge (icmpInfo.hookEntry h) e →
          IsEntry icmpTable icmpInfo.size e ∧ ¬ TransGen (graph icmpTable).Edge e e) ∧
      ∀ e, IsEntry icmpTable icmpInfo.size e →
        (comefrom m' e).testBit loopBit = false ∧ pcnt m' e = 0 ∧
        ∀ h < numHooks, ((comefrom m' e).testBit h = true ↔ (14 : ℕ).testBit h = true ∧
          ReflTransGen (graph icmpTable).Edge (icmpInfo.hookEntry h) e) := by
  refine ⟨by decide +kernel, markSourceChains_exact wellFormed_icmpTable (by decide)
    (fun _ _ _ => ⟨.zero, show 0 < 344 by decide⟩) fun e he => ?_⟩
  rcases isEntry_icmpTable he with rfl | rfl
  · decide +kernel
  · decide +kernel

end Cupcake.Iptables
