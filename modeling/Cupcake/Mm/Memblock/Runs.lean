import Cupcake.Mm.Memblock.Doubling

/-! Whole calls, and runs of them. -/

namespace Cupcake.Mm.Memblock

open Segment

variable {nodeMap : Bool} {w : Which} {st st' : State} {base size s z need d fuel : ℕ}
  {rs : List Region} {f : Option Attr → Option Attr}

/-! ## Making room -/

structure Clear (nodeMap : Bool) (s z : ℕ) (st : State) : Prop where
  ne : s ≠ 0
  outside : ∀ x, s ≤ x → x < s + z → ¬ InArray nodeMap st.reserved x

/-- How the loop that makes room for `need` regions gives up: the array is too small, and it is
doubled until a doubling fails. -/
inductive NoRoom (nodeMap : Bool) (w : Which) (need s z : ℕ) : State → State → Prop
  | fails {st st' : State} (full : (st.get w).max < (st.get w).regions.length + need)
    (none : NoMemory nodeMap w s z st) (memory : st'.memory = st.memory)
    (reserved : st'.reserved = st.reserved) : NoRoom nodeMap w need s z st st'
  | doubled {st st₁ st' : State} (full : (st.get w).max < (st.get w).regions.length + need)
    (double : doubling nodeMap w s z st = .ok (st₁, true))
    (next : NoRoom nodeMap w need s z st₁ st') : NoRoom nodeMap w need s z st st'

theorem NoRoom.full (h : NoRoom nodeMap w need s z st st') :
    (st.get w).max < (st.get w).regions.length + need := by
  cases h <;> assumption

structure Grown (nodeMap : Bool) (w : Which) (need s z : ℕ) (st st' : State) (ok : Bool) :
    Prop where
  inv : Inv nodeMap st'
  moved : Moved nodeMap w st st'
  clear : w = .reserved → Clear nodeMap s z st'
  room : ok = true → (st'.get w).regions.length + need ≤ (st'.get w).max
  tidy : Tidy (st.get w).regions → Tidy (st'.get w).regions
  short : ok = false → NoRoom nodeMap w need s z st st'

theorem Grown.refl (hI : Inv nodeMap st) (hclear : w = .reserved → Clear nodeMap s z st)
    (hroom : (st.get w).regions.length + need ≤ (st.get w).max) :
    Grown nodeMap w need s z st st true :=
  ⟨hI, .of_eq rfl rfl, hclear, fun _ => hroom, id, by simp⟩

theorem growLoop_spec (hI : Inv nodeMap st) (hclear : w = .reserved → Clear nodeMap s z st)
    (hd : d ≤ fuel) (hpow : (st.get w).regions.length + need + 2 * d ≤ 2 ^ d * (st.get w).max)
    (hmem : w = .memory → st.reserved.regions.length + 2 * d ≤ st.reserved.max)
    (hneed : need ≤ (st.get w).regions.length + 1 ∨ 2 * need ≤ (st.get w).max + 2) :
    ∃ st' ok, growLoop (doubling nodeMap) w need s z fuel st = .ok (st', ok) ∧
      Grown nodeMap w need s z st st' ok ∧ (st.Balanced → st'.Balanced) := by
  induction d generalizing st fuel with
  | zero =>
    have hroom : (st.get w).regions.length + need ≤ (st.get w).max := by omega
    exact ⟨st, true, growLoop_of_le hroom, .refl hI hclear hroom, id⟩
  | succ d ih =>
    by_cases hroom : (st.get w).regions.length + need ≤ (st.get w).max
    · exact ⟨st, true, growLoop_of_le hroom, .refl hI hclear hroom, id⟩
    · obtain ⟨fuel, rfl⟩ : ∃ n, fuel = n + 1 := ⟨fuel - 1, by omega⟩
      rw [growLoop, if_pos (not_le.mp hroom)]
      obtain ⟨st₁, ok₁, heq₁, hdone, hfail⟩ := memblockDoubleArray_spec (w := w) hI
        (fun hw => by have := hmem hw; omega) 2 s z
      rw [doubling, heq₁, ok_bind]
      have hlarge : 128 ≤ (st.get w).max := hI.large w
      have hlen := hI.room w
      cases ok₁ with
      | false =>
        obtain ⟨hnone, hm, hr⟩ := hfail rfl
        exact ⟨st₁, false, rfl, ⟨hI.congr hm hr, .of_eq hm hr,
          fun hw => ⟨(hclear hw).ne, hr ▸ (hclear hw).outside⟩, by simp,
          fun ht => State.get_congr hm hr w ▸ ht, fun _ => .fails (not_le.mp hroom) hnone hm hr⟩,
          fun hbal => hbal.congr hm hr⟩
      | true =>
        obtain ⟨hdbl, hbal₁⟩ := hdone rfl
        have htidy : Tidy (st.get w).regions → Tidy (st₁.get w).regions := fun ht => by
          cases w with
          | memory => exact hdbl.moved.memory ▸ ht
          | reserved => exact hdbl.tidy ht (by have := hneed; simp only [State.get] at *; omega)
        have hlen₁ : (st₁.get w).regions.length ≤ (st.get w).regions.length + 2 := by
          cases w with
          | memory => exact (congrArg List.length hdbl.moved.memory).le.trans (Nat.le_add_right ..)
          | reserved => exact hdbl.length
        have hmax := hdbl.max
        obtain ⟨st₂, ok₂, heq₂, hg, hbal₂⟩ := ih hdbl.inv
          (fun hw => ⟨(hclear hw).ne, hdbl.avoids hw (hclear hw).ne⟩) (by omega : d ≤ fuel)
          (by rw [hmax, ← mul_assoc, ← pow_succ]; omega)
          (fun hw => by
            have h₁ := hmem hw
            have h₂ := hdbl.length
            subst hw
            have h₃ := (hdbl.moved.other .reserved (by simp)).1
            simp only [State.get] at h₃
            omega)
          (by omega)
        exact ⟨st₂, ok₂, heq₂, ⟨hg.inv, hdbl.moved.trans hg.moved, hg.clear, hg.room,
          fun ht => hg.tidy (htidy ht), fun hok => .doubled (not_le.mp hroom) heq₁ (hg.short hok)⟩,
          fun hbal => hbal₂ (hbal₁ hbal)⟩

/-! ## One call -/

/-- The effect of a call on the array of `w`: `f` inside the range. Outside of it only the
arrays' own memory may change, in `reserved`, when the array was moved. -/
structure Effect (nodeMap : Bool) (w : Which) (base size : ℕ) (f : Option Attr → Option Attr)
    (st st' : State) : Prop where
  inside : ∀ x, base ≤ x → x < rangeEnd base size →
    lookup (st'.get w).regions x = f (lookup (st.get w).regions x)
  memory : ∀ x, ¬(w = .memory ∧ base ≤ x ∧ x < rangeEnd base size) →
    lookup st'.memory.regions x = lookup st.memory.regions x
  reserved : ∀ x, ¬(w = .reserved ∧ base ≤ x ∧ x < rangeEnd base size) →
    lookup st'.reserved.regions x = lookup st.reserved.regions x ∨
      (st'.get w).max ≠ (st.get w).max ∧
        (InArray nodeMap (st.get w) x ∨ InArray nodeMap (st'.get w) x)

theorem Moved.reserved (h : Moved nodeMap w st st') (x : ℕ) :
    lookup st'.reserved.regions x = lookup st.reserved.regions x ∨
      (st'.get w).max ≠ (st.get w).max ∧
        (InArray nodeMap (st.get w) x ∨ InArray nodeMap (st'.get w) x) := by
  by_cases hm : (st'.get w).max = (st.get w).max
  · exact .inl (by rw [(h.same hm).2])
  · by_cases hx : InArray nodeMap (st.get w) x ∨ InArray nodeMap (st'.get w) x
    · exact .inr ⟨hm, hx⟩
    · push Not at hx
      exact .inl (h.kept x hx.1 hx.2)

section

variable {ok : Bool} (hg : Grown nodeMap w need base (capSize base size) st st' ok)
  (hclear : w = .reserved → Clear nodeMap base (capSize base size) st)

include hg hclear

theorem Grown.inside {x : ℕ} (h₁ : base ≤ x) (h₂ : x < rangeEnd base size) :
    lookup (st'.get w).regions x = lookup (st.get w).regions x := by
  cases w with
  | memory => exact congrArg (lookup · x) hg.moved.memory
  | reserved =>
    exact hg.moved.kept x ((hclear rfl).outside x h₁ h₂) ((hg.clear rfl).outside x h₁ h₂)

theorem Grown.unchanged :
    Effect nodeMap w base size id st st' :=
  ⟨fun _ h₁ h₂ => hg.inside hclear h₁ h₂, fun x _ => congrArg (lookup · x) hg.moved.memory,
    fun x _ => hg.moved.reserved x⟩

end

theorem inArray_set {v : Which} {x sum : ℕ} {b : Bool} :
    InArray nodeMap ((st.set w { st.get w with
      regions := rs, totalSize := sum, warned := b }).get v) x ↔ InArray nodeMap (st.get v) x := by
  cases v <;> cases w <;> exact Iff.rfl

theorem Effect.set {sum : ℕ} {b : Bool} (h : Effect nodeMap w base size id st st')
    (hrs : ∀ x, lookup rs x = if base ≤ x ∧ x < rangeEnd base size then
      f (lookup (st'.get w).regions x) else lookup (st'.get w).regions x) :
    Effect nodeMap w base size f st
      (st'.set w { st'.get w with regions := rs, totalSize := sum, warned := b }) := by
  refine ⟨fun x h₁ h₂ => ?_, fun x hx => ?_, fun x hx => ?_⟩
  · rw [State.get_set_self]
    show lookup rs x = _
    rw [hrs, if_pos ⟨h₁, h₂⟩, h.inside x h₁ h₂]
    rfl
  · rw [← h.memory x hx]
    cases w with
    | memory =>
      show lookup rs x = _
      rw [hrs, if_neg fun hc => hx ⟨rfl, hc⟩]
      rfl
    | reserved => rfl
  · rw [State.get_set_self]
    have := h.reserved x hx
    cases w with
    | memory => exact this
    | reserved =>
      show lookup rs x = _ ∨ _
      rw [hrs, if_neg fun hc => hx ⟨rfl, hc⟩]
      exact this

theorem State.Balanced.set {sum : ℕ} {b : Bool} (h : st.Balanced)
    (hsum : (st.get w).Balanced → sum = total rs ∧ b = false) :
    (st.set w { st.get w with regions := rs, totalSize := sum, warned := b }).Balanced := by
  intro v
  have hv := h v
  have hw := hsum (h w)
  cases v <;> cases w <;> first | exact hw | exact hv

theorem Inv.set {sum : ℕ} {b : Bool} (hI : Inv nodeMap st) (hok : RegionsOk rs)
    (hroom : rs.length ≤ (st.get w).max)
    (hlive : w = .reserved → ∀ v x, InArray nodeMap (st.get v) x →
      lookup rs x = lookup st.reserved.regions x) :
    Inv nodeMap (st.set w { st.get w with regions := rs, totalSize := sum, warned := b }) := by
  refine ⟨fun v => ?_, fun v => ?_, fun v => ?_, fun v x hx => ?_, fun x hm hr => ?_,
    fun v a n hv => ?_⟩
  · have h := hI.regions v
    cases v <;> cases w <;> first | exact hok | exact h
  · have h := hI.room v
    cases v <;> cases w <;> first | exact hroom | exact h
  · have h := hI.large v
    cases v <;> cases w <;> exact h
  · have hx' : InArray nodeMap (st.get v) x := inArray_set.mp hx
    rw [← hI.live v x hx']
    cases w with
    | memory => rfl
    | reserved => exact hlive rfl v x hx'
  · exact hI.disjoint x ((inArray_set (v := .memory)).mp hm) ((inArray_set (v := .reserved)).mp hr)
  · refine hI.bounded v a n ?_
    cases v <;> cases w <;> exact hv

structure Guarded (nodeMap : Bool) (w : Which) (base size : ℕ) (st : State) : Prop where
  clear : w = .reserved → Clear nodeMap base (capSize base size) st
  room : w = .memory → st.reserved.regions.length + 4 ≤ st.reserved.max

theorem Guarded.grow (h : Guarded nodeMap w base size st) (hI : Inv nodeMap st)
    (hneed : need ≤ (st.get w).regions.length + 1 ∨ 2 * need ≤ (st.get w).max + 2) :
    ∃ st' ok, growLoop (doubling nodeMap) w need base (capSize base size) 64 st = .ok (st', ok) ∧
      Grown nodeMap w need base (capSize base size) st st' ok ∧ (st.Balanced → st'.Balanced) := by
  have hlarge : 128 ≤ (st.get w).max := hI.large w
  have hlen := hI.room w
  exact growLoop_spec hI h.clear (by decide : 2 ≤ 64) (by omega) h.room hneed

/-- A call that needs up to `need` more entries succeeds, or its array has no room for them and
cannot be doubled. -/
def Outcome (nodeMap : Bool) (w : Which) (base size need : ℕ) (f : Option Attr → Option Attr)
    (st st' : State) (ret : Int) : Prop :=
  (ret = 0 ∧ Effect nodeMap w base size f st st') ∨
    (ret = -12 ∧ NoRoom nodeMap w need base (capSize base size) st st' ∧
      Effect nodeMap w base size id st st')

theorem Grown.noRoom {base size : ℕ} (hg : Grown nodeMap w need base (capSize base size) st st' false)
    (hclear : w = .reserved → Clear nodeMap base (capSize base size) st) :
    Outcome nodeMap w base size need f st st' (-12) :=
  .inr ⟨rfl, hg.short rfl, hg.unchanged hclear⟩

theorem Effect.refl (hs : capSize base size = 0) : Effect nodeMap w base size f st st :=
  ⟨fun x h₁ h₂ => absurd h₂ (by unfold rangeEnd; omega), fun _ _ => rfl, fun _ _ => .inl rfl⟩

theorem Effect.id : Effect nodeMap w base size id st st :=
  ⟨fun _ _ _ => rfl, fun _ _ => rfl, fun _ _ => .inl rfl⟩

theorem memblockAddRange_spec (hI : Inv nodeMap st) (hg : Guarded nodeMap w base size st)
    (hb : base ≤ ullongMax) (nid flags : ℕ) :
    ∃ st' ret, memblockAddRange nodeMap (doubling nodeMap) w base size nid flags st =
        .ok (st', ret) ∧ Inv nodeMap st' ∧
      Outcome nodeMap w base size (gaps (rangeEnd base size) base (st.get w).regions)
        (·.or (some ⟨regionNode nodeMap nid, flags⟩)) st st' ret ∧
      (st.Balanced → st'.Balanced) := by
  -- the memory of an array is present, and stays as it is
  have hlive : ∀ {st₁ : State} {rs : List Region}, Inv nodeMap st₁ →
      Added ⟨regionNode nodeMap nid, flags⟩ base size (st₁.get w).regions rs →
      w = .reserved → ∀ v x, InArray nodeMap (st₁.get v) x →
        lookup rs x = lookup st₁.reserved.regions x := by
    intro st₁ rs hI₁ hadd hw v x hx
    subst hw
    rw [hadd.lookup, show (st₁.get .reserved) = st₁.reserved from rfl, hI₁.live v x hx]
    split_ifs <;> rfl
  by_cases hs : capSize base size = 0
  · exact ⟨st, 0, memblockAddRange_zero _ hs, hI, .inl ⟨rfl, .refl hs⟩, id⟩
  rcases hI.regions w with hd | ht
  · have hlarge : 128 ≤ (st.get w).max := hI.large w
    obtain ⟨rs, sum, heq, hsum, hlen, hadd⟩ := memblockAddRange_room nodeMap (doubling nodeMap) size nid
      flags hb (hI.regions w) fun _ ht => absurd hd ht.not_dummy
    have hgaps := gaps_le (rangeEnd base size) base (st.get w).regions
    rw [hd.length] at hlen hgaps
    exact ⟨_, 0, heq, hI.set hadd.ok (by omega) (hlive hI hadd),
      .inl ⟨rfl, Effect.id.set hadd.lookup⟩, fun hbal => hbal.set fun h => ⟨hsum h, h.2⟩⟩
  · obtain ⟨st₁, ok, heq, hgrown, hbal⟩ := hg.grow hI (.inl (gaps_le (rangeEnd base size) base _))
    cases ok with
    | false =>
      refine ⟨st₁, -12, ?_, hgrown.inv, hgrown.noRoom hg.clear, hbal⟩
      rw [memblockAddRange_grow _ hs ht, heq]
      rfl
    | true =>
      have ht₁ := hgrown.tidy ht
      -- moving the array has not changed what was counted
      have hgaps : gaps (rangeEnd base size) base (st₁.get w).regions =
          gaps (rangeEnd base size) base (st.get w).regions :=
        gaps_congr ht₁.wf ht.wf (Nat.le_add_right ..) fun x h₁ h₂ => hgrown.inside hg.clear h₁ h₂
      have hroom := hgrown.room rfl
      rw [← hgaps] at hroom
      obtain ⟨rs, sum, heq', hsum, hlen, -, hadd⟩ :=
        memblockAddRange_of_grow nodeMap nid flags hs hb ht heq ht₁ hroom
      exact ⟨_, 0, heq', hgrown.inv.set hadd.ok (hlen.trans hroom) (hlive hgrown.inv hadd),
        .inl ⟨rfl, (hgrown.unchanged hg.clear).set hadd.lookup⟩,
        fun h => (hbal h).set fun h => ⟨hsum h, h.2⟩⟩

def AvoidsArrays (nodeMap : Bool) (base size : ℕ) (st : State) : Prop :=
  ∀ w x, base ≤ x → x < rangeEnd base size → ¬ InArray nodeMap (st.get w) x

theorem isolate_grow (hI : Inv nodeMap st) (hg : Guarded nodeMap w base size st) :
    ∃ st' ok, growLoop (doubling nodeMap) w 2 base (capSize base size) 64 st = .ok (st', ok) ∧
      Grown nodeMap w 2 base (capSize base size) st st' ok ∧ (st.Balanced → st'.Balanced) := by
  have hlarge : 128 ≤ (st.get w).max := hI.large w
  exact hg.grow hI (.inr (by omega))

theorem memblockIsolateRange_fail (hs : capSize base size ≠ 0)
    (heq : growLoop (doubling nodeMap) w 2 base (capSize base size) 64 st = .ok (st', false)) :
    memblockIsolateRange (doubling nodeMap) w base size st = .ok (st', none) := by
  rw [memblockIsolateRange]
  rw [if_neg hs, heq]
  rfl

theorem memblockRemoveRange_spec (hI : Inv nodeMap st) (hg : Guarded nodeMap w base size st)
    (ha : w = .reserved → AvoidsArrays nodeMap base size st) :
    ∃ st' ret, memblockRemoveRange nodeMap (doubling nodeMap) w base size st = .ok (st', ret) ∧
      Inv nodeMap st' ∧ Outcome nodeMap w base size 2 (fun _ => none) st st' ret ∧
      (st.Balanced → st'.Balanced) := by
  by_cases hs : capSize base size = 0
  · exact ⟨st, 0, memblockRemoveRange_zero _ hs, hI, .inl ⟨rfl, .refl hs⟩, id⟩
  obtain ⟨st₁, ok, heq, hgrown, hbal⟩ := isolate_grow hI hg
  cases ok with
  | false =>
    refine ⟨st₁, -12, ?_, hgrown.inv, hgrown.noRoom hg.clear, hbal⟩
    rw [memblockRemoveRange, memblockIsolateRange_fail hs heq]
    rfl
  | true =>
    have hroom := hgrown.room rfl
    obtain ⟨rs, sum, b, heq', hsum, hrem⟩ :=
      memblockRemoveRange_of_grow nodeMap hs heq (hgrown.inv.regions w) hroom
    refine ⟨_, 0, heq', hgrown.inv.set hrem.ok (hrem.length_le.trans (by omega)) ?_,
      .inl ⟨rfl, (hgrown.unchanged hg.clear).set hrem.lookup⟩, fun h => (hbal h).set hsum⟩
    -- neither array lies in the range, wherever they are now
    intro hw v x hx
    subst hw
    rw [hrem.lookup, if_neg]
    · rfl
    · rintro ⟨h₁, h₂⟩
      cases v with
      | memory =>
        have hother := hgrown.moved.other .memory (by simp)
        exact ha rfl .memory x h₁ h₂ ((inArray_congr hother.1 hother.2).mp hx)
      | reserved => exact (hgrown.clear rfl).outside x h₁ h₂ hx

theorem memblockSetclrFlag_spec (hI : Inv nodeMap st) (hg : Guarded nodeMap .memory base size st)
    (set : Bool) (flag : ℕ) :
    ∃ st' ret, memblockSetclrFlag nodeMap base size set flag st = .ok (st', ret) ∧
      Inv nodeMap st' ∧
      Outcome nodeMap .memory base size 2 (Option.map (setclr set flag)) st st' ret ∧
      (st.Balanced → st'.Balanced) := by
  by_cases hs : capSize base size = 0
  · obtain ⟨rs, heq, hok, hlen, hsum, hlook⟩ := (hI.regions .memory).merge
    refine ⟨st.set .memory { st.memory with regions := rs }, 0, ?_,
      hI.set hok (hlen.trans (hI.room .memory)) (by simp), .inl ⟨rfl, Effect.id.set fun x => ?_⟩,
      fun hbal => hbal.set fun hb => ⟨hb.1.trans hsum.symm, hb.2⟩⟩
    · rw [memblockSetclrFlag, memblockIsolateRange]
      rw [if_pos hs, ok_bind]
      simp only [Nat.not_lt_zero, and_false, if_false]
      rw [show st.memory.regions.mapIdx (fun _ r => r) = st.memory.regions from
        List.ext_getElem (by simp) (by simp),
        show memblockMergeRegions st.memory.regions = .ok rs from heq]
      rfl
    · rw [hlook, if_neg (by unfold rangeEnd; omega)]
  obtain ⟨st₁, ok, heq, hgrown, hbal⟩ := isolate_grow hI hg
  cases ok with
  | false =>
    refine ⟨st₁, -12, ?_, hgrown.inv, hgrown.noRoom hg.clear, hbal⟩
    rw [memblockSetclrFlag, memblockIsolateRange_fail hs heq]
    rfl
  | true =>
    have hroom := hgrown.room rfl
    obtain ⟨pre, mid, post, se, heq', hiso⟩ :=
      memblockIsolateRange_of_grow hs heq (hgrown.inv.regions .memory) hroom
    obtain ⟨rs, hmerge, hsum, hflag⟩ := hiso.flagged set flag hs
    refine ⟨st₁.set .memory { st₁.memory with regions := rs }, 0, ?_,
      hgrown.inv.set hflag.ok (hflag.length_le.trans hroom) (by simp),
      .inl ⟨rfl, (hgrown.unchanged hg.clear).set hflag.lookup⟩,
      fun h => (hbal h).set fun hb => ⟨hb.1.trans hsum.symm, hb.2⟩⟩
    rw [memblockSetclrFlag, heq', ok_bind]
    show (do
      let rs ← memblockMergeRegions ((pre ++ (mid ++ post)).mapIdx _)
      _) = _
    rw [hmerge]
    rfl

/-! ## Runs -/

def avoids (nodeMap : Bool) (base size : ℕ) (t : RegionType) : Bool :=
  !(t.area nodeMap).any fun (a, n) => overlaps base (capSize base size) a n

/-- A call on `memory` finds four free entries in `reserved`, a reserved range does not touch the
memory of its own array, and a freed range that of neither array. -/
def Safe (nodeMap : Bool) (st : State) (c : Call) : Prop :=
  match c.op with
  | .add .. | .remove .. | .setclrFlag .. => st.reserved.regions.length + 4 ≤ st.reserved.max
  | .reserve base size _ _ => base.val ≠ 0 ∧ avoids nodeMap base size st.reserved
  | .free base size => base.val ≠ 0 ∧ avoids nodeMap base size st.reserved ∧
      avoids nodeMap base size st.memory
  | _ => True

instance (st : State) (c : Call) : Decidable (Safe nodeMap st c) := by
  unfold Safe
  split <;> infer_instance

/-- Each array is sorted, disjoint and minimal, or the empty dummy, and fits. -/
def ArraysOk (st : State) : Prop :=
  ∀ w, RegionsOk (st.get w).regions ∧ (st.get w).regions.length ≤ (st.get w).max

/-- What a call has to do to the two maps. To add a range takes an entry for each of its gaps. -/
def CallOk (nodeMap : Bool) (st st' : State) (ret : Int) : Op → Prop
  | .add base size nid flags =>
    Outcome nodeMap .memory base size (gaps (rangeEnd base size) base st.memory.regions)
      (·.or (some ⟨regionNode nodeMap nid, flags⟩)) st st' ret
  | .reserve base size nid flags =>
    Outcome nodeMap .reserved base size (gaps (rangeEnd base size) base st.reserved.regions)
      (·.or (some ⟨regionNode nodeMap nid, flags⟩)) st st' ret
  | .remove base size => Outcome nodeMap .memory base size 2 (fun _ => none) st st' ret
  | .free base size => Outcome nodeMap .reserved base size 2 (fun _ => none) st st' ret
  | .setclrFlag base size set flag =>
    Outcome nodeMap .memory base size 2 (Option.map (setclr set flag)) st st' ret
  | _ => st'.memory = st.memory ∧ st'.reserved = st.reserved

def word (n : ℕ) : Fin (2 ^ 64) := ⟨n % 2 ^ 64, Nat.mod_lt _ (Nat.two_pow_pos 64)⟩

def step (nodeMap : Bool) (st : State) (c : Call) : Option State :=
  (call nodeMap st c).toOption.map Prod.fst

theorem not_inArray_of_avoids {t : RegionType} (h : avoids nodeMap base size t = true) {x : ℕ}
    (h₁ : base ≤ x) (h₂ : x < rangeEnd base size) : ¬ InArray nodeMap t x := by
  rintro ⟨a, n, harea, h₃, h₄⟩
  simp only [avoids, harea, Option.any_some, overlaps, Bool.not_eq_true', decide_eq_false_iff_not] at h
  unfold rangeEnd at h₂
  omega

theorem guarded_memory (h : st.reserved.regions.length + 4 ≤ st.reserved.max) :
    Guarded nodeMap .memory base size st := ⟨by simp, fun _ => h⟩

theorem guarded_reserved (h₀ : base ≠ 0) (h : avoids nodeMap base size st.reserved = true) :
    Guarded nodeMap .reserved base size st :=
  ⟨fun _ => ⟨h₀, fun _ h₁ h₂ => not_inArray_of_avoids h h₁ h₂⟩, by simp⟩

theorem Inv.call (hI : Inv nodeMap st) {c : Call} (hc : Safe nodeMap st c) :
    ∃ st' ret, call nodeMap st c = .ok (st', ret) ∧ Inv nodeMap st' ∧
      CallOk nodeMap { st with answers := c.answers } st' ret c.op ∧
      (State.Balanced { st with answers := c.answers } → st'.Balanced) := by
  have hI' : Inv nodeMap { st with answers := c.answers } := hI.congr rfl rfl
  have hb : ∀ n : Fin (2 ^ 64), n.val ≤ ullongMax := fun n => Nat.le_pred_of_lt n.isLt
  obtain ⟨op, answers⟩ := c
  cases op with
  | add base size nid flags =>
    exact memblockAddRange_spec hI' (guarded_memory hc) (hb base) nid flags
  | reserve base size nid flags =>
    exact memblockAddRange_spec hI' (guarded_reserved hc.1 hc.2) (hb base) nid flags
  | remove base size => exact memblockRemoveRange_spec hI' (guarded_memory hc) (by simp)
  | free base size =>
    refine memblockRemoveRange_spec hI' (guarded_reserved hc.1 hc.2.1) fun _ w x h₁ h₂ => ?_
    cases w with
    | memory => exact not_inArray_of_avoids hc.2.2 h₁ h₂
    | reserved => exact not_inArray_of_avoids hc.2.1 h₁ h₂
  | setclrFlag base size set flag =>
    exact memblockSetclrFlag_spec hI' (guarded_memory hc) set flag
  | allowResize => exact ⟨_, 0, rfl, hI.congr rfl rfl, ⟨rfl, rfl⟩, fun h => h.congr rfl rfl⟩
  | slabUp => exact ⟨_, 0, rfl, hI.congr rfl rfl, ⟨rfl, rfl⟩, fun h => h.congr rfl rfl⟩
  | setCurrentLimit limit => exact ⟨_, 0, rfl, hI.congr rfl rfl, ⟨rfl, rfl⟩, fun h => h.congr rfl rfl⟩

theorem inv_init : Inv nodeMap init := by
  have hnot : ∀ w x, ¬ InArray nodeMap (init.get w) x := fun w x =>
    not_inArray fun a => by cases w <;> simp [init, State.get, emptyType]
  refine ⟨fun w => ?_, fun w => ?_, fun w => ?_, fun w x h => absurd h (hnot w x),
    fun x h => absurd h (hnot .memory x), fun w a n h => ?_⟩
  · cases w <;> exact .inl ⟨_, rfl⟩
  · cases w <;> decide
  · cases w <;> decide
  · cases w <;> cases h

/-- In a run of safe calls both arrays keep their shape, no `BUG_ON` fires, and every call
changes the two maps as it should. -/
theorem arraysOk_of_reach (nodeMap : Bool) (st : State)
    (h : Reach (step nodeMap) (Safe nodeMap) init st) :
    ArraysOk st ∧ ∀ c, Safe nodeMap st c → ∃ st' ret, call nodeMap st c = .ok (st', ret) ∧
      ArraysOk st' ∧ CallOk nodeMap { st with answers := c.answers } st' ret c.op := by
  have hI : Inv nodeMap st := by
    refine h.invariant inv_init fun s s' c hI hc hs => ?_
    obtain ⟨st', ret, heq, hI', -, -⟩ := hI.call hc
    rw [step, heq] at hs
    exact Option.some.inj hs ▸ hI'
  refine ⟨fun w => ⟨hI.regions w, hI.room w⟩, fun c hc => ?_⟩
  obtain ⟨st', ret, heq, hI', hok, -⟩ := hI.call hc
  exact ⟨st', ret, heq, fun w => ⟨hI'.regions w, hI'.room w⟩, hok⟩

def reservedPage : State :=
  { init with
    memory := { emptyType with regions := [⟨2 ^ 30, 2 ^ 20, ⟨0, 0⟩⟩], totalSize := 2 ^ 20 }
    reserved := { emptyType with regions := [⟨2 ^ 30 + 4096, 4096, ⟨0, 0⟩⟩], totalSize := 4096 } }

/-- The page is reserved in a run of safe calls; freeing it leaves no address of it reserved. -/
theorem arraysOk_reservedPage : ArraysOk reservedPage ∧
    ∃ st', call false reservedPage ⟨.free (word (2 ^ 30 + 4096)) (word 4096), []⟩ =
        .ok (st', 0) ∧ ArraysOk st' ∧
      ∀ x, 2 ^ 30 + 4096 ≤ x → x < 2 ^ 30 + 8192 → lookup st'.reserved.regions x = none := by
  obtain ⟨hok, hcall⟩ := arraysOk_of_reach false reservedPage (.of_runGuarded [
    ⟨.add (word (2 ^ 30)) (word (2 ^ 20)) 1 0, []⟩,
    ⟨.reserve (word (2 ^ 30 + 4096)) (word 4096) 1 0, []⟩] .init (by decide))
  obtain ⟨st', ret, heq, hok', ⟨rfl, heff⟩ | ⟨-, hnone, -⟩⟩ :=
    hcall ⟨.free (word (2 ^ 30 + 4096)) (word 4096), []⟩ (by decide)
  · exact ⟨hok, st', heq, hok', fun x h₁ h₂ => heff.inside x h₁ h₂⟩
  · exact absurd hnone.full (by decide)

/-! A reserved range around the array's own memory: freeing the old array makes one gap more than
was counted. -/

def memblockReserve (base size : ℕ) (answers : List ℕ) : Call :=
  ⟨.reserve (word base) (word size) maxNumnodes 0, answers⟩

/-- The array is doubled for the 129th page; then the pages next to the array are reserved. -/
def crowd : List Call :=
  [⟨.add (word (2 ^ 30)) (word (2 ^ 24)) maxNumnodes 0, []⟩, ⟨.allowResize, []⟩] ++
  (List.range 128).map (fun i => memblockReserve (8192 * (255 - i)) 4096 []) ++
  [memblockReserve (8192 * 127) 4096 [2 ^ 30 + 2 ^ 24 - 8192],
    memblockReserve (2 ^ 30 + 2 ^ 24 - 12288) 4096 [], memblockReserve (2 ^ 30 + 2 ^ 24) 4096 []] ++
  (List.range' 129 126).map (fun i => memblockReserve (8192 * (255 - i)) 4096 []) ++
  [⟨.add (word (2 ^ 31)) (word (2 ^ 24)) maxNumnodes 0, []⟩]

def coverCrowd : Call :=
  memblockReserve 16384 (2 ^ 30 + 2 ^ 24 + 4096 - 16384) [2 ^ 31 + 2 ^ 24 - 12288]

set_option maxRecDepth 4000 in
theorem coverCrowd_full :
    ((runList (step false) init crowd).map fun st => call false st coverCrowd) =
      some (.error .full) := by
  decide +kernel

end Cupcake.Mm.Memblock
