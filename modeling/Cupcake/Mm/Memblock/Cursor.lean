import Cupcake.Mm.Memblock.Iterate

/-! What one call of `__next_mem_range` or `__next_mem_range_rev` gives and where it leaves the
cursor, and what a whole iteration gives. -/

namespace Cupcake.Mm.Memblock

open List Segment Option

variable {q : Query} {a b : List Region} {m : Region} {i j n : ℕ}

/-! ## One call -/

theorem rEnd_of_getElem? (hm : b[j]? = some m) : rEnd b j = m.base := by
  rw [rEnd, hm]
  rfl

theorem rEnd_length : rEnd b b.length = ullongMax := by
  rw [rEnd, getElem?_eq_none le_rfl]
  rfl

theorem Ordered.le_base (h : Ordered a) (hm : a[i]? = some m) {r : Region}
    (hr : r ∈ a.drop (i + 1)) : rend m ≤ r.base := by
  obtain ⟨k, hk, rfl⟩ := mem_drop_iff_getElem.mp hr
  rw [h.rend_eq (mem_of_getElem? hm)]
  exact h.before hm (getElem?_eq_getElem _) (by omega)

theorem Ordered.rend_le (h : Ordered a) (hm : a[i]? = some m) {r : Region}
    (hr : r ∈ a.take i) : rend r ≤ m.base := by
  obtain ⟨k, hk, rfl⟩ := mem_take_iff_getElem.mp hr
  rw [h.rend_eq (getElem_mem _)]
  exact h.before (getElem?_eq_getElem _) hm (by omega)

theorem Ordered.base_le_rend (h : Ordered a) (hm : m ∈ a) : m.base ≤ rend m := by
  rw [h.rend_eq hm]
  exact Nat.le_add_right ..

theorem drop_of_getElem? (hm : a[i]? = some m) : a.drop i = m :: a.drop (i + 1) := by
  obtain ⟨hi, rfl⟩ := List.getElem?_eq_some_iff.mp hm
  exact drop_eq_getElem_cons hi

theorem reverse_take_of_getElem? (hm : a[i]? = some m) :
    (a.take (i + 1)).reverse = m :: (a.take i).reverse := by
  rw [take_add_one, hm]
  simp

theorem ahead_of_skips (hm : a[i]? = some m) (hs : skips q m = true) (j : ℕ) :
    ahead q a b i j = ahead q a b (i + 1) j := by
  unfold ahead
  rw [drop_of_getElem? hm, filter_cons_of_neg (by simp [hs])]

theorem ahead_of_length_le (hi : a.length ≤ i) (j : ℕ) : ahead q a b i j = [] := by
  unfold ahead
  rw [drop_eq_nil_of_le hi]
  rfl

theorem behind_zero_right (i : ℕ) : behind q a b i 0 = [] := by
  simp [behind, pairs]

theorem behind_of_skips (hm : a[i]? = some m) (hs : skips q m = true) (j : ℕ) :
    behind q a b (i + 1) j = behind q a b i j := by
  unfold behind
  rw [reverse_take_of_getElem? hm, filter_cons_of_neg (by simp [hs])]

section Forward

variable (ha : Ordered a) (hb : Ordered b) (hm : a[i]? = some m) (hs : skips q m = false)

include ha hm hs

theorem ahead_next_area (hj : j ≤ b.length) (h : rEnd b j ≤ m.base) :
    ahead q a b i j = ahead q a b i (j + 1) := by
  unfold ahead
  rw [drop_areas hj]
  apply pairs_drop
  intro r hr
  apply meet_of_stop_le
  rw [drop_of_getElem? hm] at hr
  obtain rfl | hr := mem_cons.mp (mem_of_mem_filter hr)
  · exact h
  · calc rEnd b j ≤ m.base := h
      _ ≤ rend m := ha.base_le_rend (mem_of_getElem? hm)
      _ ≤ r.base := ha.le_base hm hr

theorem ahead_found (hj : j ≤ b.length) (h : rStart b j < rend m) (h' : m.base < rEnd b j)
    (hend : rEnd b j < rend m) :
    ahead q a b i j = rangeIn b m j :: ahead q a b i (j + 1) := by
  unfold ahead
  rw [drop_areas hj, drop_of_getElem? hm, filter_cons_of_pos (by simp [hs])]
  apply pairs_next_column (meet_area h h')
  intro r hr
  apply meet_of_stop_le
  exact hend.le.trans (ha.le_base hm (mem_of_mem_filter hr))

omit ha

include hb

theorem ahead_past (h : j ≤ b.length → rend m ≤ rStart b j) :
    ahead q a b i j = ahead q a b (i + 1) j := by
  unfold ahead
  rw [drop_of_getElem? hm, filter_cons_of_pos (by simp [hs])]
  apply pairs_cons_of_none
  intro g hg
  obtain ⟨k, hjk, hk, rfl⟩ := mem_drop_areas hg
  apply meet_of_le_start
  obtain rfl | hlt := hjk.eq_or_lt
  · exact h hk
  · calc rend m ≤ rStart b j := h (by omega)
      _ ≤ rEnd b j := hb.rStart_le_rEnd (by omega)
      _ ≤ rStart b k := hb.rEnd_le_rStart hlt hk

theorem ahead_found_last (hj : j ≤ b.length) (h : rStart b j < rend m) (h' : m.base < rEnd b j)
    (hend : rend m ≤ rEnd b j) :
    ahead q a b i j = rangeIn b m j :: ahead q a b (i + 1) j := by
  unfold ahead
  rw [drop_areas hj, drop_of_getElem? hm, filter_cons_of_pos (by simp [hs])]
  apply pairs_next_row (meet_area h h')
  intro g hg
  obtain ⟨k, hjk, hk, rfl⟩ := mem_drop_areas hg
  apply meet_of_le_start
  exact hend.trans (hb.rEnd_le_rStart hjk hk)

end Forward

def Scan.Ahead (q : Query) (a b : List Region) (m : Region) (i j : ℕ) : Scan → Prop
  | .past k => k ≤ b.length + 1 ∧ ahead q a b i j = ahead q a b (i + 1) k
  | .found k => k ≤ b.length ∧ rStart b k < rend m ∧ m.base < rEnd b k ∧
      ahead q a b i j = ahead q a b i k

theorem scan_ahead (ha : Ordered a) (hb : Ordered b) (hm : a[i]? = some m)
    (hs : skips q m = false) (hn : n + j = b.length + 1) :
    (scan b m n j).Ahead q a b m i j := by
  induction n generalizing j with
  | zero => exact ⟨by omega, ahead_past hb hm hs fun hj => absurd hj (by omega)⟩
  | succ n ih =>
    have hj : j ≤ b.length := by omega
    rw [scan]
    split_ifs with hpast hfound
    · exact ⟨by omega, ahead_past hb hm hs fun _ => hpast⟩
    · exact ⟨hj, by omega, hfound, rfl⟩
    · have hnext := ahead_next_area ha hm hs hj (not_lt.mp hfound)
      have hscan := ih (j := j + 1) (by omega)
      cases hres : scan b m n (j + 1) with
      | past k =>
        rw [hres] at hscan
        exact ⟨hscan.1, hnext.trans hscan.2⟩
      | found k =>
        rw [hres] at hscan
        exact ⟨hscan.1, hscan.2.1, hscan.2.2.1, hnext.trans hscan.2.2.2⟩

def Gives (At : ℕ → List MemRange → Prop) (L : List MemRange) (res : Option MemRange × ℕ) : Prop :=
  (res = (none, ullongMax) ∧ L = []) ∨
  ∃ o idx L', res = (some o, idx) ∧ idx ≠ ullongMax ∧ At idx L' ∧ L = o :: L'

def AtAhead (q : Query) (a b : List Region) (idx : ℕ) (L : List MemRange) : Prop :=
  ∃ i j, i ≤ a.length ∧ j ≤ b.length ∧ idx = pack i j ∧ L = ahead q a b i j

theorem nextFrom_gives (ha : Ordered a) (hb : Ordered b) (hlb : b.length < 2 ^ 31)
    (hn : a.length ≤ n + i) (hj : j ≤ b.length + 1) :
    Gives (AtAhead q a b) (ahead q a b i j) (nextFrom q a (some b) n i j) := by
  induction n generalizing i j with
  | zero => exact .inl ⟨rfl, ahead_of_length_le (by omega) j⟩
  | succ n ih =>
    rw [nextFrom]
    cases hm : a[i]? with
    | none => exact .inl ⟨rfl, ahead_of_length_le (getElem?_eq_none_iff.mp hm) j⟩
    | some m =>
      have hi : i < a.length := (List.getElem?_eq_some_iff.mp hm).1
      simp only
      cases hs : skips q m with
      | true =>
        rw [if_pos rfl, ahead_of_skips hm hs]
        exact ih (by omega) hj
      | false =>
        have hscan := scan_ahead ha hb hm hs (n := b.length + 1 - j) (j := j) (by omega)
        rw [if_neg Bool.false_ne_true]
        cases hres : scan b m (b.length + 1 - j) j with
        | past k =>
          rw [hres] at hscan
          rw [hscan.2]
          exact ih (by omega) hscan.1
        | found k =>
          rw [hres] at hscan
          obtain ⟨hk, h, h', heq⟩ := hscan
          rw [heq]
          simp only
          split_ifs with hend
          · refine .inr ⟨_, _, _, rfl, pack_ne (by omega) (by omega) _, ⟨i + 1, k, by omega, hk, ?_,
              rfl⟩, ahead_found_last hb hm hs hk h h' hend⟩
            push_cast
            rfl
          · -- the area after the last region ends no region
            have hlt : k < b.length := by
              apply lt_of_le_of_ne hk
              rintro rfl
              apply hend
              rw [rEnd_length, ha.rend_eq (mem_of_getElem? hm)]
              exact ha.top m (mem_of_getElem? hm)
            refine .inr ⟨_, _, _, rfl, pack_ne (by omega) (by omega) _, ⟨i, k + 1, hi.le, hlt, ?_,
              rfl⟩, ahead_found ha hm hs hk h h' (not_le.mp hend)⟩
            push_cast
            rfl

theorem nextMemRange_gives (ha : Ordered a) (hb : Ordered b) (hla : a.length < 2 ^ 31)
    (hlb : b.length < 2 ^ 31) {idx : ℕ} {L : List MemRange} (h : AtAhead q a b idx L) :
    Gives (AtAhead q a b) L (nextMemRange q a (some b) idx) := by
  obtain ⟨i, j, hi, hj, rfl, rfl⟩ := h
  unfold nextMemRange
  rw [idxA_pack (by omega) (by omega), idxB_pack (by omega) (by omega), ulong_natCast (by omega),
    ulong_natCast (by omega)]
  exact nextFrom_gives ha hb hlb (by omega) (by omega)

/-! ## One call in reverse -/

section Reverse

variable (ha : Ordered a) (hb : Ordered b) (hm : a[i]? = some m) (hs : skips q m = false)

include ha hm hs

theorem behind_next_area (hj : j ≤ b.length) (h : rend m ≤ rStart b j) :
    behind q a b (i + 1) (j + 1) = behind q a b (i + 1) j := by
  unfold behind
  rw [take_areas hj]
  apply pairs_drop
  intro r hr
  apply meet_of_le_start
  rw [reverse_take_of_getElem? hm] at hr
  obtain rfl | hr := mem_cons.mp (mem_of_mem_filter hr)
  · exact h
  · calc rend r ≤ m.base := ha.rend_le hm (mem_reverse.mp hr)
      _ ≤ rend m := ha.base_le_rend (mem_of_getElem? hm)
      _ ≤ rStart b j := h

theorem behind_found (hj : j ≤ b.length) (h : rStart b j < rend m) (h' : m.base < rEnd b j)
    (hstart : m.base < rStart b j) :
    behind q a b (i + 1) (j + 1) = rangeIn b m j :: behind q a b (i + 1) j := by
  unfold behind
  rw [take_areas hj, reverse_take_of_getElem? hm, filter_cons_of_pos (by simp [hs])]
  apply pairs_next_column (meet_area h h')
  intro r hr
  apply meet_of_le_start
  exact (ha.rend_le hm (mem_reverse.mp (mem_of_mem_filter hr))).trans hstart.le

omit ha

include hb

theorem behind_past (hj : j ≤ b.length) (h : rEnd b j ≤ m.base) :
    behind q a b (i + 1) (j + 1) = behind q a b i (j + 1) := by
  unfold behind
  rw [reverse_take_of_getElem? hm, filter_cons_of_pos (by simp [hs])]
  apply pairs_cons_of_none
  intro g hg
  obtain ⟨k, hkj, hk, rfl⟩ := mem_take_areas (mem_reverse.mp hg)
  apply meet_of_stop_le
  obtain rfl | hlt := (Nat.le_of_lt_succ hkj).eq_or_lt
  · exact h
  · calc rEnd b k ≤ rStart b j := hb.rEnd_le_rStart hlt hj
      _ ≤ rEnd b j := hb.rStart_le_rEnd hj
      _ ≤ m.base := h

theorem behind_found_last (hj : j ≤ b.length) (h : rStart b j < rend m) (h' : m.base < rEnd b j)
    (hstart : rStart b j ≤ m.base) :
    behind q a b (i + 1) (j + 1) = rangeIn b m j :: behind q a b i (j + 1) := by
  unfold behind
  rw [take_areas hj, reverse_take_of_getElem? hm, filter_cons_of_pos (by simp [hs])]
  apply pairs_next_row (meet_area h h')
  intro g hg
  obtain ⟨k, hkj, -, rfl⟩ := mem_take_areas (mem_reverse.mp hg)
  apply meet_of_stop_le
  exact (hb.rEnd_le_rStart hkj hj).trans hstart

end Reverse

def Scan.Behind (q : Query) (a b : List Region) (m : Region) (i j : ℕ) : Scan → Prop
  | .past k => k ≤ b.length + 1 ∧ behind q a b (i + 1) j = behind q a b i k
  | .found k => k ≤ b.length ∧ rStart b k < rend m ∧ m.base < rEnd b k ∧
      behind q a b (i + 1) j = behind q a b (i + 1) (k + 1)

theorem scanRev_behind (ha : Ordered a) (hb : Ordered b) (hm : a[i]? = some m)
    (hs : skips q m = false) (hj : j ≤ b.length + 1) :
    (scanRev b m j).Behind q a b m i j := by
  induction j with
  | zero => exact ⟨Nat.zero_le _, by rw [behind_zero_right, behind_zero_right]⟩
  | succ j ih =>
    have hj' : j ≤ b.length := by omega
    rw [scanRev]
    split_ifs with hpast hfound
    · exact ⟨hj, behind_past hb hm hs hj' hpast⟩
    · exact ⟨hj', hfound, by omega, rfl⟩
    · have hnext := behind_next_area ha hm hs hj' (not_lt.mp hfound)
      have hscan := ih (by omega)
      cases hres : scanRev b m j with
      | past k =>
        rw [hres] at hscan
        exact ⟨hscan.1, hnext.trans hscan.2⟩
      | found k =>
        rw [hres] at hscan
        exact ⟨hscan.1, hscan.2.1, hscan.2.2.1, hnext.trans hscan.2.2.2⟩

def AtBehind (q : Query) (a b : List Region) (idx : ℕ) (L : List MemRange) : Prop :=
  (idx = ullongMax ∧ L = behind q a b a.length (b.length + 1)) ∨
  ∃ i j, i ≤ a.length ∧ j ≤ b.length ∧ idx = pack (i - 1) j ∧ L = behind q a b i (j + 1)

theorem nextRevFrom_gives (ha : Ordered a) (hb : Ordered b) (hlb : b.length < 2 ^ 31)
    (hi : i ≤ a.length) (hj : j ≤ b.length + 1) :
    Gives (AtBehind q a b) (behind q a b i j) (nextRevFrom q a (some b) i j) := by
  induction i generalizing j with
  | zero => exact .inl ⟨rfl, rfl⟩
  | succ i ih =>
    have hm : a[i]? = some a[i] := getElem?_eq_getElem hi
    rw [nextRevFrom, hm]
    simp only
    cases hs : skips q a[i] with
    | true =>
      rw [if_pos rfl, behind_of_skips hm hs]
      exact ih (by omega) hj
    | false =>
      have hscan := scanRev_behind ha hb hm hs hj
      rw [if_neg Bool.false_ne_true]
      cases hres : scanRev b a[i] j with
      | past k =>
        rw [hres] at hscan
        rw [hscan.2]
        exact ih (by omega) hscan.1
      | found k =>
        rw [hres] at hscan
        obtain ⟨hk, h, h', heq⟩ := hscan
        rw [heq]
        simp only
        split_ifs with hstart
        · exact .inr ⟨_, _, _, rfl, pack_ne (by omega) (by omega) _,
            .inr ⟨i, k, by omega, hk, rfl, rfl⟩, behind_found_last hb hm hs hk h h' hstart⟩
        · cases k with
          | zero => exact absurd (Nat.zero_le _) hstart
          | succ k =>
            refine .inr ⟨_, _, _, rfl, pack_ne (by omega) (by omega) _,
              .inr ⟨i + 1, k, hi, by omega, ?_, rfl⟩,
              behind_found ha hm hs hk h h' (not_le.mp hstart)⟩
            push_cast
            simp

theorem nextMemRangeRev_gives (ha : Ordered a) (hb : Ordered b) (hla : a.length < 2 ^ 31)
    (hlb : b.length < 2 ^ 31) {idx : ℕ} {L : List MemRange} (h : AtBehind q a b idx L) :
    ∃ res, nextMemRangeRev q a (some b) idx = some res ∧ Gives (AtBehind q a b) L res := by
  unfold nextMemRangeRev
  obtain ⟨rfl, rfl⟩ | ⟨i, j, hi, hj, rfl, rfl⟩ := h
  · rw [if_pos rfl]
    exact ⟨_, rfl, nextRevFrom_gives ha hb hlb le_rfl le_rfl⟩
  · rw [if_neg (pack_ne (by omega) (by omega) _), idxA_pack (by omega) (by omega),
      idxB_pack (by omega) (by omega)]
    refine ⟨_, rfl, ?_⟩
    have hi' : ((i : ℤ) - 1 + 1).toNat = i := by omega
    have hj' : ((j : ℤ) + 1).toNat = j + 1 := by omega
    rw [hi', hj']
    exact nextRevFrom_gives ha hb hlb hi (by omega)

/-! ## Whole iterations -/

section ForEach

variable {next : ℕ → Option (Option MemRange × ℕ)} {idx : ℕ} {L L' : List MemRange} {n' : ℕ}

theorem forEach_of_gives (At : ℕ → List MemRange → Prop)
    (h : ∀ idx L, At idx L → ∃ res, next idx = some res ∧ Gives At L res) (hL : At idx L) :
    forEach next (L.length + 1) idx = some L := by
  induction L generalizing idx with
  | nil =>
    obtain ⟨res, hres, ⟨rfl, -⟩ | ⟨o, idx', L', -, -, -, hcons⟩⟩ := h idx [] hL
    · rw [forEach, hres]
      rfl
    · cases hcons
  | cons o L ih =>
    obtain ⟨res, hres, ⟨-, hnil⟩ | ⟨o', idx', L', rfl, hne, hat, hcons⟩⟩ := h idx (o :: L) hL
    · cases hnil
    · obtain ⟨rfl, rfl⟩ := cons.inj hcons
      rw [forEach, hres]
      simp [hne, ih hat]

theorem forEach_unique (h : forEach next n idx = some L) (h' : forEach next n' idx = some L') :
    L = L' := by
  induction n generalizing n' idx L L' with
  | zero => cases h
  | succ n ih =>
    cases n' with
    | zero => cases h'
    | succ n' =>
      rw [forEach] at h h'
      cases hres : next idx with
      | none =>
        rw [hres] at h
        cases h
      | some res =>
        obtain ⟨range, idx'⟩ := res
        rw [hres] at h h'
        simp only [bind_eq_bind, bind_some] at h h'
        split_ifs at h h' with hend
        · exact some.inj (h.symm.trans h')
        · simp only [bind_eq_some_iff] at h h'
          obtain ⟨o, rfl, L₁, hL₁, h⟩ := h
          obtain ⟨o', ho, L₂, hL₂, h'⟩ := h'
          cases ho
          cases h
          cases h'
          rw [ih hL₁ hL₂]

end ForEach

theorem forEachMemRange_eq (q : Query) (ha : Ordered a) (hb : Ordered b) (hla : a.length < 2 ^ 31)
    (hlb : b.length < 2 ^ 31) :
    forEachMemRange q a b ((ahead q a b 0 0).length + 1) = some (ahead q a b 0 0) :=
  forEach_of_gives (AtAhead q a b)
    (fun _ _ h => ⟨_, rfl, nextMemRange_gives ha hb hla hlb h⟩)
    ⟨0, 0, Nat.zero_le _, Nat.zero_le _, rfl, rfl⟩

theorem behind_eq_reverse_ahead :
    behind q a b a.length (b.length + 1) = (ahead q a b 0 0).reverse := by
  unfold behind ahead
  rw [← pairs_reverse, take_length, ← length_areas, take_length, filter_reverse]
  rfl

theorem forEachMemRangeRev_eq (q : Query) (ha : Ordered a) (hb : Ordered b)
    (hla : a.length < 2 ^ 31) (hlb : b.length < 2 ^ 31) :
    forEachMemRangeRev q a b ((ahead q a b 0 0).length + 1) = some (ahead q a b 0 0).reverse := by
  rw [← behind_eq_reverse_ahead, ← length_reverse, ← behind_eq_reverse_ahead]
  exact forEach_of_gives (AtBehind q a b)
    (fun _ _ h => nextMemRangeRev_gives ha hb hla hlb h) (.inl ⟨rfl, rfl⟩)

end Cupcake.Mm.Memblock
