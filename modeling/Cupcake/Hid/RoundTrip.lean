import Cupcake.Hid.Report

/-! What an output report holds: every element of every field can be read back, and
the bits between the fields are zero. -/

namespace Cupcake.Hid

open BitVec List Bytes Option

theorem getLsbD_mask64 {n : ℕ} (hn : n ≤ 32) (i : ℕ) : (mask64 n).getLsbD i = decide (i < n) := by
  have hpow : 2 ^ n < 2 ^ 64 := Nat.pow_lt_pow_right (by decide) (by omega)
  have hshift : (1#64 <<< n).toNat = 2 ^ n := by
    rw [toNat_shiftLeft, Nat.shiftLeft_eq, toNat_ofNat]
    norm_num
    omega
  have hmask : (mask64 n).toNat = 2 ^ n - 1 := by
    have hpos := Nat.two_pow_pos n
    rw [mask64, Nat.mod_eq_of_lt (by omega), toNat_sub, hshift]
    rw [show (1 : BitVec 64).toNat = 1 from rfl]
    omega
  rw [getLsbD, hmask, Nat.testBit_two_pow_sub_one]

theorem getLsbD_load64 (m : ℕ → UInt8) (a i : ℕ) :
    (BitVec.ofNat 64 (load m a 8)).getLsbD i = (decide (i < 64) && bit m (8 * a + i)) := by
  rw [getLsbD_ofNat, testBit_load]
  simp

section Access

variable {m : ℕ → UInt8} {report offset n : ℕ} {value : BitVec 32}

theorem bit_implement (hn : n ≤ 32) (i : ℕ) :
    bit (implement m report offset n value) i =
      if 8 * report + offset ≤ i ∧ i < 8 * report + offset + n
      then value.getLsbD (i - (8 * report + offset)) else bit m i := by
  rw [implement, bit_store]
  by_cases hw : 8 * (report + offset / 8) ≤ i ∧ i < 8 * (report + offset / 8 + 8)
  · rw [if_pos hw]
    obtain ⟨j, rfl⟩ := Nat.exists_eq_add_of_le hw.1
    have hj : j < 64 := by omega
    rw [Nat.add_sub_cancel_left]
    show getLsbD _ j = _
    simp only [getLsbD_or, getLsbD_and, getLsbD_not, getLsbD_shiftLeft,
      getLsbD_mask64 hn, getLsbD_load64, getLsbD_setWidth, hj]
    by_cases hin : 8 * report + offset ≤ 8 * (report + offset / 8) + j ∧
        8 * (report + offset / 8) + j < 8 * report + offset + n
    · have hpos : 8 * (report + offset / 8) + j - (8 * report + offset) = j - offset % 8 := by omega
      rw [if_pos hin, hpos]
      simp [show ¬ j < offset % 8 by omega, show j - offset % 8 < n by omega,
        show j - offset % 8 < 64 by omega]
    · rw [if_neg hin]
      by_cases hlow : j < offset % 8
      · simp [hlow]
      · simp [hlow, show ¬ j - offset % 8 < n by omega]
  · rw [if_neg hw, if_neg (by omega)]

theorem getLsbD_hidFieldExtract (hn : n ≤ 32) (i : ℕ) :
    (hidFieldExtract m report offset n).getLsbD i =
      (decide (i < n) && bit m (8 * report + offset + i)) := by
  rw [hidFieldExtract]
  simp only [getLsbD_setWidth, getLsbD_and, getLsbD_ushiftRight,
    getLsbD_mask64 hn, getLsbD_load64]
  by_cases hi : i < n
  · have hpos : 8 * (report + offset / 8) + (offset % 8 + i) = 8 * report + offset + i := by omega
    rw [hpos]
    simp [hi, show i < 32 by omega, show offset % 8 + i < 64 by omega]
  · simp [hi]

end Access

/-! A report as a list of writes. -/

def implementAll (m : ℕ → UInt8) (report : ℕ) (ws : List (ℕ × ℕ × BitVec 32)) : ℕ → UInt8 :=
  ws.foldl (fun m w => implement m report w.1 w.2.1 w.2.2) m

def Covers (w : ℕ × ℕ × BitVec 32) (b : ℕ) : Prop := w.1 ≤ b ∧ b < w.1 + w.2.1

theorem bit_implementAll_of_not_covers (report : ℕ) {b : ℕ} {ws : List (ℕ × ℕ × BitVec 32)}
    (hn : ∀ w ∈ ws, w.2.1 ≤ 32) (h : ∀ w ∈ ws, ¬ Covers w b) (m : ℕ → UInt8) :
    bit (implementAll m report ws) (8 * report + b) = bit m (8 * report + b) := by
  induction ws generalizing m with
  | nil => rfl
  | cons w ws ih =>
    have hw := h w mem_cons_self
    rw [Covers] at hw
    rw [implementAll, foldl_cons]
    refine (ih (fun v hv => hn v (.tail _ hv)) (fun v hv => h v (.tail _ hv)) _).trans ?_
    rw [bit_implement (hn w mem_cons_self), if_neg (by omega)]

theorem bit_implementAll_of_mem (report : ℕ) {ws : List (ℕ × ℕ × BitVec 32)}
    (hn : ∀ w ∈ ws, w.2.1 ≤ 32) (hd : ws.Pairwise fun v w => ∀ b, Covers v b → ¬ Covers w b)
    {w : ℕ × ℕ × BitVec 32} (hw : w ∈ ws) (m : ℕ → UInt8) {i : ℕ} (hi : i < w.2.1) :
    bit (implementAll m report ws) (8 * report + w.1 + i) = w.2.2.getLsbD i := by
  induction ws generalizing m with
  | nil => cases hw
  | cons v ws ih =>
    obtain ⟨hv, hd⟩ := pairwise_cons.mp hd
    have hn' : ∀ w ∈ ws, w.2.1 ≤ 32 := fun w hw => hn w (.tail _ hw)
    rw [implementAll, foldl_cons]
    rcases mem_cons.mp hw with rfl | hw
    · have hkeep := bit_implementAll_of_not_covers report (b := w.1 + i) hn'
        (fun u hu => hv u hu _ ⟨by omega, by omega⟩)
        (implement m report w.1 w.2.1 w.2.2)
      rw [← add_assoc] at hkeep
      refine hkeep.trans ?_
      rw [bit_implement (hn w mem_cons_self), if_pos ⟨by omega, by omega⟩]
      congr 1
      omega
    · exact ih hn' hd hw _

def Field.writes (field : Field) : List (ℕ × ℕ × BitVec 32) :=
  (List.range field.reportCount).map fun n => (field.position n, field.reportSize, field.sent n)

theorem foldl_hidOutputField (fields : List Field) (m : ℕ → UInt8) (data : ℕ) :
    fields.foldl (fun m field => hidOutputField field m data) m =
      implementAll m data (fields.flatMap Field.writes) := by
  induction fields generalizing m with
  | nil => rfl
  | cons field fields ih =>
    rw [foldl_cons, ih, flatMap_cons, implementAll, implementAll, foldl_append, Field.writes,
      foldl_map]
    rfl

/-- The layout of a report: fields of 1 to 32 bits, each with a value for every
element, in disjoint bit ranges of the report. -/
structure Report.Laid (report : Report) : Prop where
  size_lt : report.size < 2 ^ 32
  fits : ∀ f ∈ report.field, 0 < f.reportSize ∧ f.reportSize ≤ 32
  values : ∀ f ∈ report.field, f.value.length = f.reportCount
  inside : ∀ f ∈ report.field, f.stop ≤ report.size
  disjoint : report.field.Pairwise fun f g => f.stop ≤ g.reportOffset ∨ g.stop ≤ f.reportOffset

theorem Field.position_eq {f : Field} {n : ℕ} (hn : n < f.reportCount) (hs : f.stop < 2 ^ 32) :
    f.position n = f.reportOffset + n * f.reportSize := by
  have hmul : n * f.reportSize ≤ f.reportCount * f.reportSize := Nat.mul_le_mul_right _ hn.le
  rw [Field.stop, mul_comm] at hs
  rw [Field.position, Nat.mod_eq_of_lt (by omega), wadd_of_lt (by omega)]

theorem Field.position_add_le {f : Field} {n : ℕ} (hn : n < f.reportCount) :
    f.reportOffset + n * f.reportSize + f.reportSize ≤ f.stop := by
  have hmul : (n + 1) * f.reportSize ≤ f.reportCount * f.reportSize := Nat.mul_le_mul_right _ hn
  rw [Field.stop, mul_comm f.reportSize]
  rw [Nat.succ_mul] at hmul
  omega

theorem Field.covers_writes {f : Field} (hs : f.stop < 2 ^ 32) {w : ℕ × ℕ × BitVec 32}
    (hw : w ∈ f.writes) {b : ℕ} (h : Covers w b) : f.reportOffset ≤ b ∧ b < f.stop := by
  obtain ⟨n, hn, rfl⟩ := mem_map.mp hw
  have hn := mem_range.mp hn
  have hpos := position_eq hn hs
  have hend := position_add_le hn
  obtain ⟨h₁, h₂⟩ := h
  dsimp only at h₁ h₂
  omega

theorem Field.pairwise_writes {f : Field} (hs : f.stop < 2 ^ 32) :
    f.writes.Pairwise fun v w => ∀ b, Covers v b → ¬ Covers w b := by
  rw [Field.writes, pairwise_map]
  refine pairwise_lt_range.imp_of_mem ?_
  intro a b ha hb hab i hi hi'
  have ha := position_eq (mem_range.mp ha) hs
  have hb := position_eq (mem_range.mp hb) hs
  have hmul : (a + 1) * f.reportSize ≤ b * f.reportSize := Nat.mul_le_mul_right _ hab
  rw [Nat.succ_mul] at hmul
  have h₁ := hi.2
  have h₂ := hi'.1
  dsimp only at h₁ h₂
  omega

namespace Report.Laid

variable {report : Report} (hl : report.Laid)
include hl

theorem stop_lt {f : Field} (hf : f ∈ report.field) : f.stop < 2 ^ 32 :=
  (hl.inside f hf).trans_lt hl.size_lt

theorem writes_le : ∀ w ∈ report.field.flatMap Field.writes, w.2.1 ≤ 32 := by
  intro w hw
  obtain ⟨f, hf, hw⟩ := mem_flatMap.mp hw
  obtain ⟨n, -, rfl⟩ := mem_map.mp hw
  exact (hl.fits f hf).2

theorem pairwise_writes : (report.field.flatMap Field.writes).Pairwise
    fun v w => ∀ b, Covers v b → ¬ Covers w b := by
  rw [pairwise_flatMap]
  refine ⟨fun f hf => Field.pairwise_writes (hl.stop_lt hf), hl.disjoint.imp_of_mem ?_⟩
  intro f g hf hg hfg v hv w hw b hb hb'
  have h₁ := Field.covers_writes (hl.stop_lt hf) hv hb
  have h₂ := Field.covers_writes (hl.stop_lt hg) hw hb'
  omega

theorem getLsbD_extract {f : Field} (hf : f ∈ report.field) {n : ℕ} (hn : n < f.reportCount)
    (m : ℕ → UInt8) (data i : ℕ) :
    (hidFieldExtract (hidOutputReport report m data) (report.start data) (f.position n)
      f.reportSize).getLsbD i = (decide (i < f.reportSize) && (f.sent n).getLsbD i) := by
  rw [getLsbD_hidFieldExtract (hl.fits f hf).2]
  by_cases hi : i < f.reportSize
  · have hw : (f.position n, f.reportSize, f.sent n) ∈ report.field.flatMap Field.writes :=
      mem_flatMap.mpr ⟨f, hf, mem_map.mpr ⟨n, mem_range.mpr hn, rfl⟩⟩
    have hbit := bit_implementAll_of_mem (report.start data) hl.writes_le
      hl.pairwise_writes hw
      (store (if 0 < report.id then store m data 1 report.id else m) (report.start data)
        (hidComputeReportSize report) 0) hi
    rw [← foldl_hidOutputField] at hbit
    exact congrArg _ hbit
  · simp [hi]

theorem bit_padding {b : ℕ} (hb : b < 8 * hidComputeReportSize report)
    (hf : ∀ f ∈ report.field, ¬ (f.reportOffset ≤ b ∧ b < f.stop)) (m : ℕ → UInt8) (data : ℕ) :
    bit (hidOutputReport report m data) (8 * report.start data + b) = false := by
  have hno : ∀ w ∈ report.field.flatMap Field.writes, ¬ Covers w b := by
    intro w hw h
    obtain ⟨f, hmem, hw⟩ := mem_flatMap.mp hw
    exact hf f hmem (Field.covers_writes (hl.stop_lt hmem) hw h)
  rw [hidOutputReport, foldl_hidOutputField, bit_implementAll_of_not_covers _ hl.writes_le hno,
    bit_store, if_pos (by omega), Nat.zero_testBit]

end Report.Laid

/-! Values and bits. -/

theorem toNat_shl32_one {k : ℕ} (hk : k < 32) : (shl32 1 k).toNat = 2 ^ k := by
  have hpow : 2 ^ k < 2 ^ 32 := Nat.pow_lt_pow_right (by decide) hk
  rw [shl32, Nat.mod_eq_of_lt hk, toNat_shiftLeft, Nat.shiftLeft_eq,
    show (1 : BitVec 32).toNat = 1 from rfl, one_mul, Nat.mod_eq_of_lt hpow]

theorem toNat_shl32_one_sub {k : ℕ} (hk : k < 32) : (shl32 1 k - 1).toNat = 2 ^ k - 1 := by
  have hpow : 2 ^ k < 2 ^ 32 := Nat.pow_lt_pow_right (by decide) hk
  have hpos := Nat.two_pow_pos k
  rw [toNat_sub, toNat_shl32_one hk, show (1 : BitVec 32).toNat = 1 from rfl]
  omega

theorem s32ton_lt {n : ℕ} (hn : 0 < n) (hn' : n ≤ 32) (value : BitVec 32) :
    (s32ton value n).toNat < 2 ^ n := by
  rcases hn'.eq_or_lt with rfl | hlt
  · exact (s32ton value 32).isLt
  have hpred : wsub 32 n 1 = n - 1 := wsub_of_le hn (by omega)
  have hhalf : 2 ^ (n - 1) < 2 ^ n := Nat.pow_lt_pow_right (by decide) (by omega)
  rw [s32ton, hpred]
  split_ifs
  · rwa [toNat_shl32_one (by omega)]
  · rw [toNat_shl32_one_sub (by omega)]
    exact (Nat.sub_le _ _).trans_lt hhalf
  · rw [toNat_and, toNat_shl32_one_sub hlt, Nat.and_two_pow_sub_one_eq_mod]
    exact Nat.mod_lt _ (Nat.two_pow_pos n)

theorem getLsbD_s32ton {n : ℕ} (hn : 0 < n) (hn' : n ≤ 32) (value : BitVec 32) {i : ℕ}
    (hi : n ≤ i) : (s32ton value n).getLsbD i = false :=
  Nat.testBit_lt_two_pow ((s32ton_lt hn hn' value).trans_le (Nat.pow_le_pow_right (by decide) hi))

/-! The values that `hid_set_field` accepts. -/

theorem hidSetField_some {f f' : Field} {n : ℕ} {v : BitVec 32} (h : hidSetField f n v = some f') :
    n < f.reportCount ∧ f' = { f with value := f.value.set n v } ∧
      (f.logicalMinimum.toInt < 0 → v = snto32 (s32ton v f.reportSize) f.reportSize) := by
  rw [hidSetField] at h
  split_ifs at h with hn hv
  refine ⟨by omega, (some.inj h).symm, fun hneg => ?_⟩
  by_contra hne
  exact hv ⟨hneg, hne⟩

theorem foldlM_hidSetField {f : Field} {values : ℕ → BitVec 32} (hlen : f.value.length = f.reportCount)
    {k : ℕ} (hk : k ≤ f.reportCount) {f' : Field}
    (h : (range k).foldlM (fun field n => hidSetField field n (values n)) f = some f') :
    (∃ value, f' = { f with value } ∧ value.length = f.reportCount ∧
      ∀ n < k, value.getD n 0 = values n) ∧
    ∀ n < k, f.logicalMinimum.toInt < 0 →
      values n = snto32 (s32ton (values n) f.reportSize) f.reportSize := by
  induction k generalizing f' with
  | zero =>
    obtain rfl := some.inj h
    exact ⟨⟨f.value, rfl, hlen, by simp⟩, by simp⟩
  | succ k ih =>
    rw [range_succ, foldlM_append] at h
    obtain ⟨f₁, h₁, h⟩ := bind_eq_some_iff.mp h
    obtain ⟨⟨value, rfl, hval, hget⟩, hacc⟩ := ih (by omega) h₁
    have h : hidSetField { f with value } k (values k) = some f' := by
      simpa using h
    obtain ⟨-, rfl, hok⟩ := hidSetField_some h
    refine ⟨⟨value.set k (values k), rfl, by simpa using hval, fun n hn => ?_⟩, fun n hn => ?_⟩
    · rcases Nat.lt_succ_iff_lt_or_eq.mp hn with hn | rfl
      · rw [getD_eq_getElem?_getD, getElem?_set_ne (by omega),
          ← getD_eq_getElem?_getD, hget n hn]
      · rw [getD_eq_getElem?_getD, getElem?_set_self (by omega), getD_some]
    · rcases Nat.lt_succ_iff_lt_or_eq.mp hn with hn | rfl
      · exact hacc n hn
      · exact hok

theorem setElements_some {f f' : Field} {values : ℕ → BitVec 32}
    (hlen : f.value.length = f.reportCount) (h : setElements f values = some f') :
    (∃ value, f' = { f with value } ∧ value.length = f.reportCount ∧
      ∀ n < f.reportCount, value.getD n 0 = values n) ∧
    ∀ n < f.reportCount, f.logicalMinimum.toInt < 0 →
      values n = snto32 (s32ton (values n) f.reportSize) f.reportSize :=
  foldlM_hidSetField hlen le_rfl h

theorem setFieldsFrom_some {values : ℕ → ℕ → BitVec 32} {k : ℕ} {fs fs' : List Field}
    (h : setFieldsFrom values k fs = some fs') :
    fs.length = fs'.length ∧ ∀ i f f', fs[i]? = some f → fs'[i]? = some f' →
      setElements f (values (k + i)) = some f' := by
  induction fs generalizing k fs' with
  | nil =>
    obtain rfl := some.inj h
    exact ⟨rfl, by simp⟩
  | cons g fs ih =>
    obtain ⟨g', hg, h⟩ := bind_eq_some_iff.mp h
    obtain ⟨gs', hgs, rfl⟩ := map_eq_some_iff.mp h
    obtain ⟨hlen, hget⟩ := ih hgs
    refine ⟨by simp [hlen], fun i f f' hf hf' => ?_⟩
    cases i with
    | zero =>
      obtain rfl := some.inj hf
      obtain rfl := some.inj hf'
      exact hg
    | succ i =>
      rw [getElem?_cons_succ] at hf hf'
      have := hget i f f' hf hf'
      rwa [show k + 1 + i = k + (i + 1) by omega] at this

structure SameShape (f f' : Field) : Prop where
  offset : f'.reportOffset = f.reportOffset
  size : f'.reportSize = f.reportSize
  count : f'.reportCount = f.reportCount
  minimum : f'.logicalMinimum = f.logicalMinimum
  length : f'.value.length = f.reportCount

theorem SameShape.stop {f f' : Field} (h : SameShape f f') : f'.stop = f.stop := by
  rw [Field.stop, Field.stop, h.offset, h.size, h.count]

section

variable {values : ℕ → ℕ → BitVec 32} {report report' : Report} (hl : report.Laid)
  (h : setFields report values = some report')

include hl h

theorem setFields_some : report'.id = report.id ∧ report'.size = report.size ∧
      List.Forall₂ SameShape report.field report'.field ∧
      ∀ k f, report'.field[k]? = some f → ∀ n < f.reportCount,
        f.value.getD n 0 = values k n ∧ (f.logicalMinimum.toInt < 0 →
          values k n = snto32 (s32ton (values k n) f.reportSize) f.reportSize) := by
  obtain ⟨fs, hfs, rfl⟩ := map_eq_some_iff.mp h
  obtain ⟨hlen, hget⟩ := setFieldsFrom_some hfs
  have hset (k : ℕ) (f f' : Field) (hf : report.field[k]? = some f) (hf' : fs[k]? = some f') :=
    setElements_some (hl.values f (mem_of_getElem? hf)) (hget k f f' hf hf')
  refine ⟨rfl, rfl, forall₂_iff_get.mpr ⟨hlen, fun i h₁ h₂ => ?_⟩, fun k f' hf' n hn => ?_⟩
  · obtain ⟨⟨value, hval, hlen', -⟩, -⟩ := hset i _ _ (getElem?_eq_getElem h₁)
      (getElem?_eq_getElem h₂)
    rw [get_eq_getElem, get_eq_getElem, hval]
    exact ⟨rfl, rfl, rfl, rfl, hlen'⟩
  · have hk : k < report.field.length := by
      rw [hlen]
      exact (List.getElem?_eq_some_iff.mp hf').1
    obtain ⟨⟨value, rfl, -, hv⟩, hacc⟩ := hset k _ f' (getElem?_eq_getElem hk) hf'
    rw [Nat.zero_add] at hv hacc
    exact ⟨hv n hn, hacc n hn⟩

theorem Report.Laid.setFields : report'.Laid := by
  obtain ⟨-, hsize, hshape, -⟩ := setFields_some hl h
  have hmem : ∀ f' ∈ report'.field, ∃ f ∈ report.field, SameShape f f' := fun f' hf' =>
    (forall₂_iff_get.mp hshape).2 |> fun hall => by
      obtain ⟨i, hi, rfl⟩ := getElem_of_mem hf'
      have hi' : i < report.field.length := by rwa [hshape.length_eq]
      exact ⟨_, getElem_mem hi', hall i hi' hi⟩
  refine ⟨hsize ▸ hl.size_lt, fun f' hf' => ?_, fun f' hf' => ?_, fun f' hf' => ?_, ?_⟩
  · obtain ⟨f, hf, hs⟩ := hmem f' hf'
    exact hs.size ▸ hl.fits f hf
  · obtain ⟨f, hf, hs⟩ := hmem f' hf'
    exact hs.length.trans hs.count.symm
  · obtain ⟨f, hf, hs⟩ := hmem f' hf'
    exact hs.stop ▸ hsize ▸ hl.inside f hf
  · refine pairwise_iff_getElem.mpr fun i j hi hj hij => ?_
    have hlen := hshape.length_eq
    have hall := (forall₂_iff_get.mp hshape).2
    have hi' := hall i (by omega) hi
    have hj' := hall j (by omega) hj
    have hd := pairwise_iff_getElem.mp hl.disjoint i j (by omega) (by omega) hij
    rw [get_eq_getElem, get_eq_getElem] at hi' hj'
    rwa [hi'.stop, hj'.stop, hi'.offset, hj'.offset]

end

/-- The decoding of the output report gives the values back, and its other bits are zero. -/
theorem hidOutputReport_roundTrip {report report' : Report} {values : ℕ → ℕ → BitVec 32}
    (hl : report.Laid) (hset : setFields report values = some report') (m : ℕ → UInt8) (data : ℕ) :
    (∀ k f, report'.field[k]? = some f → ∀ n < f.reportCount,
      (f.logicalMinimum.toInt < 0 →
        hidInputValue f (hidOutputReport report' m data) (report'.start data) n = values k n) ∧
      (0 ≤ f.logicalMinimum.toInt →
        (hidInputValue f (hidOutputReport report' m data) (report'.start data) n).toNat =
          (values k n).toNat % 2 ^ f.reportSize)) ∧
    ∀ b < 8 * hidComputeReportSize report',
      (∀ f ∈ report'.field, ¬ (f.reportOffset ≤ b ∧ b < f.stop)) →
      bit (hidOutputReport report' m data) (8 * report'.start data + b) = false := by
  have hl' := hl.setFields hset
  obtain ⟨-, -, -, hval⟩ := setFields_some hl hset
  refine ⟨fun k f hf n hn => ?_, fun b hb hno => hl'.bit_padding hb hno m data⟩
  have hmem := mem_of_getElem? hf
  obtain ⟨hpos, hle⟩ := hl'.fits f hmem
  obtain ⟨hget, hacc⟩ := hval k f hf n hn
  have hbits := hl'.getLsbD_extract hmem hn m data
  constructor
  · intro hneg
    have hsent : f.sent n = s32ton (values k n) f.reportSize := by
      rw [Field.sent, if_pos hneg, hget]
    have hx : hidFieldExtract (hidOutputReport report' m data) (report'.start data)
        (f.position n) f.reportSize = s32ton (values k n) f.reportSize := by
      refine eq_of_getLsbD_eq fun i _ => ?_
      rw [hbits, hsent]
      by_cases hi : i < f.reportSize
      · simp [hi]
      · rw [getLsbD_s32ton hpos hle _ (by omega)]
        simp
    rw [hidInputValue, if_pos hneg, hx]
    exact (hacc hneg).symm
  · intro hnonneg
    have hneg : ¬ f.logicalMinimum.toInt < 0 := by omega
    have hsent : f.sent n = values k n := by rw [Field.sent, if_neg hneg, hget]
    rw [hidInputValue, if_neg hneg]
    apply Nat.eq_of_testBit_eq
    intro i
    rw [Nat.testBit_mod_two_pow]
    have := hbits i
    rw [hsent] at this
    exact this

def mixedReport : Report where
  id := 3
  size := 17
  field := [
    { reportOffset := 1, reportSize := 5, reportCount := 1, value := [0], logicalMinimum := -16 },
    { reportOffset := 7, reportSize := 5, reportCount := 2, value := [0, 0], logicalMinimum := 0 }]

theorem mixedReport_laid : mixedReport.Laid := by
  refine ⟨by decide, by decide, by decide, by decide, by decide⟩

theorem mixedReport_roundTrip : ∃ report', setFields mixedReport
    (fun k n => if k = 0 then -3 else if n = 0 then 9 else 20) = some report' ∧
    ∀ f, report'.field[0]? = some f → f.reportCount = 1 ∧ (f.logicalMinimum.toInt < 0 →
      hidInputValue f (hidOutputReport report' (fun _ => 255) 0) (report'.start 0) 0 = -3) := by
  obtain ⟨report', hset, hfield⟩ : ∃ report', setFields mixedReport
      (fun k n => if k = 0 then -3 else if n = 0 then 9 else 20) = some report' ∧
      (report'.field[0]?).map (·.reportCount) = some 1 := ⟨_, rfl, by decide⟩
  refine ⟨report', hset, fun f hf => ?_⟩
  rw [hf] at hfield
  have hcount : f.reportCount = 1 := some.inj hfield
  refine ⟨hcount, fun hneg => ?_⟩
  exact ((hidOutputReport_roundTrip mixedReport_laid hset (fun _ => 255) 0).1 0 f hf 0
    (by omega)).1 hneg

end Cupcake.Hid
