import Cupcake.Fs.Ext4.Defs
import Cupcake.Lib.Segments

/-! Extents as segments of a map from blocks to attributes, and what growing and cutting an
extent does to its segment. -/

namespace Cupcake.Ext4

/-- Whether blocks of a type have a physical block: written and unwritten ones have. A hole has
none, and neither has a delayed block that is not unwritten. -/
def hasPblock (type : ℕ) : Bool :=
  (type.testBit esWrittenB || type.testBit esUnwrittenB) && !type.testBit esHoleB &&
    (!type.testBit esDelayedB || type.testBit esUnwrittenB)

theorem two_pow_esShift : 2 ^ esShift = 2 ^ 59 := rfl

namespace ExtentStatus

variable {es es₁ es₂ : ExtentStatus} {lblk len pb st d : ℕ}

def attr (es : ExtentStatus) : ℕ × Option ℕ :=
  (es.type, if hasPblock es.type then some ((es.pblock + 2 ^ esShift - es.lblk) % 2 ^ esShift)
    else none)

def seg (es : ExtentStatus) : Segment (ℕ × Option ℕ) := ⟨es.lblk, es.len, es.attr⟩

structure Good (fit : Prop) (es : ExtentStatus) : Prop where
  pos : 0 < es.len
  stop : es.lblk + es.len < 2 ^ 32
  fits : fit → hasPblock es.type → es.pblock + es.len ≤ 2 ^ esShift

/-! ## The fields packed in `es_pblk` -/

theorem pblock_lt (es : ExtentStatus) : es.pblock < 2 ^ esShift :=
  Nat.mod_lt _ (Nat.two_pow_pos _)

@[simp] theorem status_storePblock : (es.storePblock pb).status = es.status := by
  simp only [status, storePblock, two_pow_esShift]
  omega

@[simp] theorem type_storePblock : (es.storePblock pb).type = es.type := by
  rw [type, status_storePblock, type]

@[simp] theorem pblock_storePblock : (es.storePblock pb).pblock = pb % 2 ^ esShift := by
  simp only [pblock, storePblock, two_pow_esShift]
  omega

@[simp] theorem type_storePblockStatus :
    (storePblockStatus lblk len pb st).type = st % 2 ^ esReferencedB := by
  simp only [type, status, storePblockStatus, two_pow_esShift, esReferencedB, esFlags]
  omega

@[simp] theorem pblock_storePblockStatus :
    (storePblockStatus lblk len pb st).pblock = pb % 2 ^ esShift := by
  simp only [pblock, storePblockStatus, two_pow_esShift]
  omega

@[simp] theorem type_setReferenced : es.setReferenced.type = es.type := by
  refine Nat.eq_of_testBit_eq fun k => ?_
  simp only [type, status, setReferenced, Nat.testBit_mod_two_pow, Nat.testBit_div_two_pow,
    Nat.testBit_or, Nat.testBit_two_pow]
  by_cases hk : k < esReferencedB
  · simp [show ¬esReferencedB = k by omega]
  · simp [hk]

@[simp] theorem pblock_setReferenced : es.setReferenced.pblock = es.pblock := by
  refine Nat.eq_of_testBit_eq fun k => ?_
  simp only [pblock, setReferenced, Nat.testBit_mod_two_pow, Nat.testBit_or, Nat.testBit_two_pow]
  by_cases hk : k < esShift
  · simp [show ¬esReferencedB + esShift = k by omega]
  · simp [hk]

@[simp] theorem type_clearReferenced : es.clearReferenced.type = es.type := by
  have hmask : (2 ^ 64 - 1 - 2 ^ (esReferencedB + esShift)) / 2 ^ esShift % 2 ^ esReferencedB =
      2 ^ esReferencedB - 1 := by decide
  simp only [type, status, clearReferenced]
  rw [Nat.and_div_two_pow, Nat.and_mod_two_pow, hmask, Nat.and_two_pow_sub_one_eq_mod, Nat.mod_mod]

@[simp] theorem pblock_clearReferenced : es.clearReferenced.pblock = es.pblock := by
  have hmask : (2 ^ 64 - 1 - 2 ^ (esReferencedB + esShift)) % 2 ^ esShift = 2 ^ esShift - 1 := by
    decide
  simp only [pblock, clearReferenced]
  rw [Nat.and_mod_two_pow, hmask, Nat.and_two_pow_sub_one_eq_mod, Nat.mod_mod]

/-! ## Segments of changed extents -/

theorem isDelayed_congr (h : es₁.type = es₂.type) : es₁.isDelayed = es₂.isDelayed := by
  rw [isDelayed, isDelayed, h]

theorem attr_eq_of_shift (ht : es₂.type = es₁.type) (hl : es₂.lblk = es₁.lblk + d)
    (hb : es₂.lblk ≤ 2 ^ esShift)
    (hp : hasPblock es₁.type → es₂.pblock = (es₁.pblock + d) % 2 ^ esShift) :
    es₂.attr = es₁.attr := by
  rw [attr, attr, ht]
  by_cases h : hasPblock es₁.type = true
  · rw [if_pos h, if_pos h, hp h, hl]
    simp only [two_pow_esShift] at hb ⊢
    congr 2
    omega
  · rw [if_neg h, if_neg h]

theorem attr_eq_of_same (ht : es₂.type = es₁.type) (hl : es₂.lblk = es₁.lblk)
    (hp : hasPblock es₁.type → es₂.pblock = es₁.pblock) : es₂.attr = es₁.attr := by
  rw [attr, attr, ht, hl]
  by_cases h : hasPblock es₁.type = true
  · rw [if_pos h, if_pos h, hp h]
  · rw [if_neg h, if_neg h]

section

variable {fit : Prop} (h : es.Good fit)

include h

theorem Good.lblk_le : es.lblk ≤ 2 ^ esShift := by
  have := h.stop
  simp only [two_pow_esShift]
  omega

theorem Good.esEnd : es.esEnd = some (es.lblk + es.len - 1) := by
  have h₁ := h.pos
  have h₂ := h.stop
  rw [ExtentStatus.esEnd, wadd_of_lt h₂, if_neg (by omega), wsub_of_le (by omega) h₂]

theorem Good.inRange (b : ℕ) : es.inRange b = decide (es.lblk ≤ b ∧ b < es.lblk + es.len) := by
  have h₁ := h.pos
  have h₂ := h.stop
  rw [ExtentStatus.inRange, wadd_of_lt h₂, wsub_of_le (by omega) h₂, Bool.decide_and]
  congr 1
  simp only [decide_eq_decide]
  omega

end

end ExtentStatus

open ExtentStatus

variable {es es₁ es₂ : ExtentStatus} {n : Node} {fit : Prop} {last lblk : ℕ}

theorem canBeMerged_spec (h : canBeMerged es₁ es₂ = true) :
    es₁.type = es₂.type ∧ es₁.lblk + es₁.len = es₂.lblk ∧
      (hasPblock es₁.type → es₁.pblock + es₁.len = es₂.pblock) := by
  rw [canBeMerged] at h
  split_ifs at h with h₁ h₂ h₃ h₄ h₅
  · simp only [Bool.and_eq_true, decide_eq_true_eq] at h₄
    exact ⟨not_not.mp h₁, not_not.mp h₃, fun _ => h₄.2⟩
  · refine ⟨not_not.mp h₁, not_not.mp h₃, fun hp => ?_⟩
    rw [isHole] at h₅
    simp [hasPblock, h₅] at hp
  · refine ⟨not_not.mp h₁, not_not.mp h₃, fun hp => ?_⟩
    simp only [isDelayed, isUnwritten, Bool.and_eq_true, Bool.not_eq_true'] at h
    simp [hasPblock, h.1, h.2] at hp

theorem attr_of_canBeMerged (h : canBeMerged es₁ es₂ = true) (hg : es₂.Good fit) :
    es₁.attr = es₂.attr := by
  obtain ⟨ht, hl, hp⟩ := canBeMerged_spec h
  refine (attr_eq_of_shift ht.symm hl.symm hg.lblk_le fun hh => ?_).symm
  rw [hp hh, Nat.mod_eq_of_lt es₂.pblock_lt]

structure Joined (fit : Prop) (es₁ es₂ es : ExtentStatus) : Prop where
  touch : es₁.lblk + es₁.len = es₂.lblk
  same : es₁.attr = es₂.attr
  seg : es.seg = { es₁.seg with size := es₁.len + es₂.len }
  delayed : es.isDelayed = es₂.isDelayed ∧ es.isDelayed = es₁.isDelayed
  fits : fit → hasPblock es.type → es.pblock + es.len ≤ 2 ^ esShift

section

variable (h : canBeMerged es₁ es₂ = true) (h₂ : es₂.Good fit)

include h h₂

theorem joined_of_merge
    (hl : es.lblk = es₁.lblk) (hn : es.len = es₁.len + es₂.len) (ht : es.type = es₁.type)
    (hp : hasPblock es₁.type → es.pblock = es₁.pblock) : Joined fit es₁ es₂ es := by
  obtain ⟨htype, htouch, hpblock⟩ := canBeMerged_spec h
  refine ⟨htouch, attr_of_canBeMerged h h₂, ?_, ⟨isDelayed_congr (ht.trans htype),
    isDelayed_congr ht⟩, fun hf hh => ?_⟩
  · rw [ExtentStatus.seg, ExtentStatus.seg, hl, hn, attr_eq_of_same ht hl hp]
  · rw [ht] at hh
    have := h₂.fits hf (htype ▸ hh)
    have := hpblock hh
    rw [hp hh, hn]
    omega

theorem wadd_len : wadd 32 es₁.len es₂.len = es₁.len + es₂.len := by
  obtain ⟨-, htouch, -⟩ := canBeMerged_spec h
  have := h₂.stop
  exact wadd_of_lt (by omega)

end

section

variable (h : canBeMerged n.es es₂ = true) (h₂ : es₂.Good fit)

include h h₂

theorem Node.joined_absorb : Joined fit n.es es₂ (n.absorb es₂).es := by
  simp only [Node.absorb, wadd_len h h₂]
  split_ifs
  · exact joined_of_merge h h₂ rfl rfl type_setReferenced fun _ => pblock_setReferenced
  · exact joined_of_merge h h₂ rfl rfl rfl fun _ => rfl

theorem Node.joined_grown : Joined fit n.es es₂ { n.es with len := wadd 32 n.es.len es₂.len } := by
  rw [wadd_len h h₂]
  exact joined_of_merge h h₂ rfl rfl rfl fun _ => rfl

end

theorem written_of_hasPblock (h : hasPblock es.type = true) :
    (es.isWritten || es.isUnwritten) = true := by
  rw [hasPblock, Bool.and_eq_true, Bool.and_eq_true] at h
  exact h.1.1

theorem Node.joined_absorbFront (h : canBeMerged es₁ n.es = true) (h₂ : n.es.Good fit) :
    Joined fit es₁ n.es (n.absorbFront es₁).es := by
  obtain ⟨htype, -, -⟩ := canBeMerged_spec h
  simp only [Node.absorbFront, wadd, Nat.add_comm n.es.len es₁.len]
  rw [← wadd, wadd_len h h₂]
  split_ifs with hw
  · exact joined_of_merge h h₂ rfl rfl (type_storePblock.trans htype.symm) fun _ =>
      pblock_storePblock
  · refine joined_of_merge h h₂ rfl rfl htype.symm fun hh => ?_
    exact absurd (written_of_hasPblock (htype ▸ hh)) hw

/-! ## Cut extents -/

structure Part (fit : Prop) (es : ExtentStatus) (base size : ℕ) (es' : ExtentStatus) : Prop where
  seg : es'.seg = { es.seg with base := base, size := size }
  type : es'.type = es.type
  fits : fit → hasPblock es'.type → es'.pblock + es'.len ≤ 2 ^ esShift

theorem part_front (hg : es.Good fit) {size : ℕ} (hs : size ≤ es.len) :
    Part fit es es.lblk size { es with len := size } := by
  refine ⟨rfl, rfl, fun hf hh => ?_⟩
  have := hg.fits hf hh
  show es.pblock + size ≤ _
  omega

theorem part_tail (hg : es.Good fit) {es' : ExtentStatus} {size : ℕ} (hs : 0 < size)
    (hle : size ≤ es.len) (hl : es'.lblk = es.lblk + (es.len - size)) (hn : es'.len = size)
    (ht : es'.type = es.type)
    (hp : hasPblock es.type → es'.pblock = (es.pblock + (es.len - size)) % 2 ^ esShift) :
    Part fit es (es.lblk + (es.len - size)) size es' := by
  have hstop := hg.stop
  refine ⟨?_, ht, fun hf hh => ?_⟩
  · have hb : es'.lblk ≤ 2 ^ esShift := by
      simp only [two_pow_esShift]
      omega
    rw [ExtentStatus.seg, ExtentStatus.seg, attr_eq_of_shift ht hl hb hp, hl, hn]
  · rw [ht] at hh
    have := hg.fits hf hh
    rw [hp hh, hn, Nat.mod_eq_of_lt (by omega)]
    omega

theorem cut_pblock (hg : es.Good fit) {p size : ℕ} (hp : p % 2 ^ esShift = es.pblock)
    (hle : size ≤ es.len) : wsub 64 (wadd 64 p es.len) size % 2 ^ esShift =
      (es.pblock + (es.len - size)) % 2 ^ esShift := by
  have := hg.stop
  simp only [two_pow_esShift, wsub, wadd] at hp ⊢
  omega

variable {size : ℕ}

theorem Node.part_cutFront (hg : n.es.Good fit) (hs : 0 < size) (hle : size ≤ n.es.len)
    (hlast : last + 1 = n.es.lblk + (n.es.len - size)) :
    Part fit n.es (last + 1) size (n.cutFront last size).es := by
  have hstop := hg.stop
  have hadd : wadd 32 last 1 = last + 1 := wadd_of_lt (by omega)
  rw [hlast]
  simp only [Node.cutFront, hadd]
  split_ifs with hw
  · refine part_tail hg hs hle hlast rfl type_storePblock fun _ => ?_
    rw [pblock_storePblock, cut_pblock hg rfl hle]
  · exact part_tail hg hs hle hlast rfl rfl fun hh => absurd (written_of_hasPblock hh) hw

theorem part_splitTail (hg : es.Good fit) (hs : 0 < size) (hle : size ≤ es.len)
    (hlast : last + 1 = es.lblk + (es.len - size)) :
    Part fit es (last + 1) size (splitTail es last size) := by
  have hstop := hg.stop
  have hadd : wadd 32 last 1 = last + 1 := wadd_of_lt (by omega)
  rw [hlast]
  simp only [splitTail, hadd]
  refine part_tail hg hs hle hlast rfl type_storePblockStatus fun hh => ?_
  rw [pblock_storePblockStatus, if_pos (written_of_hasPblock hh),
    cut_pblock hg (Nat.mod_eq_of_lt es.pblock_lt) hle]

end Cupcake.Ext4
