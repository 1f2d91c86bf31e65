import Cupcake.Mtd.Ubi.Attach
import Mathlib

/-! Attaching gives the same result in every order of the scan: each logical eraseblock is
mapped to its elected block and every other block is erased. -/

namespace Cupcake.Ubi

open List Election Except

def Peb.Good (ubi : Device) (peb : Peb) : Prop :=
  peb.vidHdr.copyFlag = false ∨
    ubi.crc32 (ubi.readData peb.pnum peb.vidHdr.dataSize).2 = peb.vidHdr.dataCrc

instance (ubi : Device) : DecidablePred (Peb.Good ubi) :=
  fun _ => inferInstanceAs (Decidable (_ ∨ _))

def Peb.sqnum (peb : Peb) : ℕ := peb.vidHdr.sqnum

def Peb.leb (peb : Peb) : ℕ × ℕ := (peb.vidHdr.volId, peb.vidHdr.lnum)

def lebBlocks (s : Finset Peb) (leb : ℕ × ℕ) : Set Peb := {p | p ∈ s ∧ p.leb = leb}

def Chosen (ubi : Device) (s : Finset Peb) (leb : ℕ × ℕ) (peb : Peb) : Prop :=
  Elected (Peb.Good ubi) Peb.sqnum (lebBlocks s leb) peb

def lnums (s : Finset Peb) (volId : ℕ) : Finset ℕ :=
  (s.filter fun p => p.vidHdr.volId = volId).image fun p => p.vidHdr.lnum

def AttachInfo.leb (ai : AttachInfo) (leb : ℕ × ℕ) : Option AinfPeb :=
  (Table.find AinfVolume.volId leb.1 ai.volumes).bind fun av => Table.find AinfPeb.lnum leb.2 av.root

def AttachInfo.eraseCount (ai : AttachInfo) (pnum : ℕ) : ℕ :=
  (ai.erase.map ListPeb.pnum).count pnum

/-- The headers agree with each other, and a header that is read again is the same. -/
structure Consistent (ubi : Device) (s : Finset Peb) : Prop where
  pnums : Set.InjOn Peb.pnum s
  volumes : ∀ p ∈ s, ∀ q ∈ s, p.vidHdr.volId = q.vidHdr.volId →
    p.vidHdr.volType = q.vidHdr.volType ∧ p.vidHdr.usedEbs = q.vidHdr.usedEbs ∧
      p.vidHdr.dataPad = q.vidHdr.dataPad
  sqnums : ∀ leb, Set.InjOn Peb.sqnum (lebBlocks s leb)
  reads : ∀ p ∈ s, (ubi.readVidHdr p.pnum).2 = p.vidHdr

/-- Reads return data, possibly with bit-flips or an ECC error. -/
def Readable (ubi : Device) (s : Finset Peb) : Prop :=
  ∀ p ∈ s, ((ubi.readVidHdr p.pnum).1 = .ok ∨ (ubi.readVidHdr p.pnum).1 = .bitflips) ∧
    ∀ err, (ubi.readData p.pnum p.vidHdr.dataSize).1 ≠ .failed err

/-- The attaching information describes a set of blocks. -/
structure Attached (ubi : Device) (s : Finset Peb) (ai : AttachInfo) : Prop where
  mapped : ∀ p ∈ s, ∃ q, Chosen ubi s p.leb q ∧ ∃ scrub, ai.leb p.leb = some (q.toAinfPeb scrub)
  unmapped : ∀ leb, (∀ p ∈ s, p.leb ≠ leb) → ai.leb leb = none
  kept : ∀ p ∈ s, Chosen ubi s p.leb p → ai.eraseCount p.pnum = 0
  erased : ∀ p ∈ s, ¬Chosen ubi s p.leb p → ai.eraseCount p.pnum = 1
  listed : ∀ e ∈ ai.erase, ∃ p ∈ s, e = p.toListPeb
  volumes : ∀ volId, (∃ p ∈ s, p.vidHdr.volId = volId) ↔
    ∃ av, Table.find AinfVolume.volId volId ai.volumes = some av
  counts : ∀ volId av, Table.find AinfVolume.volId volId ai.volumes = some av →
    av.lebCount = (lnums s volId).card ∧ av.highestLnum = (lnums s volId).sup id
  maxSqnum : ai.maxSqnum = s.sup Peb.sqnum

section blocks

variable {ubi : Device} {s : Finset Peb} {p q : Peb} {leb : ℕ × ℕ} {volId : ℕ}

theorem lebBlocks_insert_self : lebBlocks (insert p s) p.leb = insert p (lebBlocks s p.leb) := by
  ext q
  constructor
  · rintro ⟨hq, hleb⟩
    rcases Finset.mem_insert.mp hq with rfl | hq
    · exact Set.mem_insert q _
    · exact Set.mem_insert_of_mem p ⟨hq, hleb⟩
  · rintro (rfl | ⟨hq, hleb⟩)
    · exact ⟨Finset.mem_insert_self q s, rfl⟩
    · exact ⟨Finset.mem_insert_of_mem hq, hleb⟩

theorem lebBlocks_insert_of_ne (h : p.leb ≠ leb) : lebBlocks (insert p s) leb = lebBlocks s leb := by
  ext q
  constructor
  · rintro ⟨hq, hleb⟩
    rcases Finset.mem_insert.mp hq with rfl | hq
    · exact absurd hleb h
    · exact ⟨hq, hleb⟩
  · rintro ⟨hq, hleb⟩
    exact ⟨Finset.mem_insert_of_mem hq, hleb⟩

theorem lnums_insert_self :
    lnums (insert p s) p.vidHdr.volId = insert p.vidHdr.lnum (lnums s p.vidHdr.volId) := by
  rw [lnums, Finset.filter_insert, if_pos rfl, Finset.image_insert]
  rfl

theorem lnums_insert_of_ne (h : p.vidHdr.volId ≠ volId) : lnums (insert p s) volId = lnums s volId := by
  rw [lnums, Finset.filter_insert, if_neg h]
  rfl

theorem mem_lnums {lnum : ℕ} : lnum ∈ lnums s volId ↔ (lebBlocks s (volId, lnum)).Nonempty := by
  constructor
  · intro h
    obtain ⟨q, hq, rfl⟩ := Finset.mem_image.mp h
    obtain ⟨hmem, rfl⟩ := Finset.mem_filter.mp hq
    exact ⟨q, hmem, rfl⟩
  · rintro ⟨q, hq, hleb⟩
    obtain ⟨rfl, rfl⟩ := Prod.mk.inj hleb
    exact Finset.mem_image.mpr ⟨q, Finset.mem_filter.mpr ⟨hq, rfl⟩, rfl⟩

theorem Consistent.mono {t : Finset Peb} (h : Consistent ubi t) (hst : s ⊆ t) : Consistent ubi s where
  pnums := h.pnums.mono (by exact_mod_cast hst)
  volumes p hp q hq := h.volumes p (hst hp) q (hst hq)
  sqnums leb := (h.sqnums leb).mono fun _ hp => And.intro (hst hp.1) hp.2
  reads p hp := h.reads p (hst hp)

end blocks

section compare

variable {ubi : Device} {p q : Peb}

theorem checkCopy_newer {secondIsNewer bitflips : Bool} {r : CmpRes} (hcopy : p.vidHdr.copyFlag = true)
    (h : checkCopy ubi p.pnum p.vidHdr secondIsNewer bitflips = .ok r) :
    r.secondIsNewer = if p.Good ubi then secondIsNewer else !secondIsNewer := by
  have hgood : p.Good ubi ↔
      ubi.crc32 (ubi.readData p.pnum p.vidHdr.dataSize).2 = p.vidHdr.dataCrc := by
    simp [Peb.Good, hcopy]
  rw [checkCopy] at h
  rcases hread : ubi.readData p.pnum p.vidHdr.dataSize with ⟨status, buf⟩
  rw [hread] at hgood h
  have hfinish {err : Bool} (h : (if ubi.crc32 buf ≠ p.vidHdr.dataCrc then
      ok ⟨!secondIsNewer, false, true⟩ else
      .ok ⟨secondIsNewer, bitflips || err, false⟩ : Except Errno CmpRes) = .ok r) :
      r.secondIsNewer = if p.Good ubi then secondIsNewer else !secondIsNewer := by
    by_cases hcrc : ubi.crc32 buf = p.vidHdr.dataCrc
    · rw [if_neg (not_not_intro hcrc)] at h
      rw [if_pos (hgood.mpr hcrc), ← ok.inj h]
    · rw [if_pos hcrc] at h
      rw [if_neg fun hg => hcrc (hgood.mp hg), ← ok.inj h]
  cases status with
  | ok => exact hfinish h
  | bitflips => exact hfinish h
  | eccerr => exact hfinish h
  | failed err => cases h

theorem checkCopy_ok (secondIsNewer bitflips : Bool)
    (hread : ∀ err, (ubi.readData p.pnum p.vidHdr.dataSize).1 ≠ .failed err) :
    ∃ r, checkCopy ubi p.pnum p.vidHdr secondIsNewer bitflips = .ok r := by
  rw [checkCopy]
  rcases hdata : ubi.readData p.pnum p.vidHdr.dataSize with ⟨status, buf⟩
  have hfinish (err : Bool) : ∃ r, (if ubi.crc32 buf ≠ p.vidHdr.dataCrc then
      ok ⟨!secondIsNewer, false, true⟩ else
      .ok ⟨secondIsNewer, bitflips || err, false⟩ : Except Errno CmpRes) = .ok r := by
    split_ifs <;> exact ⟨_, rfl⟩
  cases status with
  | ok => exact hfinish false
  | bitflips => exact hfinish true
  | eccerr => exact hfinish true
  | failed err => exact absurd (congrArg Prod.fst hdata) (hread err)

theorem ubiCompareLebs_newer {scrub : Bool} {r : CmpRes}
    (hreads : (ubi.readVidHdr q.pnum).2 = q.vidHdr)
    (h : ubiCompareLebs ubi (q.toAinfPeb scrub) p.pnum p.vidHdr = .ok r) :
    contest (Peb.Good ubi) Peb.sqnum q p = if r.secondIsNewer then p else q := by
  unfold ubiCompareLebs at h
  unfold contest
  by_cases hsq : p.vidHdr.sqnum = (q.toAinfPeb scrub).sqnum
  · rw [if_pos hsq] at h
    cases h
  rw [if_neg hsq] at h
  by_cases hlt : (q.toAinfPeb scrub).sqnum < p.vidHdr.sqnum
  · rw [if_pos hlt] at h
    rw [if_pos (show q.sqnum < p.sqnum from hlt)]
    cases hcopy : p.vidHdr.copyFlag with
    | false =>
      rw [hcopy] at h
      rw [if_pos (show p.Good ubi from .inl hcopy), ← ok.inj h]
      rfl
    | true =>
      rw [hcopy] at h
      rw [checkCopy_newer hcopy h]
      by_cases hg : p.Good ubi
      · rw [if_pos hg, if_pos hg]
        rfl
      · rw [if_neg hg, if_neg hg]
        rfl
  · rw [if_neg hlt] at h
    rw [if_neg (show ¬q.sqnum < p.sqnum from hlt)]
    cases hcopy : q.vidHdr.copyFlag with
    | false =>
      rw [show (q.toAinfPeb scrub).copyFlag = false from hcopy] at h
      rw [if_pos (show q.Good ubi from .inl hcopy), ← ok.inj h]
      rfl
    | true =>
      rw [show (q.toAinfPeb scrub).copyFlag = true from hcopy] at h
      have hchecked {bitflips : Bool} (h : checkCopy ubi q.pnum q.vidHdr false bitflips = .ok r) :
          (if q.Good ubi then q else p) = if r.secondIsNewer then p else q := by
        rw [checkCopy_newer hcopy h]
        by_cases hg : q.Good ubi
        · rw [if_pos hg, if_pos hg]
          rfl
        · rw [if_neg hg, if_neg hg]
          rfl
      rcases hread : ubi.readVidHdr q.pnum with ⟨status, vh⟩
      obtain rfl : vh = q.vidHdr := (congrArg Prod.snd hread).symm.trans hreads
      rw [show (q.toAinfPeb scrub).pnum = q.pnum from rfl, hread] at h
      cases status with
      | ok => exact hchecked h
      | bitflips => exact hchecked h
      | bad => cases h
      | failed err => cases h

theorem ubiCompareLebs_ok (scrub : Bool) (hsq : p.sqnum ≠ q.sqnum)
    (hreads : (ubi.readVidHdr q.pnum).2 = q.vidHdr)
    (hvid : (ubi.readVidHdr q.pnum).1 = .ok ∨ (ubi.readVidHdr q.pnum).1 = .bitflips)
    (hp : ∀ err, (ubi.readData p.pnum p.vidHdr.dataSize).1 ≠ .failed err)
    (hq : ∀ err, (ubi.readData q.pnum q.vidHdr.dataSize).1 ≠ .failed err) :
    ∃ r, ubiCompareLebs ubi (q.toAinfPeb scrub) p.pnum p.vidHdr = .ok r := by
  unfold ubiCompareLebs
  rw [if_neg (show ¬p.vidHdr.sqnum = (q.toAinfPeb scrub).sqnum from hsq)]
  split_ifs
  · exact ⟨_, rfl⟩
  · exact checkCopy_ok true false hp
  · exact ⟨_, rfl⟩
  · rcases hread : ubi.readVidHdr q.pnum with ⟨status, vh⟩
    obtain rfl : vh = q.vidHdr := (congrArg Prod.snd hread).symm.trans hreads
    rw [show (q.toAinfPeb scrub).pnum = q.pnum from rfl, hread]
    rw [hread] at hvid
    rcases hvid with rfl | rfl
    · exact checkCopy_ok false false hq
    · exact checkCopy_ok false true hq

end compare

section addVolume

variable {ai : AttachInfo} {vidHdr : VidHdr}

theorem find_addVolume (volId : ℕ) :
    Table.find AinfVolume.volId volId (addVolume ai vidHdr).2.volumes =
      if volId = vidHdr.volId then some (addVolume ai vidHdr).1
      else Table.find AinfVolume.volId volId ai.volumes := by
  unfold addVolume
  cases hf : Table.find AinfVolume.volId vidHdr.volId ai.volumes with
  | some av =>
    by_cases h : volId = vidHdr.volId
    · rw [if_pos h, h]
      exact hf
    · rw [if_neg h]
  | none => exact Table.find_insert (a := newVolume vidHdr) hf volId

theorem find_root_addVolume (lnum : ℕ) :
    Table.find AinfPeb.lnum lnum (addVolume ai vidHdr).1.root = ai.leb (vidHdr.volId, lnum) := by
  unfold addVolume AttachInfo.leb
  cases hf : Table.find AinfVolume.volId vidHdr.volId ai.volumes with
  | some av => rfl
  | none => rfl

@[simp] theorem erase_addVolume : (addVolume ai vidHdr).2.erase = ai.erase := by
  unfold addVolume
  cases Table.find AinfVolume.volId vidHdr.volId ai.volumes with
  | some av => rfl
  | none => rfl

@[simp] theorem maxSqnum_addVolume : (addVolume ai vidHdr).2.maxSqnum = ai.maxSqnum := by
  unfold addVolume
  cases Table.find AinfVolume.volId vidHdr.volId ai.volumes with
  | some av => rfl
  | none => rfl

end addVolume

structure Inv (ubi : Device) (s : Finset Peb) (ai : AttachInfo) : Prop where
  mapped : ∀ leb, ai.leb leb = none ∧ lebBlocks s leb = ∅ ∨
    ∃ q scrub, ai.leb leb = some (q.toAinfPeb scrub) ∧ Chosen ubi s leb q
  erased : ∀ p ∈ s, ai.eraseCount p.pnum =
    if (ai.leb p.leb).map AinfPeb.pnum = some p.pnum then 0 else 1
  listed : ∀ e ∈ ai.erase, ∃ p ∈ s, e = p.toListPeb
  absent : ∀ volId, Table.find AinfVolume.volId volId ai.volumes = none →
    ∀ p ∈ s, p.vidHdr.volId ≠ volId
  volume : ∀ volId av, Table.find AinfVolume.volId volId ai.volumes = some av →
    av.lebCount = (lnums s volId).card ∧ av.highestLnum = (lnums s volId).sup id ∧
    ∃ p ∈ s, p.vidHdr.volId = volId ∧ av.volType = p.vidHdr.volType ∧
      av.usedEbs = p.vidHdr.usedEbs ∧ av.dataPad = p.vidHdr.dataPad
  maxSqnum : ai.maxSqnum = s.sup Peb.sqnum

section step

variable {ubi : Device} {s : Finset Peb} {p q : Peb} {ai ai' : AttachInfo}

structure VolumeFor (s : Finset Peb) (p : Peb) (av : AinfVolume) : Prop where
  volId : av.volId = p.vidHdr.volId
  lebCount : av.lebCount = (lnums s p.vidHdr.volId).card
  highestLnum : av.highestLnum = (lnums s p.vidHdr.volId).sup id
  volType : av.volType = p.vidHdr.volType
  usedEbs : av.usedEbs = p.vidHdr.usedEbs
  dataPad : av.dataPad = p.vidHdr.dataPad

theorem Inv.volumeFor (h : Inv ubi s ai) (hc : Consistent ubi (insert p s)) :
    VolumeFor s p (addVolume ai p.vidHdr).1 := by
  unfold addVolume
  cases hf : Table.find AinfVolume.volId p.vidHdr.volId ai.volumes with
  | some av =>
    obtain ⟨hcount, hhigh, q, hq, hvol, htype, hused, hpad⟩ := h.volume _ av hf
    obtain ⟨htype', hused', hpad'⟩ := hc.volumes q (Finset.mem_insert_of_mem hq) p
      (Finset.mem_insert_self p s) hvol
    exact ⟨(Table.find_some hf).2, hcount, hhigh, htype.trans htype', hused.trans hused',
      hpad.trans hpad'⟩
  | none =>
    have hempty : lnums s p.vidHdr.volId = ∅ := by
      rw [lnums, Finset.filter_false_of_mem (h.absent _ hf)]
      rfl
    exact ⟨rfl, by rw [hempty]; rfl, by rw [hempty]; rfl, rfl, rfl, rfl⟩

theorem VolumeFor.validate {av : AinfVolume} (h : VolumeFor s p av) :
    validateVidHdr p.vidHdr av = .ok () := by
  simp [validateVidHdr, h.volId, h.volType, h.usedEbs, h.dataPad]

theorem find_updated {f : AinfVolume → AinfVolume} (hf : ∀ av, (f av).volId = av.volId) (volId : ℕ) :
    Table.find AinfVolume.volId volId
        (Table.update AinfVolume.volId p.vidHdr.volId f (addVolume ai p.vidHdr).2.volumes) =
      if volId = p.vidHdr.volId then some (f (addVolume ai p.vidHdr).1)
      else Table.find AinfVolume.volId volId ai.volumes := by
  rw [Table.find_update fun av hav => (hf av).trans hav, find_addVolume, find_addVolume, if_pos rfl,
    Option.map_some]
  split_ifs <;> rfl

theorem Inv.eraseCount_eq_zero (h : Inv ubi s ai) (hc : Consistent ubi (insert p s)) (hp : p ∉ s) :
    ai.eraseCount p.pnum = 0 := by
  refine count_eq_zero.mpr fun hmem => ?_
  obtain ⟨e, he, hpnum⟩ := mem_map.mp hmem
  obtain ⟨q, hq, rfl⟩ := h.listed e he
  have hqp : q = p := hc.pnums (Finset.mem_coe.mpr (Finset.mem_insert_of_mem hq))
    (Finset.mem_coe.mpr (Finset.mem_insert_self p s)) hpnum
  exact hp (hqp ▸ hq)

/-- What a step leaves behind: only the volume of the block has changed, and in it only the
logical eraseblock of the block. -/
structure Entered (ubi : Device) (s : Finset Peb) (p : Peb) (ai ai' : AttachInfo)
    (av av' : AinfVolume) : Prop where
  find : ∀ volId, Table.find AinfVolume.volId volId ai'.volumes =
    if volId = p.vidHdr.volId then some av' else Table.find AinfVolume.volId volId ai.volumes
  other : ∀ lnum, lnum ≠ p.vidHdr.lnum →
    Table.find AinfPeb.lnum lnum av'.root = Table.find AinfPeb.lnum lnum av.root
  lebCount : av'.lebCount = (lnums (insert p s) p.vidHdr.volId).card
  highestLnum : av'.highestLnum = (lnums (insert p s) p.vidHdr.volId).sup id
  volType : av'.volType = av.volType
  usedEbs : av'.usedEbs = av.usedEbs
  dataPad : av'.dataPad = av.dataPad
  maxSqnum : ai'.maxSqnum = (insert p s).sup Peb.sqnum

theorem Entered.leb {av' : AinfVolume} (h : Entered ubi s p ai ai' (addVolume ai p.vidHdr).1 av')
    (leb : ℕ × ℕ) : ai'.leb leb =
      if leb = p.leb then Table.find AinfPeb.lnum p.vidHdr.lnum av'.root else ai.leb leb := by
  obtain ⟨volId, lnum⟩ := leb
  rw [AttachInfo.leb, h.find]
  by_cases hv : volId = p.vidHdr.volId
  · rw [if_pos hv, Option.bind_some]
    by_cases hl : lnum = p.vidHdr.lnum
    · rw [if_pos (Prod.ext hv hl), hl]
    · have hne : (volId, lnum) ≠ p.leb := fun he => hl (congrArg Prod.snd he)
      rw [if_neg hne, h.other lnum hl, find_root_addVolume, hv]
  · have hne : (volId, lnum) ≠ p.leb := fun he => hv (congrArg Prod.fst he)
    rw [if_neg hv, if_neg hne]
    rfl

theorem Inv.enter (h : Inv ubi s ai) (hc : Consistent ubi (insert p s)) {av' : AinfVolume}
    (he : Entered ubi s p ai ai' (addVolume ai p.vidHdr).1 av') {w : Peb} {scrub : Bool}
    (hroot : Table.find AinfPeb.lnum p.vidHdr.lnum av'.root = some (w.toAinfPeb scrub))
    (hw : Chosen ubi (insert p s) p.leb w)
    (hlisted : ∀ e ∈ ai'.erase, e ∈ ai.erase ∨ ∃ x ∈ insert p s, e = x.toListPeb)
    (hsame : ∀ x ∈ insert p s, x.leb = p.leb →
      ai'.eraseCount x.pnum = if w.pnum = x.pnum then 0 else 1)
    (hother : ∀ x ∈ s, x.leb ≠ p.leb → ai'.eraseCount x.pnum = ai.eraseCount x.pnum) :
    Inv ubi (insert p s) ai' where
  mapped leb := by
    rw [he.leb]
    by_cases hl : leb = p.leb
    · rw [if_pos hl, hl]
      exact .inr ⟨w, scrub, hroot, hw⟩
    · unfold Chosen
      rw [if_neg hl, lebBlocks_insert_of_ne (Ne.symm hl)]
      exact h.mapped leb
  erased x hx := by
    rw [he.leb]
    by_cases hl : x.leb = p.leb
    · rw [if_pos hl, hroot, hsame x hx hl]
      simp [Peb.toAinfPeb]
    · have hxs : x ∈ s := Finset.mem_of_mem_insert_of_ne hx fun hxp => hl (congrArg Peb.leb hxp)
      rw [if_neg hl, hother x hxs hl]
      exact h.erased x hxs
  listed e hmem := by
    rcases hlisted e hmem with he | he
    · obtain ⟨x, hx, rfl⟩ := h.listed e he
      exact ⟨x, Finset.mem_insert_of_mem hx, rfl⟩
    · exact he
  absent volId hf x hx := by
    rw [he.find] at hf
    split_ifs at hf with hv
    rcases Finset.mem_insert.mp hx with rfl | hx
    · exact Ne.symm hv
    · exact h.absent volId hf x hx
  volume volId av hf := by
    rw [he.find] at hf
    have hfor := h.volumeFor hc
    by_cases hv : volId = p.vidHdr.volId
    · rw [if_pos hv] at hf
      obtain rfl := Option.some.inj hf
      rw [hv]
      exact ⟨he.lebCount, he.highestLnum, p, Finset.mem_insert_self p s, rfl,
        he.volType.trans hfor.volType, he.usedEbs.trans hfor.usedEbs, he.dataPad.trans hfor.dataPad⟩
    · rw [if_neg hv] at hf
      obtain ⟨hcount, hhigh, x, hx, hrest⟩ := h.volume volId av hf
      rw [lnums_insert_of_ne (Ne.symm hv)]
      exact ⟨hcount, hhigh, x, Finset.mem_insert_of_mem hx, hrest⟩
  maxSqnum := he.maxSqnum

theorem Inv.maxSqnum_noteSqnum (h : Inv ubi s ai) :
    (noteSqnum (addVolume ai p.vidHdr).2 p.vidHdr.sqnum).maxSqnum = (insert p s).sup Peb.sqnum := by
  rw [Finset.sup_insert, ← h.maxSqnum]
  show (if (addVolume ai p.vidHdr).2.maxSqnum < p.sqnum then p.sqnum
    else (addVolume ai p.vidHdr).2.maxSqnum) = max p.sqnum ai.maxSqnum
  rw [maxSqnum_addVolume]
  split_ifs with hlt
  · exact (max_eq_left hlt.le).symm
  · exact (max_eq_right (not_lt.mp hlt)).symm

theorem Inv.link (h : Inv ubi s ai) (hc : Consistent ubi (insert p s)) (hp : p ∉ s)
    (hleb : ai.leb p.leb = none) :
    Inv ubi (insert p s) ((noteSqnum (addVolume ai p.vidHdr).2 p.vidHdr.sqnum).updateVolume
      p.vidHdr.volId (linkLeb p)) := by
  have hempty : lebBlocks s p.leb = ∅ := by
    rcases h.mapped p.leb with ⟨-, he⟩ | ⟨q, scrub, hq, -⟩
    · exact he
    · rw [hleb] at hq
      cases hq
  have hfor := h.volumeFor hc
  have hnotin : p.vidHdr.lnum ∉ lnums s p.vidHdr.volId := fun hm =>
    (mem_lnums.mp hm).ne_empty hempty
  have habsent : Table.find AinfPeb.lnum (p.toAinfPeb p.bitflips).lnum
      (addVolume ai p.vidHdr).1.root = none := (find_root_addVolume _).trans hleb
  have hentered : Entered ubi s p ai ((noteSqnum (addVolume ai p.vidHdr).2 p.vidHdr.sqnum).updateVolume
      p.vidHdr.volId (linkLeb p)) (addVolume ai p.vidHdr).1 (linkLeb p (addVolume ai p.vidHdr).1) := by
    refine ⟨find_updated (f := linkLeb p) fun _ => rfl, fun lnum hl => ?_, ?_, ?_, rfl, rfl, rfl,
      h.maxSqnum_noteSqnum⟩
    · exact (Table.find_insert habsent lnum).trans (if_neg hl)
    · rw [lnums_insert_self, Finset.card_insert_of_notMem hnotin, ← hfor.lebCount]
      rfl
    · rw [lnums_insert_self, Finset.sup_insert, ← hfor.highestLnum]
      show (if _ ≤ p.vidHdr.lnum then p.vidHdr.lnum else _) = max p.vidHdr.lnum _
      split_ifs with hle
      · exact (max_eq_left hle).symm
      · exact (max_eq_right (not_le.mp hle).le).symm
  have herase : ((noteSqnum (addVolume ai p.vidHdr).2 p.vidHdr.sqnum).updateVolume
      p.vidHdr.volId (linkLeb p)).erase = ai.erase := erase_addVolume
  refine h.enter hc hentered (w := p) ((Table.find_insert habsent _).trans (if_pos rfl)) ?_ ?_ ?_ ?_
  · unfold Chosen
    rw [lebBlocks_insert_self, hempty]
    simpa using elected_singleton p
  · rw [herase]
    exact fun e he => .inl he
  · intro x hx hl
    obtain rfl : x = p := by
      by_contra hxp
      have hmem : x ∈ lebBlocks s p.leb := ⟨Finset.mem_of_mem_insert_of_ne hx hxp, hl⟩
      rw [hempty] at hmem
      exact hmem
    rw [AttachInfo.eraseCount, herase, if_pos rfl]
    exact h.eraseCount_eq_zero hc hp
  · intro x hx hl
    rw [AttachInfo.eraseCount, herase]
    rfl

theorem Consistent.pnum_inj (hc : Consistent ubi s) {x y : Peb} (hx : x ∈ s) (hy : y ∈ s) :
    x.pnum = y.pnum ↔ x = y :=
  hc.pnums.eq_iff (Finset.mem_coe.mpr hx) (Finset.mem_coe.mpr hy)

theorem erase_addToErase_perm (peb : ListPeb) (toHead : Bool) :
    (addToErase ai peb toHead).erase.Perm (peb :: ai.erase) := by
  cases toHead with
  | true => exact .refl _
  | false => exact perm_append_singleton peb ai.erase

section

variable (h : Inv ubi s ai) (hc : Consistent ubi (insert p s))

include h hc

theorem Inv.resolve (hp : p ∉ s) {scrub scrub' : Bool}
    (hleb : ai.leb p.leb = some (q.toAinfPeb scrub)) (hq : q ∈ lebBlocks s p.leb) {w y : Peb}
    (hwy : w = p ∧ y = q ∨ w = q ∧ y = p) (hw : Chosen ubi (insert p s) p.leb w) {av' : AinfVolume}
    (he : Entered ubi s p ai ai' (addVolume ai p.vidHdr).1 av')
    (hroot : Table.find AinfPeb.lnum p.vidHdr.lnum av'.root = some (w.toAinfPeb scrub'))
    (herase : ai'.erase.Perm (y.toListPeb :: ai.erase)) : Inv ubi (insert p s) ai' := by
  obtain ⟨hqs, hql⟩ := hq
  have hps := Finset.mem_insert_self p s
  have hqps := Finset.mem_insert_of_mem (b := p) hqs
  have hpq : p ≠ q := fun hpq => hp (hpq ▸ hqs)
  obtain ⟨hys, hyl⟩ : y ∈ insert p s ∧ y.leb = p.leb := by
    rcases hwy with ⟨-, rfl⟩ | ⟨-, rfl⟩
    · exact ⟨hqps, hql⟩
    · exact ⟨hps, rfl⟩
  have hws : w ∈ insert p s := hw.mem.1
  have hcount (x : Peb) (hx : x ∈ insert p s) :
      ai'.eraseCount x.pnum = ai.eraseCount x.pnum + if y = x then 1 else 0 := by
    rw [AttachInfo.eraseCount, (herase.map _).count_eq, map_cons, count_cons]
    simp [Peb.toListPeb, AttachInfo.eraseCount, hc.pnum_inj hys hx]
  refine h.enter hc he hroot hw ?_ ?_ ?_
  · intro e hmem
    rcases mem_cons.mp (herase.mem_iff.mp hmem) with rfl | hmem
    · exact .inr ⟨y, hys, rfl⟩
    · exact .inl hmem
  · intro x hx hl
    have hbefore : ai.eraseCount x.pnum = if p = x ∨ q = x then 0 else 1 := by
      rcases Finset.mem_insert.mp hx with rfl | hxs
      · rw [if_pos (.inl rfl), h.eraseCount_eq_zero hc hp]
      · have hpx : p ≠ x := fun hpx => hp (hpx ▸ hxs)
        rw [h.erased x hxs, hl, hleb]
        simp [Peb.toAinfPeb, hc.pnum_inj hqps hx, hpx]
    simp only [hcount x hx, hbefore, hc.pnum_inj hws hx]
    rcases hwy with ⟨rfl, rfl⟩ | ⟨rfl, rfl⟩
    · by_cases h₁ : w = x
      · subst h₁
        simp [hpq.symm]
      · by_cases h₂ : y = x <;> simp [h₁, h₂]
    · by_cases h₁ : y = x
      · subst h₁
        simp [hpq.symm]
      · by_cases h₂ : w = x <;> simp [h₁, h₂]
  · intro x hx hl
    have hyx : y ≠ x := fun hyx => hl (hyx ▸ hyl)
    rw [hcount x (Finset.mem_insert_of_mem hx), if_neg hyx, add_zero]

theorem entered_of_present (hq : q ∈ lebBlocks s p.leb) {av' : AinfVolume}
    (hfind : ∀ volId, Table.find AinfVolume.volId volId ai'.volumes =
      if volId = p.vidHdr.volId then some av' else Table.find AinfVolume.volId volId ai.volumes)
    (hother : ∀ lnum, lnum ≠ p.vidHdr.lnum → Table.find AinfPeb.lnum lnum av'.root =
      Table.find AinfPeb.lnum lnum (addVolume ai p.vidHdr).1.root)
    (hcount : av'.lebCount = (addVolume ai p.vidHdr).1.lebCount)
    (hhigh : av'.highestLnum = (addVolume ai p.vidHdr).1.highestLnum)
    (htype : av'.volType = (addVolume ai p.vidHdr).1.volType)
    (hused : av'.usedEbs = (addVolume ai p.vidHdr).1.usedEbs)
    (hpad : av'.dataPad = (addVolume ai p.vidHdr).1.dataPad)
    (hmax : ai'.maxSqnum = (noteSqnum (addVolume ai p.vidHdr).2 p.vidHdr.sqnum).maxSqnum) :
    Entered ubi s p ai ai' (addVolume ai p.vidHdr).1 av' := by
  have hfor := h.volumeFor hc
  have hmem : p.vidHdr.lnum ∈ lnums s p.vidHdr.volId := mem_lnums.mpr ⟨q, hq⟩
  have hlnums : lnums (insert p s) p.vidHdr.volId = lnums s p.vidHdr.volId := by
    rw [lnums_insert_self, Finset.insert_eq_of_mem hmem]
  refine ⟨hfind, hother, ?_, ?_, htype, hused, hpad, hmax.trans h.maxSqnum_noteSqnum⟩
  · rw [hlnums, hcount, hfor.lebCount]
  · rw [hlnums, hhigh, hfor.highestLnum]

theorem Inv.step (hp : p ∉ s) (hs : ubiAddToAv ubi ai p = .ok ai') : Inv ubi (insert p s) ai' := by
  have hvalid := (h.volumeFor hc).validate
  rw [ubiAddToAv] at hs
  rw [find_root_addVolume] at hs
  rcases h.mapped p.leb with ⟨hnone, -⟩ | ⟨q, scrub, hsome, hq⟩
  · rw [show ai.leb (p.vidHdr.volId, p.vidHdr.lnum) = none from hnone] at hs
    dsimp only at hs
    rw [hvalid, ok_bind] at hs
    obtain rfl := ok.inj hs
    exact h.link hc hp hnone
  rw [show ai.leb (p.vidHdr.volId, p.vidHdr.lnum) = _ from hsome] at hs
  dsimp only at hs
  split_ifs at hs with hsq
  obtain ⟨r, hr, hs⟩ := bind_ok hs
  have hqs := hq.mem
  have hw : Chosen ubi (insert p s) p.leb (if r.secondIsNewer then p else q) := by
    rw [← ubiCompareLebs_newer (hc.reads q (Finset.mem_insert_of_mem hqs.1)) hr, Chosen,
      lebBlocks_insert_self]
    exact Elected.insert hq p
  cases hnewer : r.secondIsNewer with
  | true =>
    rw [hnewer] at hs hw
    rw [if_pos rfl, hvalid, ok_bind] at hs
    obtain rfl := ok.inj hs
    have hkey : ∀ a : AinfPeb, a.lnum = p.vidHdr.lnum →
        (p.toAinfPeb (r.bitflips || p.bitflips)).lnum = p.vidHdr.lnum := fun _ _ => rfl
    have hroot : Table.find AinfPeb.lnum p.vidHdr.lnum
        (replaceLeb p (r.bitflips || p.bitflips) (addVolume ai p.vidHdr).1).root =
          some (p.toAinfPeb (r.bitflips || p.bitflips)) := by
      refine (Table.find_update hkey _).trans ?_
      rw [if_pos rfl, find_root_addVolume]
      exact congrArg (Option.map _) hsome
    refine h.resolve hc hp hsome hqs (.inl ⟨rfl, rfl⟩) hw (entered_of_present h hc hqs
      (find_updated (f := replaceLeb p (r.bitflips || p.bitflips)) fun _ => rfl) ?_ rfl rfl rfl rfl
      rfl rfl) hroot ?_
    · intro lnum hl
      exact (Table.find_update hkey lnum).trans (if_neg hl)
    · exact (erase_addToErase_perm _ _).trans (.of_eq (congrArg _ erase_addVolume))
  | false =>
    rw [hnewer] at hs hw
    obtain rfl := ok.inj hs
    refine h.resolve hc hp hsome hqs (.inr ⟨rfl, rfl⟩) hw (entered_of_present h hc hqs
      find_addVolume (fun _ _ => rfl) rfl rfl rfl rfl rfl rfl) ((find_root_addVolume _).trans hsome) ?_
    exact (erase_addToErase_perm _ _).trans (.of_eq (congrArg _ erase_addVolume))

theorem Inv.ubiAddToAv_ok (hp : p ∉ s) (hr : Readable ubi (insert p s)) :
    ∃ ai', ubiAddToAv ubi ai p = .ok ai' := by
  have hvalid := (h.volumeFor hc).validate
  have hps := Finset.mem_insert_self p s
  rw [ubiAddToAv, find_root_addVolume]
  rcases h.mapped p.leb with ⟨hnone, -⟩ | ⟨q, scrub, hsome, hq⟩
  · rw [show ai.leb (p.vidHdr.volId, p.vidHdr.lnum) = none from hnone]
    dsimp only
    rw [hvalid, ok_bind]
    exact ⟨_, rfl⟩
  rw [show ai.leb (p.vidHdr.volId, p.vidHdr.lnum) = _ from hsome]
  have hqps := Finset.mem_insert_of_mem (b := p) hq.mem.1
  have hsq : p.sqnum ≠ q.sqnum := by
    intro heq
    have hpq : p = q := hc.sqnums p.leb ⟨hps, rfl⟩ ⟨hqps, hq.mem.2⟩ heq
    exact hp (hpq ▸ hq.mem.1)
  have hne : ¬((q.toAinfPeb scrub).sqnum = p.vidHdr.sqnum ∧ p.vidHdr.sqnum ≠ 0) :=
    fun heq => hsq heq.1.symm
  obtain ⟨r, hcmp⟩ := ubiCompareLebs_ok scrub hsq (hc.reads q hqps) (hr q hqps).1 (hr p hps).2
    (hr q hqps).2
  dsimp only
  rw [if_neg hne, hcmp, ok_bind]
  split_ifs
  · rw [hvalid, ok_bind]
    exact ⟨_, rfl⟩
  · exact ⟨_, rfl⟩

end

end step

section runs

variable {ubi : Device} {s : Finset Peb} {ai : AttachInfo}

theorem inv_empty : Inv ubi ∅ .empty where
  mapped leb := .inl ⟨rfl, Set.eq_empty_of_forall_notMem fun _ hp => Finset.notMem_empty _ hp.1⟩
  erased _ hp := absurd hp (Finset.notMem_empty _)
  listed _ he := absurd he not_mem_nil
  absent _ _ _ hp := absurd hp (Finset.notMem_empty _)
  volume _ _ hf := by cases hf
  maxSqnum := rfl

theorem Inv.scan (h : Inv ubi s ai) {order : List Peb} (hnodup : order.Nodup)
    (hnew : ∀ p ∈ order, p ∉ s) (hc : Consistent ubi (s ∪ order.toFinset)) :
    (∀ ai', order.foldlM (ubiAddToAv ubi) ai = .ok ai' → Inv ubi (s ∪ order.toFinset) ai') ∧
    (Readable ubi (s ∪ order.toFinset) → ∃ ai', order.foldlM (ubiAddToAv ubi) ai = .ok ai') := by
  induction order generalizing s ai with
  | nil =>
    rw [toFinset_nil, Finset.union_empty]
    refine ⟨fun ai' hrun => ?_, fun _ => ⟨ai, rfl⟩⟩
    obtain rfl := ok.inj hrun
    exact h
  | cons p order ih =>
    have hunion : s ∪ (p :: order).toFinset = insert p s ∪ order.toFinset := by
      rw [toFinset_cons, Finset.union_insert, Finset.insert_union]
    rw [hunion] at hc ⊢
    obtain ⟨hpo, hnodup⟩ := nodup_cons.mp hnodup
    have hp : p ∉ s := hnew p mem_cons_self
    have hnew' : ∀ q ∈ order, q ∉ insert p s := fun q hq hmem => by
      rcases Finset.mem_insert.mp hmem with rfl | hmem
      · exact hpo hq
      · exact hnew q (mem_cons_of_mem p hq) hmem
    have hcp := hc.mono (show insert p s ⊆ insert p s ∪ order.toFinset from Finset.subset_union_left)
    refine ⟨fun ai' hrun => ?_, fun hr => ?_⟩
    · obtain ⟨ai₁, hstep, hrun⟩ := bind_ok hrun
      exact (ih (h.step hcp hp hstep) hnodup hnew' hc).1 ai' hrun
    · obtain ⟨ai₁, hstep⟩ := h.ubiAddToAv_ok hcp hp fun q hq => hr q (Finset.mem_union_left _ hq)
      obtain ⟨ai', hrun⟩ := (ih (h.step hcp hp hstep) hnodup hnew' hc).2 hr
      refine ⟨ai', ?_⟩
      rw [foldlM_cons, hstep]
      exact hrun

theorem Inv.attached (h : Inv ubi s ai) (hc : Consistent ubi s) : Attached ubi s ai := by
  have hmapped (p : Peb) (hp : p ∈ s) :
      ∃ q, Chosen ubi s p.leb q ∧ ∃ scrub, ai.leb p.leb = some (q.toAinfPeb scrub) := by
    rcases h.mapped p.leb with ⟨-, hempty⟩ | ⟨q, scrub, hsome, hq⟩
    · exact absurd ⟨hp, rfl⟩ (Set.eq_empty_iff_forall_notMem.mp hempty p)
    · exact ⟨q, hq, scrub, hsome⟩
  have hcount (p : Peb) (hp : p ∈ s) : ai.eraseCount p.pnum = 0 ∧ Chosen ubi s p.leb p ∨
      ai.eraseCount p.pnum = 1 ∧ ¬Chosen ubi s p.leb p := by
    obtain ⟨q, hq, scrub, hsome⟩ := hmapped p hp
    rw [h.erased p hp, hsome]
    by_cases hqp : q = p
    · exact .inl ⟨if_pos (by rw [hqp]; rfl), hqp ▸ hq⟩
    · refine .inr ⟨if_neg fun he => hqp ?_, fun hp' => hqp (Elected.unique (hc.sqnums p.leb) hq hp')⟩
      exact (hc.pnum_inj hq.mem.1 hp).mp (Option.some.inj he)
  refine ⟨hmapped, fun leb hnone => ?_, fun p hp hch => ?_, fun p hp hch => ?_, h.listed,
    fun volId => ⟨?_, ?_⟩, fun volId av hf => ?_, h.maxSqnum⟩
  · rcases h.mapped leb with ⟨hnone, -⟩ | ⟨q, -, -, hq⟩
    · exact hnone
    · exact absurd hq.mem.2 (hnone q hq.mem.1)
  · exact (hcount p hp).elim (fun h => h.1) fun h => absurd hch h.2
  · exact (hcount p hp).elim (fun h => absurd h.2 hch) fun h => h.1
  · rintro ⟨p, hp, rfl⟩
    cases hf : Table.find AinfVolume.volId p.vidHdr.volId ai.volumes with
    | none => exact absurd rfl (h.absent _ hf p hp)
    | some av => exact ⟨av, rfl⟩
  · rintro ⟨av, hf⟩
    obtain ⟨-, -, p, hp, hvol, -⟩ := h.volume volId av hf
    exact ⟨p, hp, hvol⟩
  · exact ⟨(h.volume volId av hf).1, (h.volume volId av hf).2.1⟩

/-- Whatever the order of the scan, it attaches the set of blocks it has found, and it
succeeds if the reads do. -/
theorem attach_any_order {order : List Peb} (hnodup : order.Nodup)
    (hc : Consistent ubi order.toFinset) :
    (∀ ai, attach ubi order = .ok ai → Attached ubi order.toFinset ai) ∧
      (Readable ubi order.toFinset → ∃ ai, attach ubi order = .ok ai) := by
  have hscan := (show Inv ubi ∅ .empty from inv_empty).scan hnodup (fun p _ => Finset.notMem_empty p)
    (by rwa [Finset.empty_union])
  rw [Finset.empty_union] at hscan
  exact ⟨fun ai hrun => (hscan.1 ai hrun).attached hc, hscan.2⟩

end runs

def interruptedHdr (sqnum : ℕ) (copyFlag : Bool) : VidHdr where
  volType := .dynamic
  copyFlag := copyFlag
  compat := 0
  volId := 1
  lnum := 4
  dataSize := 2
  usedEbs := 0
  dataPad := 0
  dataCrc := 77
  sqnum := sqnum

def interruptedCopies : List Peb :=
  [⟨3, 10, interruptedHdr 9 true, false⟩, ⟨1, 12, interruptedHdr 5 false, false⟩,
    ⟨2, 11, interruptedHdr 7 true, false⟩]

def interruptedDevice : Device where
  readVidHdr pnum :=
    (.ok, if pnum = 3 then interruptedHdr 9 true else if pnum = 2 then interruptedHdr 7 true
      else interruptedHdr 5 false)
  readData _ _ := (.ok, [0, 0])
  crc32 _ := 0

theorem attach_interruptedCopies : ∃ ai, attach interruptedDevice interruptedCopies = .ok ai ∧
    Attached interruptedDevice interruptedCopies.toFinset ai ∧
    (ai.leb (1, 4)).map AinfPeb.pnum = some 1 ∧ ai.erase.map ListPeb.pnum = [2, 3] := by
  have hc : Consistent interruptedDevice interruptedCopies.toFinset := by
    have hpnum : ∀ p ∈ interruptedCopies.toFinset, ∀ q ∈ interruptedCopies.toFinset,
        p.pnum = q.pnum → p = q := by decide
    have hsqnum : ∀ p ∈ interruptedCopies.toFinset, ∀ q ∈ interruptedCopies.toFinset,
        p.sqnum = q.sqnum → p = q := by decide
    exact ⟨fun p hp q hq => hpnum p hp q hq, by decide, fun _ p hp q hq => hsqnum p hp.1 q hq.1,
      by decide⟩
  have hr : Readable interruptedDevice interruptedCopies.toFinset := by
    intro p hp
    exact ⟨.inl rfl, fun err he => by cases he⟩
  obtain ⟨ai, hai⟩ := (attach_any_order (by decide) hc).2 hr
  refine ⟨ai, hai, (attach_any_order (by decide) hc).1 ai hai, ?_⟩
  have heval : (attach interruptedDevice interruptedCopies).map (fun ai =>
      ((ai.leb (1, 4)).map AinfPeb.pnum, ai.erase.map ListPeb.pnum)) = .ok (some 1, [2, 3]) := by
    decide
  rw [hai] at heval
  exact ⟨congrArg Prod.fst (ok.inj heval), congrArg Prod.snd (ok.inj heval)⟩

end Cupcake.Ubi
