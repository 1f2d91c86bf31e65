import Cupcake.Lib.Except
import Cupcake.Lib.Bytes
import Cupcake.Selinux.Ebitmap.Words

/-! `ebitmap_read` and `ebitmap_write`: bitmaps in the bytes of a policy. -/

namespace Cupcake.Selinux

open EbitmapNode Bytes List

/-! ## Reading -/

def nextEntry (n : ℕ) (fp : List UInt8) : Except LoadError (ℕ × List UInt8) :=
  if n > fp.length then .error .einval else .ok (ofBytes (fp.take n), fp.drop n)

def EbitmapNode.loadMap (n : EbitmapNode) (startbit : ℕ) (map : BitVec 64) :
    Except LoadError EbitmapNode :=
  if map = 0 then .ok n else n.setMap startbit map

/-- The loop of `ebitmap_read` at the node `n`: that node and those behind it, and what is left
to read. -/
def readLoop (highbit : ℕ) : ℕ → ℕ → Option EbitmapNode → List UInt8 →
    Except LoadError (List EbitmapNode × List UInt8)
  | 0, _, cur, fp => .ok (cur.toList, fp)
  | count + 1, allocs, cur, fp => do
    let (startbit, fp) ← nextEntry 4 fp
    if startbit % 64 ≠ 0 ∨ startbit > highbit - 64 then .error .einval
    else
      match cur.filter (startbit < ·.startbit + ebitmapSize) with
      | some n =>
        if startbit ≤ n.startbit then .error .einval
        else do
          let (map, fp) ← nextEntry 8 fp
          let n ← n.loadMap startbit (BitVec.ofNat 64 map)
          readLoop highbit count allocs (some n) fp
      | none =>
        if allocs = 0 then .error .enomem
        else do
          let (map, fp) ← nextEntry 8 fp
          let n ← (zeroNode (startbit - startbit % ebitmapSize)).loadMap startbit
            (BitVec.ofNat 64 map)
          let (ns, fp) ← readLoop highbit count (allocs - 1) (some n) fp
          return (cur.toList ++ ns, fp)

def roundHighbit (highbit : ℕ) : ℕ :=
  (highbit + (ebitmapSize - 1)) % 2 ^ 32 - (highbit + (ebitmapSize - 1)) % 2 ^ 32 % ebitmapSize

/-- `ebitmap_read`: the bitmap and what is left to read. -/
def ebitmapRead (allocs : ℕ) (fp : List UInt8) : Except LoadError (Ebitmap × List UInt8) := do
  let (mapunit, fp) ← nextEntry 4 fp
  let (highbit, fp) ← nextEntry 4 fp
  let (count, fp) ← nextEntry 4 fp
  if mapunit ≠ 64 then .error .einval
  else if roundHighbit highbit = 0 then .ok (ebitmapInit, fp)
  else do
    let (ns, fp) ← readLoop (roundHighbit highbit) count allocs none fp
    return (⟨ns, roundHighbit highbit⟩, fp)

/-! ## Writing -/

/-- The rounds of the first loop of `ebitmap_write`: `count`, `last_bit` and `last_startbit`.
The bits are below `2 ^ 31`, where an `int` holds them. -/
def countStep : ℕ × ℕ × ℤ → ℕ → ℕ × ℕ × ℤ
  | (count, _, lastStartbit), bit =>
    let lastBit := (bit + 1 + 63) / 64 * 64 % 2 ^ 32
    if lastStartbit < (bit - bit % 64 : ℕ) then (count + 1, lastBit, (bit - bit % 64 : ℕ))
    else (count, lastBit, lastStartbit)

/-- The second loop of `ebitmap_write`: the start bits and maps it writes. -/
def mapLoop : BitVec 64 → ℤ → List ℕ → List (ℤ × BitVec 64)
  | map, lastStartbit, [] => if map ≠ 0 then [(lastStartbit, map)] else []
  | map, lastStartbit, bit :: bits =>
    if lastStartbit < (bit - bit % 64 : ℕ) then
      if map = 0 then mapLoop (1#64 <<< (bit % 64)) (bit - bit % 64 : ℕ) bits
      else (lastStartbit, map) :: mapLoop (0#64 ||| 1#64 <<< (bit % 64)) (bit - bit % 64 : ℕ) bits
    else mapLoop (map ||| 1#64 <<< (bit - lastStartbit).toNat) lastStartbit bits

def intMin : ℤ := -2 ^ 31

def ebitmapWrite (e : Ebitmap) : Option (List UInt8) := do
  let bits ← forEachPositiveBit e
  let (count, lastBit, _) := bits.foldl countStep (0, 0, -1)
  return toBytes 4 64 ++ toBytes 4 lastBit ++ toBytes 4 count ++
    (mapLoop 0 intMin bits).flatMap fun c => toBytes 4 (c.1 % 2 ^ 32).toNat ++ toBytes 8 c.2.toNat

/-! ## What is accepted -/

/-- The form that `ebitmap_cmp` and `ebitmap_contains` rely on. -/
def Ebitmap.WellFormed (e : Ebitmap) : Prop :=
  e.node.Pairwise (fun a b => a.startbit < b.startbit) ∧
    (∀ n ∈ e.node, ebitmapSize ∣ n.startbit ∧ ∃ i, n.maps i ≠ 0) ∧
    e.highbit = (e.node.getLast?.map (·.startbit + ebitmapSize)).getD 0

def entries : ℕ → List UInt8 → List (ℕ × BitVec 64)
  | 0, _ => []
  | count + 1, fp => (ofBytes (fp.take 4), BitVec.ofNat 64 (ofBytes ((fp.drop 4).take 8))) ::
      entries count (fp.drop 12)

def nodeStart (bit : ℕ) : ℕ := bit - bit % ebitmapSize

/-- Each node of a file has a bit, and one ends at the rounded `highbit`. -/
def FileWellFormed (fp : List UInt8) : Prop :=
  let highbit := roundHighbit (ofBytes ((fp.drop 4).take 4))
  let es := entries (ofBytes ((fp.drop 8).take 4)) (fp.drop 12)
  highbit = 0 ∨ (∀ c ∈ es, ∃ d ∈ es, nodeStart d.1 = nodeStart c.1 ∧ d.2 ≠ 0) ∧
    ∃ c ∈ es, nodeStart c.1 + ebitmapSize = highbit

structure Loaded (highbit : ℕ) (cur : Option EbitmapNode) (es : List (ℕ × BitVec 64))
    (ns : List EbitmapNode) : Prop where
  ge : ∀ n ∈ cur, ∀ m ∈ ns, n.startbit ≤ m.startbit
  increasing : ns.Pairwise (·.startbit < ·.startbit)
  form : ∀ n ∈ ns, ebitmapSize ∣ n.startbit ∧ n.startbit + ebitmapSize ≤ highbit
  starts : ∀ s, (∃ n ∈ ns, n.startbit = s) ↔
    (∃ n ∈ cur, n.startbit = s) ∨ ∃ c ∈ es, nodeStart c.1 = s
  full : ∀ s, (∃ n ∈ ns, n.startbit = s ∧ ∃ i, n.maps i ≠ 0) ↔
    (∃ n ∈ cur, n.startbit = s ∧ ∃ i, n.maps i ≠ 0) ∨ ∃ c ∈ es, nodeStart c.1 = s ∧ c.2 ≠ 0

variable {n : EbitmapNode} {ns : List EbitmapNode} {cur : Option EbitmapNode}
  {ws es : List (ℕ × BitVec 64)} {o b highbit count allocs : ℕ} {w : BitVec 64}
  {fp rest : List UInt8}

theorem nextEntry_ok {k v : ℕ} (h : nextEntry k fp = .ok (v, rest)) :
    v = ofBytes (fp.take k) ∧ rest = fp.drop k := by
  rw [nextEntry] at h
  split_ifs at h
  cases h
  exact ⟨rfl, rfl⟩

theorem loadMap_ok {n' : EbitmapNode} (h : n.loadMap o w = .ok n') :
    n'.startbit = n.startbit ∧ ((∃ i, n'.maps i ≠ 0) ↔ (∃ i, n.maps i ≠ 0) ∨ w ≠ 0) := by
  rw [loadMap] at h
  split_ifs at h with hw
  · cases h
    simp [hw]
  · rw [setMap] at h
    split_ifs at h with hi
    cases h
    refine ⟨rfl, iff_of_true ⟨⟨n.index o, hi⟩, ?_⟩ (.inr hw)⟩
    simpa using hw

theorem Loaded.keep {n' : EbitmapNode} (h : Loaded highbit (some n') es ns)
    (hs : n'.startbit = n.startbit) (hf : (∃ i, n'.maps i ≠ 0) ↔ (∃ i, n.maps i ≠ 0) ∨ w ≠ 0)
    (ho : nodeStart o = n.startbit) : Loaded highbit (some n) ((o, w) :: es) ns where
  ge := by simpa [hs] using h.ge
  increasing := h.increasing
  form := h.form
  starts s := by
    rw [h.starts]
    simp [hs, ho]
  full s := by
    rw [h.full]
    simp only [Option.mem_some_iff, exists_eq_left', hs, hf, exists_mem_cons_iff, ho, and_or_left,
      or_assoc]

theorem Loaded.opened {n' : EbitmapNode} (h : Loaded highbit (some n') es ns)
    (hcur : ∀ n ∈ cur, ebitmapSize ∣ n.startbit ∧ n.startbit + ebitmapSize ≤ highbit)
    (hlt : ∀ n ∈ cur, n.startbit < n'.startbit) (hs : n'.startbit = nodeStart o)
    (hf : (∃ i, n'.maps i ≠ 0) ↔ w ≠ 0) : Loaded highbit cur ((o, w) :: es) (cur.toList ++ ns) := by
  have hstarts : ∀ s, (∃ n ∈ cur.toList ++ ns, n.startbit = s) ↔
      (∃ n ∈ cur, n.startbit = s) ∨ ∃ c ∈ (o, w) :: es, nodeStart c.1 = s := by
    intro s
    have := h.starts s
    simp only [Option.mem_some_iff, exists_eq_left', hs] at this
    simp only [mem_append, or_and_right, exists_or, Option.mem_toList, Option.mem_def,
      this, exists_mem_cons_iff]
  have hfull : ∀ s, (∃ n ∈ cur.toList ++ ns, n.startbit = s ∧ ∃ i, n.maps i ≠ 0) ↔
      (∃ n ∈ cur, n.startbit = s ∧ ∃ i, n.maps i ≠ 0) ∨
        ∃ c ∈ (o, w) :: es, nodeStart c.1 = s ∧ c.2 ≠ 0 := by
    intro s
    have := h.full s
    simp only [Option.mem_some_iff, exists_eq_left', hs, hf] at this
    simp only [mem_append, or_and_right, exists_or, Option.mem_toList, Option.mem_def,
      this, exists_mem_cons_iff]
  cases cur with
  | none => exact ⟨by simp, h.increasing, h.form, hstarts, hfull⟩
  | some n =>
    have hlt : ∀ m ∈ ns, n.startbit < m.startbit := fun m hm =>
      (hlt n rfl).trans_le (h.ge _ rfl m hm)
    refine ⟨?_, ?_, ?_, hstarts, hfull⟩
    · simpa using fun m hm => (hlt m hm).le
    · simpa using ⟨hlt, h.increasing⟩
    · simpa using ⟨hcur n rfl, h.form⟩

theorem readLoop_loaded (hh : ebitmapSize ∣ highbit) (h0 : highbit ≠ 0)
    (hcur : ∀ n ∈ cur, ebitmapSize ∣ n.startbit ∧ n.startbit + ebitmapSize ≤ highbit)
    (h : readLoop highbit count allocs cur fp = .ok (ns, rest)) :
    Loaded highbit cur (entries count fp) ns := by
  induction count generalizing allocs cur fp ns with
  | zero =>
    cases h
    cases cur with
    | none => exact ⟨by simp, by simp, by simp, by simp [entries], by simp [entries]⟩
    | some n => exact ⟨by simp, by simp, by simpa using hcur, by simp [entries], by simp [entries]⟩
  | succ count ih =>
    obtain ⟨⟨o, fp₁⟩, hn, h⟩ := bind_ok h
    obtain ⟨rfl, rfl⟩ := nextEntry_ok hn
    generalize ho : ofBytes (fp.take 4) = o at h
    simp only at h
    by_cases hbad : o % 64 ≠ 0 ∨ o > highbit - 64
    · rw [if_pos hbad] at h
      cases h
    rw [if_neg hbad] at h
    push Not at hbad
    rw [entries, ho]
    cases hf : cur.filter (o < ·.startbit + ebitmapSize) with
    | some n =>
      obtain ⟨rfl, hin⟩ := Option.filter_eq_some_iff.mp hf
      have hin : o < n.startbit + ebitmapSize := by simpa using hin
      simp only [hf] at h
      split_ifs at h with hle
      obtain ⟨⟨map, fp₂⟩, hn, h⟩ := bind_ok h
      obtain ⟨rfl, rfl⟩ := nextEntry_ok hn
      obtain ⟨n', hload, h⟩ := bind_ok h
      obtain ⟨hs, hfull⟩ := loadMap_ok hload
      have hform := hcur n rfl
      rw [drop_drop] at h
      refine (ih (by simpa [hs] using hform) h).keep hs hfull ?_
      simp only [nodeStart, ebitmapSize] at *
      omega
    | none =>
      simp only [hf] at h
      split_ifs at h
      obtain ⟨⟨map, fp₂⟩, hn, h⟩ := bind_ok h
      obtain ⟨rfl, rfl⟩ := nextEntry_ok hn
      obtain ⟨n', hload, h⟩ := bind_ok h
      obtain ⟨hs, hfull⟩ := loadMap_ok hload
      obtain ⟨⟨ns', fp₃⟩, hrec, h⟩ := bind_ok h
      cases h
      rw [drop_drop] at hrec
      have hs' : n'.startbit = nodeStart o := hs
      refine (ih ?_ hrec).opened hcur (fun n hn => ?_) hs' (hfull.trans (by simp [zeroNode]))
      · simp only [Option.mem_some_iff, forall_eq', hs', nodeStart, ebitmapSize] at *
        omega
      · have hend := end_le_of_filter hf n hn
        have hd := (hcur n hn).1
        simp only [hs', nodeStart, ebitmapSize] at *
        omega

theorem Loaded.wellFormed_iff (h : Loaded highbit none es ns) (h0 : highbit ≠ 0) :
    Ebitmap.WellFormed ⟨ns, highbit⟩ ↔
      (∀ c ∈ es, ∃ d ∈ es, nodeStart d.1 = nodeStart c.1 ∧ d.2 ≠ 0) ∧
      ∃ c ∈ es, nodeStart c.1 + ebitmapSize = highbit := by
  have hstarts := h.starts
  have hfull := h.full
  simp only [Option.not_mem_none, false_and, exists_false, false_or] at hstarts hfull
  constructor
  · rintro ⟨-, hns, hhigh⟩
    refine ⟨fun c hc => ?_, ?_⟩
    · obtain ⟨n, hn, hs⟩ := (hstarts _).mpr ⟨c, hc, rfl⟩
      exact (hfull _).mp ⟨n, hn, hs, (hns n hn).2⟩
    · cases hl : ns.getLast? with
      | none =>
        simp only [hl, Option.map_none, Option.getD_none] at hhigh
        exact absurd hhigh h0
      | some n =>
        obtain ⟨c, hc, hs⟩ := (hstarts _).mp ⟨n, mem_of_getLast? hl, rfl⟩
        simp only [hl, Option.map_some, Option.getD_some] at hhigh
        exact ⟨c, hc, by rw [hs, hhigh]⟩
  · rintro ⟨hes, c, hc, hend⟩
    refine ⟨h.increasing, fun n hn => ⟨(h.form n hn).1, ?_⟩, ?_⟩
    · obtain ⟨c, hc, hs⟩ := (hstarts _).mp ⟨n, hn, rfl⟩
      obtain ⟨d, hd, hsd, hw⟩ := hes c hc
      obtain ⟨m, hm, hsm, hi⟩ := (hfull _).mpr ⟨d, hd, hsd.trans hs, hw⟩
      -- nodes that start at one bit are one node
      have hnodup : (ns.map (·.startbit)).Nodup := (pairwise_map.mpr h.increasing).imp Nat.ne_of_lt
      exact inj_on_of_nodup_map hnodup hm hn hsm ▸ hi
    · obtain ⟨n, hn, hs⟩ := (hstarts _).mpr ⟨c, hc, rfl⟩
      rw [← hs] at hend
      cases hl : ns.getLast? with
      | none =>
        rw [getLast?_eq_none_iff.mp hl] at hn
        cases hn
      | some l =>
        obtain ⟨ys, hys⟩ := getLast?_eq_some_iff.mp hl
        have hle := (h.form l (mem_of_getLast? hl)).2
        have hinc := h.increasing
        rw [hys] at hn hinc
        rcases mem_append.mp hn with hn | hn
        · have := (pairwise_append.mp hinc).2.2 n hn l (by simp)
          omega
        · rw [← hend, mem_singleton.mp hn]
          rfl

theorem roundHighbit_spec (highbit : ℕ) :
    ebitmapSize ∣ roundHighbit highbit ∧ roundHighbit highbit < 2 ^ 32 := by
  simp only [roundHighbit, ebitmapSize]
  omega

section

variable {e : Ebitmap} (h : ebitmapRead allocs fp = .ok (e, rest))

include h

theorem ebitmapRead_ok : let highbit := roundHighbit (ofBytes ((fp.drop 4).take 4))
    highbit = 0 ∧ e = ebitmapInit ∨ highbit ≠ 0 ∧ ∃ ns, e = ⟨ns, highbit⟩ ∧
      Loaded highbit none (entries (ofBytes ((fp.drop 8).take 4)) (fp.drop 12)) ns := by
  obtain ⟨⟨mapunit, fp₁⟩, h₁, h⟩ := bind_ok h
  obtain ⟨-, rfl⟩ := nextEntry_ok h₁
  obtain ⟨⟨highbit, fp₂⟩, h₂, h⟩ := bind_ok h
  obtain ⟨rfl, rfl⟩ := nextEntry_ok h₂
  obtain ⟨⟨count, fp₃⟩, h₃, h⟩ := bind_ok h
  obtain ⟨rfl, rfl⟩ := nextEntry_ok h₃
  simp only [drop_drop, Nat.reduceAdd] at h
  split_ifs at h with hunit h0
  · cases h
    exact .inl ⟨h0, rfl⟩
  · obtain ⟨⟨ns, fp₄⟩, hloop, h⟩ := bind_ok h
    cases h
    exact .inr ⟨h0, ns, rfl, readLoop_loaded (roundHighbit_spec _).1 h0 (by simp) hloop⟩

theorem wellFormed_iff_of_read : e.WellFormed ↔ FileWellFormed fp := by
  rw [FileWellFormed]
  rcases ebitmapRead_ok h with ⟨h0, rfl⟩ | ⟨h0, ns, rfl, hl⟩
  · exact iff_of_true ⟨by simp [ebitmapInit], by simp [ebitmapInit], rfl⟩ (.inl h0)
  · rw [hl.wellFormed_iff h0]
    exact (or_iff_right h0).symm

end

theorem Loaded.ordered (h : Loaded highbit none es ns) : Ordered highbit 0 ns := by
  have hord : ∀ (ns : List EbitmapNode) (lo : ℕ), ns.Pairwise (·.startbit < ·.startbit) →
      (∀ n ∈ ns, (ebitmapSize ∣ n.startbit ∧ n.startbit + ebitmapSize ≤ highbit) ∧
        lo ≤ n.startbit) → Ordered highbit lo ns := by
    intro ns
    induction ns with
    | nil => intros; trivial
    | cons n ns ih =>
      intro lo hp hn
      obtain ⟨hlt, hp⟩ := pairwise_cons.mp hp
      obtain ⟨⟨hd, hle⟩, hlo⟩ := hn n (by simp)
      refine ⟨hlo, hle, ih _ hp fun m hm => ?_⟩
      have hform := (hn m (by simp [hm])).1
      have hnm := hlt m hm
      refine ⟨hform, ?_⟩
      simp only [ebitmapSize] at hd hform ⊢
      omega
  exact hord ns 0 h.increasing fun n hn => ⟨h.form n hn, Nat.zero_le _⟩

theorem readable_of_read {e : Ebitmap} (h : ebitmapRead allocs fp = .ok (e, rest)) : e.Readable := by
  rcases ebitmapRead_ok h with ⟨-, rfl⟩ | ⟨h0, ns, rfl, hl⟩
  · exact ⟨by decide, trivial⟩
  · exact ⟨(roundHighbit_spec _).2, hl.ordered⟩

/-! ## Round trip -/

def fileBytes (ws : List (ℕ × BitVec 64)) : List UInt8 :=
  ws.flatMap fun c => toBytes 4 c.1 ++ toBytes 8 c.2.toNat

theorem nextEntry_toBytes {k v : ℕ} (h : v < 256 ^ k) :
    nextEntry k (toBytes k v ++ rest) = .ok (v, rest) := by
  rw [nextEntry, if_neg (by simp), take_left' length_toBytes, drop_left' length_toBytes,
    ofBytes_toBytes h]

theorem Ready.startbit_lt (h : Ready n ((o, w) :: ws)) : n.startbit < o := by
  obtain ⟨b, hb⟩ := h.nonempty
  have hlt := (h.lt (o, w) (by simp)).2 b hb
  have hle := ((mem_cons.mp hb).resolve_right not_mem_nil).1
  omega

theorem readLoop_words (hh : ebitmapSize ∣ highbit) (hb : highbit < 2 ^ 32)
    (hp : ws.Pairwise (·.1 < ·.1))
    (ha : ∀ c ∈ ws, 64 ∣ c.1 ∧ c.2 ≠ 0 ∧ c.1 + 64 ≤ highbit) (hcur : ∀ n ∈ cur, Ready n ws)
    (hl : ws.length ≤ allocs) :
    ∃ ns, readLoop highbit ws.length allocs cur (fileBytes ws ++ rest) = .ok (ns, rest) ∧
      Built cur ws ns := by
  induction ws generalizing cur allocs with
  | nil => exact ⟨_, rfl, .nil hcur⟩
  | cons c ws ih =>
    obtain ⟨o, w⟩ := c
    have ha' : ∀ c ∈ ws, 64 ∣ c.1 ∧ c.2 ≠ 0 ∧ c.1 + 64 ≤ highbit :=
      fun c hc => ha c (mem_cons_of_mem _ hc)
    have hp' := (pairwise_cons.mp hp).2
    have ha64 : ∀ c ∈ (o, w) :: ws, 64 ∣ c.1 := fun c hc => (ha c hc).1
    obtain ⟨hd, hw, hle⟩ : 64 ∣ o ∧ w ≠ 0 ∧ o + 64 ≤ highbit := ha (o, w) (by simp)
    have hl' : ws.length + 1 ≤ allocs := hl
    have hok : ¬(o % 64 ≠ 0 ∨ o > highbit - 64) := by omega
    have hbytes : fileBytes ((o, w) :: ws) ++ rest =
        toBytes 4 o ++ (toBytes 8 w.toNat ++ (fileBytes ws ++ rest)) := by simp [fileBytes]
    have hload (n : EbitmapNode) : n.loadMap o w = n.setMap o w := if_neg hw
    have hmap := @nextEntry_toBytes (fileBytes ws ++ rest) 8 w.toNat w.isLt
    rw [hbytes, length_cons, readLoop, nextEntry_toBytes (by omega)]
    simp only [ok_bind, if_neg hok]
    cases hf : cur.filter (o < ·.startbit + ebitmapSize) with
    | some n =>
      obtain ⟨rfl, hin⟩ := Option.filter_eq_some_iff.mp hf
      have hr := hcur n rfl
      obtain ⟨n', hset, -, hr', hbuilt⟩ := hr.keep hw (by simpa using hin) hp ha64
      obtain ⟨ns, hrun, hbn⟩ := @ih (some n') allocs hp' ha' (by simpa using hr') (by omega)
      refine ⟨ns, ?_, hbuilt ns hbn⟩
      simp only [if_neg hr.startbit_lt.not_ge, hmap, ok_bind,
        BitVec.ofNat_toNat, BitVec.setWidth_eq, hload, hset, hrun]
    | none =>
      obtain ⟨n', hset, -, hr', hbuilt⟩ := @Built.start cur ws o w (o - o % ebitmapSize) hcur hw
        (end_le_of_filter hf) (Nat.sub_le _ _) (by simp only [ebitmapSize]; omega)
        (by simp only [ebitmapSize] at *; omega) (by simp only [ebitmapSize]; omega) hp ha64
      obtain ⟨ns, hrun, hbn⟩ := @ih (some n') (allocs - 1) hp' ha' (by simpa using hr') (by omega)
      refine ⟨cur.toList ++ ns, ?_, hbuilt ns hbn⟩
      simp only [if_neg (show allocs ≠ 0 by omega), hmap, ok_bind,
        BitVec.ofNat_toNat, BitVec.setWidth_eq, hload, hset, hrun]
      rfl

theorem hasBit_shiftLeft {k : ℕ} (ho : o ≤ k) (hk : k < o + 64) (m : BitVec 64) :
    HasBit (o, m ||| 1#64 <<< (k - o)) b ↔ HasBit (o, m) b ∨ b = k := by
  rw [HasBit, HasBit]
  by_cases hb : o ≤ b ∧ b - o < 64
  · have hbit := getLsbD_one_shiftLeft (k - o) (b - o) hb.2
    have : b - o = k - o ↔ b = k := by omega
    simp only [BitVec.getLsbD_or, Bool.or_eq_true, hb.1, true_and]
    refine or_congr_right ?_
    rw [hbit, decide_eq_true_eq, this]
  · have hne : b ≠ k := by omega
    have hno : ∀ v : BitVec 64, ¬(o ≤ b ∧ v.getLsbD (b - o) = true) :=
      fun v hv => hb ⟨hv.1, BitVec.lt_of_getLsbD hv.2⟩
    simp only [hno, hne, or_self]

theorem hasBit_one_shiftLeft (bit : ℕ) :
    HasBit (bit - bit % 64, 1#64 <<< (bit % 64)) b ↔ b = bit := by
  have := hasBit_shiftLeft (b := b) (o := bit - bit % 64) (k := bit) (by omega) (by omega) 0#64
  rw [show bit - (bit - bit % 64) = bit % 64 by omega, BitVec.zero_or] at this
  rw [this]
  simp [HasBit]

theorem one_shiftLeft_ne_zero (bit : ℕ) : 1#64 <<< (bit % 64) ≠ 0 := by
  intro h0
  have := (hasBit_one_shiftLeft bit).mpr rfl
  rw [h0] at this
  simp [HasBit] at this

theorem mapLoop_spec {map : BitVec 64} {l : List ℕ} (hm : map ≠ 0) (ho : 64 ∣ o)
    (hl : l.Pairwise (· < ·)) (hge : ∀ b ∈ l, o ≤ b) (k x : ℕ) :
    ∃ ws : List (ℕ × BitVec 64), mapLoop map o l = ws.map (fun c => ((c.1 : ℤ), c.2)) ∧
      ws.Pairwise (·.1 < ·.1) ∧ (∀ c ∈ ws, 64 ∣ c.1 ∧ c.2 ≠ 0 ∧ o ≤ c.1) ∧
      (∀ b, (∃ c ∈ ws, HasBit c b) ↔ HasBit (o, map) b ∨ b ∈ l) ∧
      (l.foldl countStep (k, x, (o : ℤ))).1 + 1 = k + ws.length := by
  induction l generalizing map o k x with
  | nil => exact ⟨[(o, map)], by rw [mapLoop, if_pos hm]; rfl, by simp,
      by simpa using ⟨ho, hm⟩, by simp, by simp⟩
  | cons bit l ih =>
    obtain ⟨hlt, hl⟩ := pairwise_cons.mp hl
    have hbit := hge bit (by simp)
    rw [mapLoop, foldl_cons, countStep]
    by_cases hnew : (o : ℤ) < (bit - bit % 64 : ℕ)
    · obtain ⟨ws, hws, hp, hform, hmem, hcount⟩ := ih (one_shiftLeft_ne_zero bit)
        (o := bit - bit % 64) (by omega) hl (fun b hb => by have := hlt b hb; omega) (k + 1)
        ((bit + 1 + 63) / 64 * 64 % 2 ^ 32)
      refine ⟨(o, map) :: ws, ?_, ?_, ?_, ?_, ?_⟩
      · rw [if_pos hnew, if_neg hm, BitVec.zero_or, hws, map_cons]
      · refine pairwise_cons.mpr ⟨fun c hc => ?_, hp⟩
        have := (hform c hc).2.2
        simp only
        omega
      · refine forall_mem_cons.mpr ⟨⟨ho, hm, le_rfl⟩, fun c hc => ?_⟩
        obtain ⟨h₁, h₂, h₃⟩ := hform c hc
        exact ⟨h₁, h₂, by omega⟩
      · intro b
        rw [List.exists_mem_cons_iff, hmem, hasBit_one_shiftLeft, List.mem_cons]
      · simp only [if_pos hnew]
        rw [hcount, length_cons]
        omega
    · have hsub : ((bit : ℤ) - o).toNat = bit - o := by omega
      have hhas : ∀ b, HasBit (o, map ||| 1#64 <<< (bit - o)) b ↔ HasBit (o, map) b ∨ b = bit :=
        fun b => hasBit_shiftLeft hbit (by omega) map
      have hne : map ||| 1#64 <<< (bit - o) ≠ 0 := by
        intro h0
        have := (hhas bit).mpr (.inr rfl)
        rw [h0] at this
        simp [HasBit] at this
      obtain ⟨ws, hws, hp, hform, hmem, hcount⟩ := ih hne ho hl
        (fun b hb => hge b (by simp [hb])) k ((bit + 1 + 63) / 64 * 64 % 2 ^ 32)
      refine ⟨ws, ?_, hp, hform, fun b => ?_, ?_⟩
      · rw [if_neg hnew, hsub, hws]
      · rw [hmem, hhas, List.mem_cons, or_assoc]
      · simp only [if_neg hnew]
        exact hcount

theorem write_words {l : List ℕ} (hl : l.Pairwise (· < ·)) :
    ∃ ws : List (ℕ × BitVec 64), mapLoop 0 intMin l = ws.map (fun c => ((c.1 : ℤ), c.2)) ∧
      ws.Pairwise (·.1 < ·.1) ∧ (∀ c ∈ ws, 64 ∣ c.1 ∧ c.2 ≠ 0) ∧
      (∀ b, (∃ c ∈ ws, HasBit c b) ↔ b ∈ l) ∧ (l.foldl countStep (0, 0, -1)).1 = ws.length := by
  cases l with
  | nil => exact ⟨[], rfl, .nil, by simp, by simp, rfl⟩
  | cons bit l =>
    obtain ⟨hlt, hl⟩ := pairwise_cons.mp hl
    have hge : ∀ b ∈ l, bit - bit % 64 ≤ b := fun b hb => by have := hlt b hb; omega
    obtain ⟨ws, hws, hp, hform, hmem, hcount⟩ := mapLoop_spec (one_shiftLeft_ne_zero bit)
      (show 64 ∣ bit - bit % 64 by omega) hl hge 1 ((bit + 1 + 63) / 64 * 64 % 2 ^ 32)
    refine ⟨ws, ?_, hp, fun c hc => ⟨(hform c hc).1, (hform c hc).2.1⟩, fun b => ?_, ?_⟩
    · rw [mapLoop, if_pos (by rw [intMin]; omega), if_pos rfl, hws]
    · rw [hmem, hasBit_one_shiftLeft, List.mem_cons]
    · rw [foldl_cons, countStep]
      simp only [if_pos (show (-1 : ℤ) < (bit - bit % 64 : ℕ) by omega), zero_add]
      omega

theorem lastBit_append (l : List ℕ) (b : ℕ) (st : ℕ × ℕ × ℤ) :
    ((l ++ [b]).foldl countStep st).2.1 = (b + 1 + 63) / 64 * 64 % 2 ^ 32 := by
  rw [foldl_append, foldl_cons, foldl_nil, countStep]
  split_ifs <;> rfl

theorem Represents.highbit_eq {e : Ebitmap} {s : Finset ℕ} (h : Represents e s) (hb : b ∈ s)
    (hmax : ∀ x ∈ s, x ≤ b) : e.highbit = nodeStart b + ebitmapSize := by
  have hd := h.canonical.dvd_stop (Nat.dvd_zero _)
  have hlt := h.lt_highbit hb
  have hlast : stop 0 e.node ≤ b + ebitmapSize := by
    cases hn : e.node with
    | nil => exact Nat.zero_le _
    | cons n ns =>
      obtain ⟨x, hx, hle⟩ := (hn ▸ h.canonical).exists_mem_last
      have := hmax x ((h.mem x).mpr (hn ▸ hx))
      omega
  rw [h.highbit] at hlt ⊢
  simp only [nodeStart, ebitmapSize] at *
  omega

theorem read_write {e : Ebitmap} {s : Finset ℕ} (h : Represents e s) (hs : ∀ b ∈ s, b < 2 ^ 31) :
    ∃ bytes, ebitmapWrite e = some bytes ∧ ∃ enough, ∀ allocs, enough ≤ allocs → ∀ rest,
      ∃ r, ebitmapRead allocs (bytes ++ rest) = .ok (r, rest) ∧ ebitmapCmp r e = true := by
  obtain ⟨l, hl, hsort, hmem⟩ := h.forEach
  obtain ⟨ws, hws, hp, hform, hbits, hcount⟩ := write_words hsort
  have hset : (wordBits ws).toFinset = s := by
    ext b
    rw [mem_toFinset, mem_wordBits, hbits, hmem]
  have hlt : ∀ c ∈ ws, ∃ b ∈ l, c.1 ≤ b ∧ b < 2 ^ 31 := by
    intro c hc
    obtain ⟨b, hb⟩ := exists_hasBit (o := c.1) (hform c hc).2
    have hbl := (hbits b).mp ⟨c, hc, hb⟩
    exact ⟨b, hbl, hb.1, hs b ((hmem b).mp hbl)⟩
  have hbytes : ((mapLoop 0 intMin l).flatMap fun c =>
      toBytes 4 (c.1 % 2 ^ 32).toNat ++ toBytes 8 c.2.toNat) = fileBytes ws := by
    rw [hws, fileBytes, flatMap_map]
    refine flatMap_congr fun c hc => ?_
    obtain ⟨b, -, hcb, hb⟩ := hlt c hc
    have hnat : ((c.1 : ℤ) % 2 ^ 32).toNat = c.1 := by omega
    simp only [hnat]
  have hlen : ws.length ≤ 2 ^ 31 := by
    have hnodup : (ws.map (·.1)).Nodup := (pairwise_map.mpr hp).imp Nat.ne_of_lt
    have hsub : ws.map (·.1) ⊆ range (2 ^ 31) := by
      intro x hx
      obtain ⟨c, hc, rfl⟩ := mem_map.mp hx
      obtain ⟨b, -, hcb, hb⟩ := hlt c hc
      exact mem_range.mpr (by omega)
    simpa only [length_map, length_range] using (hnodup.subperm hsub).length_le
  refine ⟨_, by rw [ebitmapWrite, hl]; rfl, ws.length, fun allocs ha rest => ?_⟩
  rw [hbytes, hcount]
  simp only [append_assoc]
  rw [ebitmapRead, nextEntry_toBytes (by norm_num)]
  simp only [ok_bind]
  rcases eq_nil_or_concat' l with rfl | ⟨l', b, rfl⟩
  · -- no bit: the count is zero, and so is the rounded highbit
    have hempty : s = ∅ := Finset.eq_empty_of_forall_notMem fun b hb => by simpa using (hmem b).mpr hb
    obtain rfl : ws = [] := eq_nil_of_length_eq_zero hcount.symm
    rw [foldl_nil, nextEntry_toBytes (by norm_num)]
    simp only [ok_bind]
    rw [length_nil, nextEntry_toBytes (by norm_num)]
    exact ⟨ebitmapInit, rfl, (Represents.init.cmp h).mpr hempty.symm⟩
  · have hb : b ∈ s := (hmem b).mp (by simp)
    have hb31 := hs b hb
    have hmax : ∀ x ∈ l' ++ [b], x ≤ b := by
      intro x hx
      rcases mem_append.mp hx with hx | hx
      · exact ((pairwise_append.mp hsort).2.2 x hx b (by simp)).le
      · exact (mem_singleton.mp hx).le
    have hround : roundHighbit ((b + 1 + 63) / 64 * 64 % 2 ^ 32) = nodeStart b + ebitmapSize := by
      simp only [roundHighbit, nodeStart, ebitmapSize]
      omega
    rw [lastBit_append, nextEntry_toBytes (by omega)]
    simp only [ok_bind]
    rw [nextEntry_toBytes (by omega)]
    obtain ⟨hd, hlt32⟩ := roundHighbit_spec ((b + 1 + 63) / 64 * 64 % 2 ^ 32)
    rw [hround] at hd hlt32
    have hfit : ∀ c ∈ ws, 64 ∣ c.1 ∧ c.2 ≠ 0 ∧ c.1 + 64 ≤ nodeStart b + ebitmapSize := by
      intro c hc
      obtain ⟨x, hx, hcx, -⟩ := hlt c hc
      obtain ⟨h64, hne⟩ := hform c hc
      have hxb := hmax x hx
      refine ⟨h64, hne, ?_⟩
      simp only [nodeStart, ebitmapSize]
      omega
    obtain ⟨ns, hrun, hbuilt⟩ := @readLoop_words none ws _ allocs rest hd hlt32 hp hfit (by simp) ha
    have hne : nodeStart b + ebitmapSize ≠ 0 := by simp [ebitmapSize]
    have hrep := hbuilt.represents fun n hn =>
      ((readLoop_loaded hd hne (by simp) hrun).form n hn).1
    rw [hset] at hrep
    have hhigh := hrep.highbit_eq hb fun x hx => hmax x ((hmem x).mpr hx)
    simp only [ok_bind, hround, if_neg hne, hrun]
    refine ⟨⟨ns, stop 0 ns⟩, ?_, (hrep.cmp h).mpr rfl⟩
    rw [← hhigh]
    rfl

/-- Every bit that is set is below `2 ^ 31`. -/
def EbitmapOp.InInt : EbitmapOp → Prop
  | .setBit _ bit value _ => value = true → bit < 2 ^ 31
  | .cpy .. => True

theorem mem_execSets {α : Sets} {ret : Int} {op : EbitmapOp} {v : ℕ} (h : b ∈ op.execSets α ret v) :
    (∃ u, b ∈ α u) ∨ ∃ u alloc, op = .setBit u b true alloc := by
  have hupd (β : Sets) (u : ℕ) (t : Finset ℕ) (hb : b ∈ Function.update β u t v) :
      b ∈ t ∨ b ∈ β v := by
    rw [Function.update_apply] at hb
    split_ifs at hb
    · exact .inl hb
    · exact .inr hb
  cases op with
  | setBit u bit value alloc =>
    rw [EbitmapOp.execSets] at h
    split_ifs at h with h₀ hval
    · rcases hupd _ _ _ h with h | h
      · rcases Finset.mem_insert.mp h with rfl | h
        · exact .inr ⟨u, alloc, by rw [hval]⟩
        · exact .inl ⟨u, h⟩
      · exact .inl ⟨v, h⟩
    · rcases hupd _ _ _ h with h | h
      · exact .inl ⟨u, Finset.mem_of_mem_erase h⟩
      · exact .inl ⟨v, h⟩
    · exact .inl ⟨v, h⟩
  | cpy dst src allocs =>
    have hold : ∀ w, b ∈ Function.update α dst ∅ w → ∃ u, b ∈ α u := by
      intro w hw
      rw [Function.update_apply] at hw
      split_ifs at hw
      · exact absurd hw (Finset.notMem_empty b)
      · exact ⟨w, hw⟩
    simp only [EbitmapOp.execSets] at h
    split_ifs at h
    · rcases hupd _ _ _ h with h | h
      · exact .inl (hold _ h)
      · exact .inl (hold _ h)
    · exact .inl (hold _ h)

theorem represents_of_inInt {st : Store × Sets}
    (h : Reach EbitmapOp.step (fun _ op => op.InInt) initStore st) (v : ℕ) :
    Represents (st.1 v) (st.2 v) ∧ ∀ b ∈ st.2 v, b < 2 ^ 31 := by
  have hinv : ∀ v, Represents (st.1 v) (st.2 v) ∧ ∀ b ∈ st.2 v, b < 2 ^ 31 := by
    apply Reach.invariant (P := fun st => ∀ v, Represents (st.1 v) (st.2 v) ∧
      ∀ b ∈ st.2 v, b < 2 ^ 31) _ _ h
    · intro v
      exact ⟨.init, by simp [initStore]⟩
    · rintro ⟨σ, α⟩ s' op hI hop hs
      have hrange : op.InRange := by
        cases op with
        | setBit v bit value alloc => exact fun hv => (hop hv).trans (by decide)
        | cpy => trivial
      obtain ⟨σ', ret, hexec, -, hrep⟩ := exec_represents (fun v => (hI v).1) hrange
      have : s' = (σ', op.execSets α ret) := by
        simpa [EbitmapOp.step, hexec] using hs.symm
      subst this
      refine fun v => ⟨hrep v, fun b hb => ?_⟩
      rcases mem_execSets hb with ⟨u, hu⟩ | ⟨u, alloc, rfl⟩
      · exact (hI u).2 b hu
      · exact hop rfl
  exact hinv v

/-- Bitmaps survive the policy file; what a file gives is well formed exactly when the file is. -/
theorem policyFile_roundTrip_and_form (σ : Store) (α : Sets) (v : ℕ) (fp : List UInt8) :
    (Reach EbitmapOp.step (fun _ op => op.InInt) initStore (σ, α) →
      ∃ bytes, ebitmapWrite (σ v) = some bytes ∧ ∃ enough, ∀ allocs, enough ≤ allocs → ∀ rest,
        ∃ r, ebitmapRead allocs (bytes ++ rest) = .ok (r, rest) ∧ ebitmapCmp r (σ v) = true) ∧
    ∀ allocs e rest, ebitmapRead allocs fp = .ok (e, rest) →
      (e.WellFormed ↔ FileWellFormed fp) := by
  refine ⟨fun h => ?_, fun allocs e rest h => wellFormed_iff_of_read h⟩
  obtain ⟨hrep, hlt⟩ := represents_of_inInt h v
  exact read_write hrep hlt

theorem accepts_malformed :
    (∃ e, ebitmapRead 1 (toBytes 4 64 ++ toBytes 4 64 ++ toBytes 4 1 ++ toBytes 4 0 ++ toBytes 8 0) =
      .ok (e, []) ∧ ¬e.WellFormed) ∧
    ∃ e, ebitmapRead 0 (toBytes 4 64 ++ toBytes 4 64 ++ toBytes 4 0) = .ok (e, []) ∧
      ¬e.WellFormed := by
  refine ⟨⟨⟨[zeroNode 0], 384⟩, by decide +kernel, ?_⟩, ⟨⟨[], 384⟩, by decide +kernel, ?_⟩⟩
  · rintro ⟨-, h, -⟩
    obtain ⟨-, i, hi⟩ := h (zeroNode 0) (by simp)
    exact hi rfl
  · rintro ⟨-, -, h⟩
    cases h

end Cupcake.Selinux
