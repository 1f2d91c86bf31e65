import Mathlib.Data.Nat.Digits.Lemmas

/-! The numbers of the nodes of the LEB properties tree (`fs/ubifs/lpt.c`). A node is given by the
path of child indices that leads to it from the root. -/

namespace Cupcake.Ubifs

open List

def ubifsLptFanout : ℕ := 4

def ubifsLptFanoutShift : ℕ := 2

structure Info where
  mainFirst : ℕ
  lebCnt : ℕ
  lptHght : ℕ

structure Nnode where
  num : ℕ
  level : ℕ

/-- The loop of `calc_nnode_num` and `calc_pnode_num_from_parent`: the low digits of a
number go to the end of `num`. -/
def numLoop : ℕ → ℕ → ℕ → ℕ
  | 0, _, num => num
  | n + 1, col, num =>
    numLoop n (col >>> ubifsLptFanoutShift)
      (num <<< ubifsLptFanoutShift ||| col &&& (ubifsLptFanout - 1))

def calcNnodeNum (row col : ℕ) : ℕ := numLoop row col 1

def calcNnodeNumFromParent (c : Info) (parent : Option Nnode) (iip : ℕ) : ℕ :=
  match parent with
  | none => 1
  | some parent =>
    let shft := (c.lptHght - parent.level) * ubifsLptFanoutShift
    (parent.num ^^^ 1 <<< shft) ||| (ubifsLptFanout + iip) <<< shft

def calcPnodeNumFromParent (c : Info) (parent : Nnode) (iip : ℕ) : ℕ :=
  numLoop (c.lptHght - 1) parent.num 0 <<< ubifsLptFanoutShift ||| iip

def lnumLoop (c : Info) : ℕ → ℕ → List ℕ
  | 0, _ => []
  | n + 1, lnum => if lnum ≥ c.lebCnt then [] else lnum :: lnumLoop c n (lnum + 1)

/-- The numbers that go to `lprops[0].lnum`, `lprops[1].lnum` and so on. -/
def setPnodeLnum (c : Info) (num : ℕ) : List ℕ :=
  lnumLoop c ubifsLptFanout (num <<< ubifsLptFanoutShift + c.mainFirst)

def divRoundUp (n d : ℕ) : ℕ := (n + d - 1) / d

/-- `while (n < max_pnode_cnt)` in `do_calc_lpt_geom`, for at most `fuel` turns. -/
def hghtLoop (maxPnodeCnt : ℕ) : ℕ → ℕ → ℕ → ℕ
  | 0, _, hght => hght
  | fuel + 1, n, hght =>
    if n < maxPnodeCnt then hghtLoop maxPnodeCnt fuel (n <<< ubifsLptFanoutShift) (hght + 1)
    else hght

/-- The height that `do_calc_lpt_geom` gives to the tree. -/
def doCalcLptGeom (mainFirst lebCnt maxLebCnt : ℕ) : Info where
  mainFirst := mainFirst
  lebCnt := lebCnt
  lptHght :=
    let maxPnodeCnt := divRoundUp (lebCnt - mainFirst + maxLebCnt - lebCnt) ubifsLptFanout
    hghtLoop maxPnodeCnt maxPnodeCnt ubifsLptFanout 1

def Info.pnodeCnt (c : Info) : ℕ := divRoundUp (c.lebCnt - c.mainFirst) ubifsLptFanout

/-- The nnode at the end of a path, each made from its parent as `ubifs_read_nnode` does. -/
def nnodeAt (c : Info) (path : List (Fin 4)) : Nnode :=
  path.foldl (fun parent iip => ⟨calcNnodeNumFromParent c (some parent) iip, parent.level - 1⟩)
    ⟨calcNnodeNumFromParent c none 0, c.lptHght⟩

def columnFrom (col : ℕ) (path : List (Fin 4)) : ℕ :=
  path.foldl (fun (col : ℕ) (iip : Fin 4) => 4 * col + iip) col

def column (path : List (Fin 4)) : ℕ := columnFrom 0 path

/-- The path to a column of a row. -/
def pathTo : ℕ → ℕ → List (Fin 4)
  | 0, _ => []
  | row + 1, col => pathTo row (col / 4) ++ [Fin.ofNat 4 col]

/-- The number that the pnode in a column gets from its parent. -/
def pnodeNum (c : Info) (col : ℕ) : ℕ :=
  calcPnodeNumFromParent c (nnodeAt c (pathTo (c.lptHght - 1) (col / 4))) (col % 4)

/-! ## Digits -/

/-- The indices as digits, the first one lowest. -/
def low (path : List (Fin 4)) : ℕ := Nat.ofDigits 4 (path.map Fin.val)

variable {c : Info} {path path' : List (Fin 4)}

theorem shiftLeft_or {n b : ℕ} (hb : b < 4) : n <<< ubifsLptFanoutShift ||| b = 4 * n + b := by
  rw [ubifsLptFanoutShift, Nat.shiftLeft_eq, Nat.mul_comm]
  exact (Nat.two_pow_add_eq_or_of_lt (i := 2) hb n).symm

theorem numLoop_succ (n col num : ℕ) :
    numLoop (n + 1) col num = numLoop n (col / 4) (4 * num + col % 4) := by
  have hmask : col &&& (ubifsLptFanout - 1) = col % 4 := Nat.and_two_pow_sub_one_eq_mod col 2
  have hshift : col >>> ubifsLptFanoutShift = col / 4 := Nat.shiftRight_eq_div_pow col 2
  rw [numLoop, hmask, hshift, shiftLeft_or (Nat.mod_lt col (by decide))]

theorem numLoop_digit (n m num : ℕ) (iip : Fin 4) :
    numLoop (n + 1) (4 * m + iip) num = numLoop n m (4 * num + iip) := by
  rw [numLoop_succ, show (4 * m + iip) / 4 = m by omega, show (4 * m + iip) % 4 = iip by omega]

theorem low_lt (path : List (Fin 4)) : low path < 4 ^ path.length := by
  have h := Nat.ofDigits_lt_base_pow_length (b := 4) (l := path.map Fin.val) (by decide) ?_
  · rwa [length_map] at h
  · intro d hd
    obtain ⟨iip, -, rfl⟩ := mem_map.mp hd
    exact iip.isLt

theorem low_concat (path : List (Fin 4)) (iip : Fin 4) :
    low (path ++ [iip]) = low path + 4 ^ path.length * iip := by
  rw [low, map_append, Nat.ofDigits_append, length_map]
  simp [low]

theorem column_concat (path : List (Fin 4)) (iip : Fin 4) :
    column (path ++ [iip]) = 4 * column path + iip := by
  simp [column, columnFrom]

theorem numLoop_column (path : List (Fin 4)) (num : ℕ) :
    numLoop path.length (column path) num = num * 4 ^ path.length + low path := by
  induction path using reverseRecOn generalizing num with
  | nil => simp [numLoop, low]
  | append_singleton path iip ih =>
    rw [length_append, length_singleton, column_concat, numLoop_digit, ih, low_concat]
    ring

theorem numLoop_low (path : List (Fin 4)) (top num : ℕ) :
    numLoop path.length (4 ^ path.length * top + low path) num = columnFrom num path := by
  induction path generalizing num with
  | nil => rfl
  | cons iip path ih =>
    have hcons : 4 ^ (path.length + 1) * top + low (iip :: path) =
        4 * (4 ^ path.length * top + low path) + iip := by
      rw [low, map_cons, Nat.ofDigits_cons, ← low]
      ring
    rw [length_cons, hcons, numLoop_digit, ih]
    rfl

theorem xor_or_shift {n s : ℕ} (hn : n < 2 ^ s) (d : ℕ) :
    ((2 ^ s + n) ^^^ 1 <<< s) ||| d <<< s = 2 ^ s * d + n := by
  have htop : (2 ^ s + n) ^^^ 1 <<< s = n := by
    have h := Nat.two_pow_add_eq_or_of_lt hn 1
    rw [Nat.mul_one] at h
    rw [Nat.one_shiftLeft, h]
    apply Nat.eq_of_testBit_eq
    intro i
    rw [Nat.testBit_xor, Nat.testBit_or, Nat.testBit_two_pow]
    by_cases hi : s = i
    · subst hi
      simp [Nat.testBit_lt_two_pow hn]
    · simp [hi]
  rw [htop, Nat.shiftLeft_eq, Nat.mul_comm d, Nat.two_pow_add_eq_or_of_lt hn, Nat.or_comm]

theorem nnodeAt_eq (h : path.length < c.lptHght) :
    nnodeAt c path = ⟨4 ^ path.length + low path, c.lptHght - path.length⟩ := by
  induction path using reverseRecOn with
  | nil => rfl
  | append_singleton path iip ih =>
    rw [length_append, length_singleton] at h ⊢
    have hlow := low_lt path
    have hpow : 4 ^ path.length = 2 ^ (path.length * 2) := by rw [Nat.mul_comm, Nat.pow_mul]
    have hrow : c.lptHght - (c.lptHght - path.length) = path.length := by omega
    have hconcat : nnodeAt c (path ++ [iip]) =
        ⟨calcNnodeNumFromParent c (some (nnodeAt c path)) iip, (nnodeAt c path).level - 1⟩ := by
      simp [nnodeAt]
    rw [hconcat, ih (by omega), low_concat, calcNnodeNumFromParent]
    simp only [ubifsLptFanoutShift, ubifsLptFanout, hrow, Nat.sub_sub, Nat.pow_succ]
    rw [hpow] at hlow ⊢
    rw [xor_or_shift hlow]
    congr 1
    ring

theorem length_pathTo (row col : ℕ) : (pathTo row col).length = row := by
  induction row generalizing col with
  | zero => rfl
  | succ row ih => rw [pathTo, length_append, ih, length_singleton]

theorem column_pathTo {row col : ℕ} (h : col < 4 ^ row) : column (pathTo row col) = col := by
  induction row generalizing col with
  | zero =>
    rw [Nat.lt_one_iff.mp h]
    rfl
  | succ row ih =>
    rw [Nat.pow_succ] at h
    rw [pathTo, column_concat, ih (by omega), Fin.val_ofNat]
    omega

/-! ## Numbers -/

theorem nnodeAt_inj (h : path.length < c.lptHght) (h' : path'.length < c.lptHght)
    (hnum : (nnodeAt c path).num = (nnodeAt c path').num) : path = path' := by
  rw [nnodeAt_eq h, nnodeAt_eq h'] at hnum
  simp only at hnum
  have hlow := low_lt path
  have hlow' := low_lt path'
  have hlen : path.length = path'.length := by
    rcases lt_trichotomy path.length path'.length with hl | hl | hl
    · have := Nat.pow_le_pow_right (show 0 < 4 by decide) hl
      omega
    · exact hl
    · have := Nat.pow_le_pow_right (show 0 < 4 by decide) hl
      omega
  have hdigit : ∀ p : List (Fin 4), ∀ d ∈ p.map Fin.val, d < 4 := by simp
  rw [hlen, Nat.add_left_cancel_iff] at hnum
  apply map_injective_iff.mpr Fin.val_injective
  exact Nat.ofDigits_inj_of_len_eq (by decide) (by simpa using hlen) (hdigit _) (hdigit _) hnum

theorem calcPnodeNumFromParent_eq (h : path.length + 1 = c.lptHght) (iip : Fin 4) :
    calcPnodeNumFromParent c (nnodeAt c path) iip = column (path ++ [iip]) := by
  rw [calcPnodeNumFromParent, nnodeAt_eq (by omega), show c.lptHght - 1 = path.length by omega,
    shiftLeft_or iip.isLt, column_concat, column, ← numLoop_low path 1, Nat.mul_one]

theorem pnodeNum_eq (hpos : 0 < c.lptHght) {col : ℕ} (h : col < 4 ^ c.lptHght) :
    pnodeNum c col = col := by
  have hpow : 4 ^ c.lptHght = 4 ^ (c.lptHght - 1) * 4 := by
    rw [← Nat.pow_succ, Nat.succ_eq_add_one, Nat.sub_add_cancel hpos]
  have hlen := length_pathTo (c.lptHght - 1) (col / 4)
  have hpath : (pathTo (c.lptHght - 1) (col / 4)).length + 1 = c.lptHght := by omega
  have h := calcPnodeNumFromParent_eq hpath (Fin.ofNat 4 col)
  rw [column_concat, column_pathTo (by omega), Fin.val_ofNat] at h
  rw [pnodeNum, h]
  omega

theorem lnumLoop_eq (c : Info) (n lnum : ℕ) :
    lnumLoop c n lnum = range' lnum (min n (c.lebCnt - lnum)) := by
  induction n generalizing lnum with
  | zero => simp [lnumLoop]
  | succ n ih =>
    rw [lnumLoop]
    split_ifs with h
    · rw [show c.lebCnt - lnum = 0 by omega]
      rfl
    · rw [ih, show min (n + 1) (c.lebCnt - lnum) = min n (c.lebCnt - (lnum + 1)) + 1 by omega]
      rfl

theorem setPnodeLnum_range (c : Info) (n : ℕ) :
    (range n).flatMap (setPnodeLnum c) =
      range' c.mainFirst (min (4 * n) (c.lebCnt - c.mainFirst)) := by
  induction n with
  | zero => simp
  | succ n ih =>
    have hshift : n <<< ubifsLptFanoutShift = 4 * n := by
      rw [ubifsLptFanoutShift, Nat.shiftLeft_eq, Nat.mul_comm]
    rw [range_succ, flatMap_append, ih, flatMap_singleton, setPnodeLnum, lnumLoop_eq,
      hshift]
    by_cases h : 4 * n ≤ c.lebCnt - c.mainFirst
    · rw [Nat.min_eq_left h, Nat.add_comm (4 * n), range'_append_1, ubifsLptFanout]
      congr 1
      omega
    · rw [show c.lebCnt - (4 * n + c.mainFirst) = 0 by omega, Nat.min_zero, range'_zero,
        append_nil]
      congr 1
      omega

theorem hghtLoop_spec {maxPnodeCnt fuel hght b : ℕ} (hfuel : maxPnodeCnt ≤ 4 ^ (hght + fuel))
    (hb : maxPnodeCnt ≤ 4 ^ b) (hle : hght ≤ b) :
    hght ≤ hghtLoop maxPnodeCnt fuel (4 ^ hght) hght ∧
      hghtLoop maxPnodeCnt fuel (4 ^ hght) hght ≤ b ∧
      maxPnodeCnt ≤ 4 ^ hghtLoop maxPnodeCnt fuel (4 ^ hght) hght := by
  induction fuel generalizing hght with
  | zero => exact ⟨le_rfl, hle, hfuel⟩
  | succ fuel ih =>
    rw [hghtLoop]
    split_ifs with hlt
    · have hshift : 4 ^ hght <<< ubifsLptFanoutShift = 4 ^ (hght + 1) := Nat.shiftLeft_eq _ _
      have hlt' : hght < b := (Nat.pow_lt_pow_iff_right (by decide)).mp (hlt.trans_le hb)
      rw [hshift]
      have hfuel' : maxPnodeCnt ≤ 4 ^ (hght + 1 + fuel) := by rwa [Nat.add_right_comm]
      obtain ⟨h₁, h₂⟩ := ih hfuel' hlt'
      exact ⟨by omega, h₂⟩
    · exact ⟨le_rfl, hle, by omega⟩

/-- The number of a node is a bijective encoding of its place: nnodes are told apart by it, and the
pnodes of a geometry that `do_calc_lpt_geom` computes are numbered from left to right, so that they
cover the main area LEB by LEB. -/
theorem lpt_numbers (c : Info) :
    (∀ path, path.length < c.lptHght →
      (nnodeAt c path).num = calcNnodeNum path.length (column path) ∧
      (nnodeAt c path).num < 2 * 4 ^ path.length) ∧
    (∀ path path', path.length < c.lptHght → path'.length < c.lptHght →
      (nnodeAt c path).num = (nnodeAt c path').num → path = path') ∧
    (∀ path (iip : Fin 4), path.length + 1 = c.lptHght →
      calcPnodeNumFromParent c (nnodeAt c path) iip = column (path ++ [iip])) ∧
    ∀ mainFirst lebCnt maxLebCnt, mainFirst ≤ lebCnt → lebCnt ≤ maxLebCnt → maxLebCnt < 2 ^ 31 →
      c = doCalcLptGeom mainFirst lebCnt maxLebCnt →
      0 < c.lptHght ∧ c.lptHght ≤ 15 ∧ (∀ col < c.pnodeCnt, pnodeNum c col = col) ∧
      (List.range c.pnodeCnt).flatMap (fun col => setPnodeLnum c (pnodeNum c col)) =
        List.range' mainFirst (lebCnt - mainFirst) := by
  refine ⟨fun path h => ?_, fun _ _ => nnodeAt_inj,
    fun _ iip h => calcPnodeNumFromParent_eq h iip, ?_⟩
  · have hlow := low_lt path
    rw [nnodeAt_eq h, calcNnodeNum, numLoop_column, Nat.one_mul]
    exact ⟨rfl, by simp only; omega⟩
  · rintro mainFirst lebCnt maxLebCnt hmain hleb hmax rfl
    generalize hcnt : divRoundUp (lebCnt - mainFirst + maxLebCnt - lebCnt) ubifsLptFanout = cnt
    have hle : cnt ≤ 4 ^ 15 := by
      rw [← hcnt, divRoundUp, ubifsLptFanout]
      omega
    have hhght :
        (doCalcLptGeom mainFirst lebCnt maxLebCnt).lptHght = hghtLoop cnt cnt (4 ^ 1) 1 := by
      rw [doCalcLptGeom, hcnt]
      rfl
    have hfuel : cnt ≤ 4 ^ (1 + cnt) :=
      (Nat.lt_pow_self (by decide)).le.trans (Nat.pow_le_pow_right (by decide) (by omega))
    obtain ⟨hpos, hhght_le, hcnt_le⟩ := hghtLoop_spec hfuel hle (show 1 ≤ 15 by decide)
    rw [← hhght] at hpos hhght_le hcnt_le
    have hpnode : (doCalcLptGeom mainFirst lebCnt maxLebCnt).pnodeCnt ≤ cnt := by
      rw [← hcnt]
      exact Nat.div_le_div_right (by simp only [doCalcLptGeom]; omega)
    have hnum : ∀ col < (doCalcLptGeom mainFirst lebCnt maxLebCnt).pnodeCnt,
        pnodeNum (doCalcLptGeom mainFirst lebCnt maxLebCnt) col = col :=
      fun col hcol => pnodeNum_eq hpos (by omega)
    refine ⟨hpos, hhght_le, hnum, ?_⟩
    rw [flatMap_congr fun col hcol => by rw [hnum col (mem_range.mp hcol)],
      setPnodeLnum_range]
    congr 1
    simp only [Info.pnodeCnt, divRoundUp, ubifsLptFanout, doCalcLptGeom]
    omega

/-- 23 LEBs in the main area, with room to grow. -/
theorem lpt_numbers_small :
    (List.range (doCalcLptGeom 7 30 40).pnodeCnt).flatMap (fun col =>
      setPnodeLnum (doCalcLptGeom 7 30 40) (pnodeNum (doCalcLptGeom 7 30 40) col)) =
        List.range' 7 23 := by
  obtain ⟨-, -, -, hgeom⟩ := lpt_numbers (doCalcLptGeom 7 30 40)
  obtain ⟨-, -, -, hlnum⟩ := hgeom 7 30 40 (by decide) (by decide) (by decide) rfl
  exact hlnum

end Cupcake.Ubifs
