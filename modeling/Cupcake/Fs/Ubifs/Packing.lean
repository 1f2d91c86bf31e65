import Cupcake.Lib.BitMemory

/-! The bit fields of the stored nodes of the LEB properties tree (`fs/ubifs/lpt.c`). The `addr`
and `pos` that the packing functions move on are one number, `8 * addr + pos`. -/

namespace Cupcake.Ubifs

open List Bytes

/-- The nested `*++p = (uint8_t)(val >>= s)`, `depth` of them. -/
def packRest : ℕ → (ℕ → UInt8) → ℕ → ℕ → ℕ → ℕ → (ℕ → UInt8) × ℕ
  | 0, m, p, _, _, _ => (m, p)
  | depth + 1, m, p, val, s, nrbits =>
    if nrbits > 8 then
      packRest depth (store m (p + 1) 1 (val >>> s)) (p + 1) (val >>> s) 8 (nrbits - 8)
    else (m, p)

/-- A field is a value and its number of bits. -/
def packBits : (ℕ → UInt8) × ℕ → ℕ × ℕ → (ℕ → UInt8) × ℕ
  | (m, t), (val, nrbits) =>
    let p := t / 8
    let b := t % 8
    let m := store m p 1 (if b ≠ 0 then (m p).toNat ||| val <<< b else val)
    let (m, p) := packRest (if b ≠ 0 then 4 else 3) m p val (8 - b) (nrbits + b)
    let b := (nrbits + b) % 8
    (m, 8 * (if b = 0 then p + 1 else p) + b)

/-- The bytes of a field put together; `stale` is what the uninitialised `val` holds. -/
def unpackBytes (stale : ℕ) (m : ℕ → UInt8) (p b bytes : ℕ) : ℕ :=
  if b ≠ 0 then
    let val := if bytes = 1 then stale else load m (p + 1) (bytes - 1)
    val <<< (8 - b) % 2 ^ 32 ||| (m p).toNat >>> b
  else load m p bytes

def ubifsUnpackBits (stale : ℕ) (m : ℕ → UInt8) (t nrbits : ℕ) : ℕ × ℕ :=
  let k := 32 - nrbits
  let b := t % 8
  let val := unpackBytes stale m (t / 8) b ((nrbits + b + 7) / 8)
  ((val <<< k % 2 ^ 32) >>> k, 8 * (t / 8 + (nrbits + b) / 8) + (nrbits + b) % 8)

variable {m : ℕ → UInt8} {t p val s nrbits depth stale : ℕ} {f : ℕ × ℕ} {fs : List (ℕ × ℕ)}

theorem packRest_spec (hpos : 0 < nrbits) (hle : nrbits ≤ 8 * (depth + 1)) (j : ℕ) :
    (packRest depth m p val s nrbits).2 = p + (nrbits - 1) / 8 ∧
      bit (packRest depth m p val s nrbits).1 j =
        if 8 * (p + 1) ≤ j ∧ j < 8 * (p + 1 + (nrbits - 1) / 8) then
          val.testBit (s + (j - 8 * (p + 1)))
        else bit m j := by
  induction depth generalizing m p val s nrbits with
  | zero =>
    rw [packRest]
    grind
  | succ depth ih =>
    rw [packRest]
    by_cases hmore : nrbits > 8
    · rw [if_pos hmore, (ih (by omega) (by omega)).1, (ih (by omega) (by omega)).2, bit_store]
      grind
    · grind

/-- The bits of the current byte that are not yet taken are zero. -/
def Clean (m : ℕ → UInt8) (t : ℕ) : Prop :=
  ∀ j, t % 8 ≠ 0 → t ≤ j → j / 8 = t / 8 → bit m j = false

theorem packBits_spec (hclean : Clean m t) (hpos : 0 < f.2) (hle : f.2 ≤ 32) :
    (packBits (m, t) f).2 = t + f.2 ∧ ∀ j, bit (packBits (m, t) f).1 j =
      if t ≤ j ∧ j < 8 * ((t + f.2 + 7) / 8) then f.1.testBit (j - t) else bit m j := by
  have hrest := fun m' j => @packRest_spec m' (t / 8) f.1 (8 - t % 8) (f.2 + t % 8)
    (if t % 8 ≠ 0 then 4 else 3) (by omega) (by split_ifs <;> omega) j
  constructor
  · simp only [packBits, (hrest _ 0).1]
    split_ifs <;> omega
  · intro j
    have hold : j / 8 = t / 8 → bit m j = (m (t / 8)).toNat.testBit (j - 8 * (t / 8)) := by
      intro hj
      rw [bit, hj, show j % 8 = j - 8 * (t / 8) by omega]
    have hzero := hclean j
    rw [packBits, (hrest _ j).2, bit_store]
    split_ifs <;> grind

theorem testBit_unpackBytes {i b bytes : ℕ} (hb : b < 8) (hi : i < 32) (hbytes : i + b < 8 * bytes) :
    (unpackBytes stale m p b bytes).testBit i = bit m (8 * p + b + i) := by
  have hfirst : (m p).toNat = load m p 1 := rfl
  have hnext : 8 - b ≤ i → 8 * (p + 1) + (i - (8 - b)) = 8 * p + b + i := by omega
  rw [unpackBytes, hfirst]
  split_ifs <;> simp only [Nat.testBit_or, Nat.testBit_mod_two_pow, Nat.testBit_shiftLeft,
    Nat.testBit_shiftRight, testBit_load] <;> grind

/-- The fields stand in the memory from bit `t` on. -/
def Holds (m : ℕ → UInt8) : ℕ → List (ℕ × ℕ) → Prop
  | _, [] => True
  | t, f :: fs =>
    f.2 ≤ 32 ∧ f.1 < 2 ^ f.2 ∧ (∀ i < f.2, bit m (t + i) = f.1.testBit i) ∧ Holds m (t + f.2) fs

theorem Holds.unpack (h : Holds m t (f :: fs)) :
    ubifsUnpackBits stale m t f.2 = (f.1, t + f.2) ∧ Holds m (t + f.2) fs := by
  obtain ⟨hle, hlt, hbits, hrest⟩ := h
  refine ⟨Prod.ext (Nat.eq_of_testBit_eq fun i => ?_) (by simp only [ubifsUnpackBits]; omega), hrest⟩
  rw [ubifsUnpackBits, Nat.testBit_shiftRight, Nat.testBit_mod_two_pow, Nat.testBit_shiftLeft]
  by_cases hi : i < f.2
  · rw [Nat.add_sub_cancel_left, testBit_unpackBytes (by omega) (by omega) (by omega),
      Nat.div_add_mod, hbits i hi]
    simp [show 32 - f.2 + i < 32 by omega]
  · rw [Nat.testBit_lt_two_pow (hlt.trans_le (Nat.pow_le_pow_right two_pos (by omega)))]
    simp [show ¬ 32 - f.2 + i < 32 by omega]

def width (fs : List (ℕ × ℕ)) : ℕ := (fs.map Prod.snd).sum

/-- The fields are there, and no other byte has changed. -/
theorem packBits_holds (hclean : Clean m t)
    (hok : ∀ f ∈ fs, 0 < f.2 ∧ f.2 ≤ 32 ∧ f.1 < 2 ^ f.2) :
    Holds (fs.foldl packBits (m, t)).1 t fs ∧
      ∀ j, j < t ∨ 8 * ((t + width fs + 7) / 8) ≤ j →
        bit (fs.foldl packBits (m, t)).1 j = bit m j := by
  induction fs generalizing m t with
  | nil => exact ⟨trivial, fun _ _ => rfl⟩
  | cons f fs ih =>
    obtain ⟨hf, hok⟩ := forall_mem_cons.1 hok
    obtain ⟨hnext, hbit⟩ := packBits_spec hclean hf.1 hf.2.1
    have hwidth : width (f :: fs) = f.2 + width fs := rfl
    have hclean' : Clean (packBits (m, t) f).1 (t + f.2) := by
      intro j hpos hj hbyte
      rw [hbit, if_pos (by omega)]
      exact Nat.testBit_lt_two_pow (hf.2.2.trans_le (Nat.pow_le_pow_right two_pos (by omega)))
    obtain ⟨hrest, hframe⟩ := ih hclean' hok
    rw [← hnext, Prod.mk.eta, hnext] at hrest hframe
    refine ⟨⟨hf.2.1, hf.2.2, fun i hi => ?_, hrest⟩, fun j hj => ?_⟩
    · rw [foldl_cons, hframe _ (by omega), hbit, if_pos (by omega), Nat.add_sub_cancel_left]
    · rw [foldl_cons, hframe _ (by omega), hbit, if_neg (by omega)]

/-- The values of fields of the given widths. -/
def unpackFields (stale : ℕ → ℕ) (m : ℕ → UInt8) : ℕ → List ℕ → List ℕ
  | _, [] => []
  | t, nrbits :: ns =>
    (ubifsUnpackBits (stale t) m t nrbits).1 ::
      unpackFields stale m (ubifsUnpackBits (stale t) m t nrbits).2 ns

theorem Holds.unpackFields (h : Holds m t fs) (stale : ℕ → ℕ) :
    unpackFields stale m t (fs.map Prod.snd) = fs.map Prod.fst := by
  induction fs generalizing t with
  | nil => rfl
  | cons f fs ih =>
    obtain ⟨hval, hrest⟩ := h.unpack
    rw [map_cons, Ubifs.unpackFields, hval, map_cons, ih hrest]

/-- Fields are read back as they were written, whatever the buffer held before. -/
theorem unpackFields_packBits (m : ℕ → UInt8) (buf : ℕ) (stale : ℕ → ℕ)
    (hok : ∀ f ∈ fs, 0 < f.2 ∧ f.2 ≤ 32 ∧ f.1 < 2 ^ f.2) :
    unpackFields stale (fs.foldl packBits (m, 8 * buf)).1 (8 * buf) (fs.map Prod.snd) =
        fs.map Prod.fst ∧
      ∀ j, j < 8 * buf ∨ 8 * (buf + (width fs + 7) / 8) ≤ j →
        bit (fs.foldl packBits (m, 8 * buf)).1 j = bit m j := by
  obtain ⟨hholds, hframe⟩ := packBits_holds (fun j h => absurd (Nat.mul_mod_right 8 buf) h) hok
  exact ⟨hholds.unpackFields stale, fun j hj => hframe j (by omega)⟩

theorem unpackFields_packBits_lprops :
    let fs := [(0, 4), (1234, 14), (77, 14), (1, 1)]
    unpackFields (fun _ => 0) (fs.foldl packBits (fun _ => 0xA5, 8 * 2)).1 (8 * 2)
      (fs.map Prod.snd) = fs.map Prod.fst :=
  (unpackFields_packBits _ 2 _ (by decide)).1

end Cupcake.Ubifs
