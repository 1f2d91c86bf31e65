import Cupcake.Selinux.Mls.Grammar
import Mathlib.Order.Interval.Finset.Nat

/-! The text of an MLS range is read back as the range it was written for. -/

namespace Cupcake.Selinux

open EbitmapNode List

/-- The names of a policy have no separator in them and are found under the number they are
written for; so they are distinct. -/
structure MlsPolicy.Named (p : MlsPolicy) : Prop where
  cat : ∀ i nm, p.catName i = some nm → p.cats nm = some (i + 1) ∧
    ∀ c ∈ nm, c ∉ [':', '-', ',', '.']
  level : ∀ i nm, p.levelName i = some nm → (∃ lev, p.levels nm = some lev ∧ lev.sens = i + 1) ∧
    ∀ c ∈ nm, c ∉ [':', '-', ',', '.']

/-- The categories of the policy's levels have names, up to the place behind the last one; all of
them if the policy has no categories. -/
def MlsPolicy.CatsNamed (p : MlsPolicy) : Prop :=
  ∀ i name lev, p.levelName i = some name → p.levels name = some lev → ∀ b, Mem lev.cat.node b →
    p.catNames.length = 0 ∨ b ≤ p.catNames.length → (p.catName b).isSome

def SameLevel (l₁ l₂ : MlsLevel) : Prop :=
  l₁.sens = l₂.sens ∧ ∀ b, Mem l₁.cat.node b ↔ Mem l₂.cat.node b

/-- The text of a range has the computed length and is read back whole. -/
def RoundTrips (p : MlsPolicy) (r : MlsRange) : Prop :=
  ∃ text, mlsSidToContext p r = some (':' :: text) ∧
    mlsComputeContextLen p r = some (':' :: text).length ∧
    ∃ r', mlsContextToSid p text = .ok (r', []) ∧ SameLevel r'.low r.low ∧ SameLevel r'.high r.high

variable {p : MlsPolicy} {l : MlsLevel} {r : MlsRange} {e : Ebitmap} {s : Finset ℕ} {nm : List Char}
  {tail rest stops : List Char} {delim : Option Char} {i j : ℕ}

/-! ## Lengths -/

theorem runEndLen_eq (p : MlsPolicy) (head prev : ℤ) :
    runEndLen p head prev = (runEnd p head prev).map length := by
  by_cases h : prev = head
  · simp [runEndLen, runEnd, h]
  · rw [runEndLen, runEnd, if_pos (Ne.symm h), if_pos h]
    cases p.catName prev.toNat <;> rfl

theorem catsLen_eq (p : MlsPolicy) (is : List ℕ) (head prev : ℤ) :
    catsLen p head prev is = (catsText p head prev is).map length := by
  induction is generalizing head prev with
  | nil => exact runEndLen_eq p head prev
  | cons i is ih =>
    rw [catsLen, catsText, ih, ih, runEndLen_eq]
    by_cases h : i - prev > 1
    · rw [if_pos h, if_pos h]
      cases runEnd p head prev with
      | none => rfl
      | some last =>
        cases p.catName i with
        | none => rfl
        | some nm =>
          cases catsText p i i is with
          | none => rfl
          | some text =>
            simp
            omega
    · rw [if_neg h, if_neg h]

theorem levelLen_eq (p : MlsPolicy) (l : MlsLevel) :
    levelLen p l = (levelText p l).map length := by
  rw [levelLen, levelText]
  cases p.levelName (wsub 32 l.sens 1) with
  | none => rfl
  | some nm =>
    cases forEachPositiveBit l.cat with
    | none => rfl
    | some bits =>
      simp only [Option.bind_eq_bind, Option.bind_some, catsLen_eq]
      cases catsText p (-2) (-2) bits <;> simp

theorem mlsComputeContextLen_eq (p : MlsPolicy) (r : MlsRange) :
    mlsComputeContextLen p r = (mlsSidToContext p r).map length := by
  rw [mlsComputeContextLen, mlsSidToContext, levelLen_eq, levelLen_eq]
  cases levelText p r.low with
  | none => rfl
  | some low =>
    split_ifs
    · simp [Nat.add_comm]
    · cases levelText p r.high with
      | none => rfl
      | some high =>
        simp
        omega

/-! ## Items -/

theorem setCat_represents (h : Represents e s) (hb : i < bitLimit) :
    ∃ e', setCat e i = .ok e' ∧ Represents e' (insert i s) := by
  obtain ⟨e', ret, hset, hret, hrep⟩ := ebitmapSetBit_represents h true fun (_ : true = true) => hb
  have h0 : ret = 0 := by simpa using hret
  subst h0
  exact ⟨e', by simp [setCat, hset], by simpa using hrep⟩

theorem foldlM_setCat_represents {bits : List ℕ} (h : Represents e s) (hb : ∀ b ∈ bits, b < 2 ^ 31) :
    ∃ e', bits.foldlM (fun cat i => setCat cat (ofInt i)) e = .ok e' ∧
      Represents e' (s ∪ bits.toFinset) := by
  induction bits generalizing e s with
  | nil => exact ⟨e, rfl, by simpa using h⟩
  | cons b bits ih =>
    obtain ⟨hb, hbits⟩ := forall_mem_cons.mp hb
    obtain ⟨e₁, h₁, hr₁⟩ := setCat_represents h (show b < bitLimit from hb.trans (by decide))
    obtain ⟨e₂, h₂, hr₂⟩ := ih hr₁ hbits
    refine ⟨e₂, ?_, ?_⟩
    · simp only [foldlM_cons, ofInt, if_pos hb, h₁, ok_bind]
      exact h₂
    · rwa [toFinset_cons, Finset.union_insert, ← Finset.insert_union]

theorem cat_lt_limit (hi : p.catName i = some nm) : i < 2 ^ 31 ∧ i < bitLimit := by
  have hlt : i < p.catNames.length := by
    by_contra hge
    rw [MlsPolicy.catName, getElem?_eq_none (not_lt.mp hge)] at hi
    cases hi
  have := p.names_lt.2
  exact ⟨by omega, by simp only [bitLimit]; omega⟩

theorem setItem_one (hn : p.Named) (hi : p.catName i = some nm) (h : Represents e s) :
    ∃ e', setItem p e nm = .ok e' ∧ Represents e' (insert i s) := by
  obtain ⟨h31, hlim⟩ := cat_lt_limit hi
  obtain ⟨hnm, hplain⟩ := hn.cat i nm hi
  obtain ⟨e', hset, hrep⟩ := setCat_represents h hlim
  refine ⟨e', ?_, hrep⟩
  rw [setItem, scan_nil_of fun c hc hm => hplain c hc (by simp [mem_singleton.mp hm])]
  simp only [hnm, wsub_of_le (show 1 ≤ i + 1 by omega) (show i + 1 < 2 ^ 32 by omega),
    Nat.add_sub_cancel, hset, ok_bind, if_true]
  rfl

theorem setItem_run (hn : p.Named) {nm' : List Char} (hij : i < j) (hi : p.catName i = some nm)
    (hj : p.catName j = some nm') (h : Represents e s) :
    ∃ e', setItem p e (nm ++ '.' :: nm') = .ok e' ∧ Represents e' (s ∪ Finset.Icc i j) := by
  obtain ⟨h31, hlim⟩ := cat_lt_limit hj
  obtain ⟨hnm, hplain⟩ := hn.cat i nm hi
  obtain ⟨hnm', -⟩ := hn.cat j nm' hj
  obtain ⟨e₁, hset, hrep⟩ := setCat_represents h (hij.trans hlim)
  obtain ⟨e₂, hrun, hrep₂⟩ := @foldlM_setCat_represents e₁ _ (range' (i + 1) (j + 1 - (i + 1)))
    hrep fun b hb => by
      have := mem_range'_1.mp hb
      omega
  refine ⟨e₂, ?_, ?_⟩
  · rw [setItem, scan_append (fun c hc hm => hplain c hc (by simp [mem_singleton.mp hm]))
      (by simp)]
    simp only [hnm, hnm', wsub_of_le (show 1 ≤ i + 1 by omega) (show i + 1 < 2 ^ 32 by omega),
      Nat.add_sub_cancel, hset, ok_bind, if_neg (show ¬i + 1 ≥ j + 1 by omega), hrun]
    rfl
  · convert hrep₂ using 1
    ext b
    have : i ≤ b ∧ b ≤ j ↔ b = i ∨ i + 1 ≤ b ∧ b < i + 1 + (j + 1 - (i + 1)) := by omega
    simp only [Finset.mem_union, Finset.mem_Icc, Finset.mem_insert, mem_toFinset,
      mem_range'_1, this]
    simp only [or_assoc, or_left_comm]

def catNext (p : MlsPolicy) (cat : Ebitmap) :
    List Char → Except ContextError (Ebitmap × Option Char × List Char)
  | [] => .ok (cat, none, [])
  | c :: rest => if c = ',' then catLoop p cat [] rest else .ok (cat, some c, rest)

theorem catLoop_item {item k : List Char} (hitem : ∀ c ∈ item, c ∉ [',', '-'])
    (hk : ∀ c ∈ k.head?, c ∈ [',', '-']) :
    catLoop p e [] (item ++ k) = (setItem p e item >>= fun e' => catNext p e' k) := by
  rw [catLoop_append hitem, nil_append]
  cases k with
  | nil => rfl
  | cons c k =>
    have hc : c = ',' ∨ c = '-' := by simpa using hk c rfl
    rcases hc with rfl | rfl
    · rfl
    · rfl

theorem catLoop_runEnd (hn : p.Named) (hij : i ≤ j) (hj : (p.catName j).isSome)
    (hnm : p.catName i = some nm) :
    ∃ last, runEnd p i j = some last ∧ ∀ k : List Char, (∀ c ∈ k.head?, c ∈ [',', '-']) →
      ∀ e s, Represents e s → ∃ e', catLoop p e [] (nm ++ (last ++ k)) = catNext p e' k ∧
        Represents e' (s ∪ Finset.Icc i j) := by
  obtain ⟨nm₂, h₂⟩ := Option.isSome_iff_exists.mp hj
  have hstop : ∀ {i nm}, p.catName i = some nm → ∀ c ∈ nm, c ∉ [',', '-'] := fun h c hc hm =>
    (hn.cat _ _ h).2 c hc (by rcases mem_pair.mp hm with rfl | rfl <;> simp)
  rcases Nat.lt_trichotomy j (i + 1) with hlt | rfl | hgt
  · -- one category
    obtain rfl : j = i := by omega
    refine ⟨[], by simp [runEnd], fun k hk e s hrep => ?_⟩
    obtain ⟨e', hset, hrep'⟩ := setItem_one hn hnm hrep
    refine ⟨e', ?_, by simpa using hrep'⟩
    rw [nil_append, catLoop_item (hstop hnm) hk, hset]
    rfl
  · -- two, with a comma between them
    refine ⟨',' :: nm₂, by simp [runEnd, h₂], fun k hk e s hrep => ?_⟩
    obtain ⟨e₁, hset₁, hrep₁⟩ := setItem_one hn hnm hrep
    obtain ⟨e₂, hset₂, hrep₂⟩ := setItem_one hn h₂ hrep₁
    refine ⟨e₂, ?_, ?_⟩
    · rw [cons_append, catLoop_item (hstop hnm) (by simp), hset₁, ok_bind, catNext, if_pos rfl,
        catLoop_item (hstop h₂) hk, hset₂]
      rfl
    · convert hrep₂ using 1
      ext b
      have : i ≤ b ∧ b ≤ i + 1 ↔ b = i + 1 ∨ b = i := by omega
      simp only [Finset.mem_union, Finset.mem_Icc, Finset.mem_insert, this]
      simp only [or_assoc, or_comm, or_left_comm]
  · -- a range
    refine ⟨'.' :: nm₂, ?_, fun k hk e s hrep => ?_⟩
    · rw [runEnd, if_pos (by omega), Int.toNat_natCast, h₂]
      simp only [Option.bind_eq_bind, Option.bind_some, if_pos (show (j : ℤ) - i > 1 by omega)]
      rfl
    · obtain ⟨e', hset, hrep'⟩ := setItem_run hn (by omega) hnm h₂ hrep
      refine ⟨e', ?_, hrep'⟩
      have hitem : ∀ c ∈ nm ++ '.' :: nm₂, c ∉ [',', '-'] := by
        intro c hc
        rcases mem_append.mp hc with hc | hc
        · exact hstop hnm c hc
        · rcases List.mem_cons.mp hc with rfl | hc
          · decide
          · exact hstop h₂ c hc
      rw [← append_assoc, catLoop_item hitem hk, hset]
      rfl

/-! ## Levels -/

theorem catLoop_catsText (hn : p.Named) {is : List ℕ} (hij : i ≤ j) (hj : (p.catName j).isSome)
    (hnm : p.catName i = some nm) (hsort : is.Pairwise (· < ·)) (hgt : ∀ b ∈ is, j < b)
    (hlt : ∀ b ∈ is, (p.catName b).isSome) (hends : Ends tail delim rest) :
    ∃ text, catsText p i j is = some text ∧ ∀ e s, Represents e s →
      ∃ e', catLoop p e [] (nm ++ (text ++ tail)) = .ok (e', delim, rest) ∧
        Represents e' (s ∪ Finset.Icc i j ∪ is.toFinset) := by
  induction is generalizing i j nm with
  | nil =>
    obtain ⟨last, hlast, hrun⟩ := catLoop_runEnd hn hij hj hnm
    refine ⟨last, hlast, fun e s hrep => ?_⟩
    cases hends with
    | nil =>
      obtain ⟨e', he', hrep'⟩ := hrun [] (by simp) e s hrep
      exact ⟨e', he', by simpa using hrep'⟩
    | dash rest =>
      obtain ⟨e', he', hrep'⟩ := hrun ('-' :: rest) (by simp) e s hrep
      exact ⟨e', he', by simpa using hrep'⟩
  | cons b is ih =>
    obtain ⟨hb, hsort'⟩ := pairwise_cons.mp hsort
    obtain ⟨hbl, hlt'⟩ := forall_mem_cons.mp hlt
    have hjb := hgt b (by simp)
    rw [catsText]
    by_cases hnew : (b : ℤ) - j > 1
    · -- a new run begins
      obtain ⟨last, hlast, hrun⟩ := catLoop_runEnd hn hij hj hnm
      obtain ⟨nm', hnm'⟩ := Option.isSome_iff_exists.mp hbl
      obtain ⟨text, htext, hread⟩ := ih le_rfl hbl hnm' hsort' hb hlt'
      refine ⟨last ++ ',' :: (nm' ++ text), ?_, fun e s hrep => ?_⟩
      · simp only [if_pos hnew, hlast, hnm', htext, Option.bind_eq_bind, Option.bind_some,
          if_neg (show ¬(j : ℤ) < 0 by omega)]
        rfl
      · obtain ⟨e₁, h₁, hrep₁⟩ := hrun (',' :: (nm' ++ (text ++ tail))) (by simp) e s hrep
        obtain ⟨e₂, h₂, hrep₂⟩ := hread e₁ _ hrep₁
        refine ⟨e₂, ?_, ?_⟩
        · simp only [append_assoc, cons_append]
          rw [h₁, catNext, if_pos rfl, h₂]
        · convert hrep₂ using 1
          ext x
          simp only [toFinset_cons, Finset.mem_union, Finset.mem_insert, Finset.mem_Icc]
          have : b ≤ x ∧ x ≤ b ↔ x = b := by omega
          rw [this]
          simp only [or_assoc, or_comm, or_left_comm]
    · -- the run goes on
      obtain rfl : b = j + 1 := by omega
      obtain ⟨text, htext, hread⟩ := ih (j := j + 1) (by omega) hbl hnm hsort' hb hlt'
      rw [if_neg hnew]
      refine ⟨text, htext, fun e s hrep => ?_⟩
      obtain ⟨e', he', hrep'⟩ := hread e s hrep
      refine ⟨e', he', ?_⟩
      convert hrep' using 1
      ext x
      simp only [toFinset_cons, Finset.mem_union, Finset.mem_insert, Finset.mem_Icc]
      have : i ≤ x ∧ x ≤ j + 1 ↔ i ≤ x ∧ x ≤ j ∨ x = j + 1 := by omega
      rw [this]
      simp only [or_assoc, or_comm, or_left_comm]

theorem readLevel_levelText (hn : p.Named) (hcat : l.cat.Readable) (hno : p.CatsNamed)
    (hl : mlsLevelIsvalid p l = some true) (hcolon : ':' ∈ stops)
    (hstops : stops ⊆ [':', '-', ',', '.']) (hends : Ends tail delim rest)
    (hdash : delim = none ∨ '-' ∈ stops) :
    ∃ text, levelText p l = some text ∧ ∃ l',
      readLevel p (scan stops (text ++ tail)) = .ok (l', delim, rest) ∧ SameLevel l' l := by
  have hrange := (mlsLevelIsvalid_true hl).1
  obtain ⟨-, nm, lev, hnm, hlev, hcats⟩ := bits_of_mlsLevelIsvalid hl
  obtain ⟨⟨lev', hlev', hsens⟩, hplain⟩ := hn.level _ nm hnm
  obtain rfl := Option.some.inj (hlev.symm.trans hlev')
  have hsub : wsub 32 l.sens 1 = l.sens - 1 := by
    have := p.names_lt.1
    exact wsub_of_le hrange.1 (by omega)
  have hsens : lev.sens = l.sens := by omega
  have hstop : ∀ c ∈ nm, c ∉ stops := fun c hc hm => hplain c hc (hstops hm)
  have hbits := forEachPositiveBit_eq hcat.2 hcat.1
  have hsort := hcat.2.bitList_pairwise
  have hmem : ∀ b, b ∈ bitList l.cat.node ↔ Mem l.cat.node b := fun b => mem_bitList
  cases hb : bitList l.cat.node with
  | nil =>
    rw [hb] at hmem hbits
    refine ⟨nm, ?_, ⟨lev.sens, ebitmapInit⟩, ?_, hsens, fun b => ?_⟩
    · simp [levelText, hsub, hnm, hbits, catsText, runEnd]
    · cases hends with
      | nil =>
        rw [append_nil, scan_nil_of hstop, readLevel]
        simp [hlev]
      | dash rest =>
        rw [scan_append hstop (hdash.resolve_left (by simp)), readLevel]
        simp [hlev]
    · rw [← hmem b]
      simp [ebitmapInit, not_mem_nil]
  | cons i is =>
    rw [hb] at hmem hbits hsort
    obtain ⟨hlt, hsort⟩ := pairwise_cons.mp hsort
    have hnamed : ∀ b ∈ i :: is, (p.catName b).isSome := fun b hbm =>
      let h := hcats b ((hmem b).mp hbm)
      hno _ nm lev hnm hlev b h.1 h.2
    obtain ⟨hi, his⟩ := forall_mem_cons.mp hnamed
    obtain ⟨nm', hnm'⟩ := Option.isSome_iff_exists.mp hi
    obtain ⟨text, htext, hread⟩ := catLoop_catsText hn le_rfl hi hnm' hsort hlt his hends
    obtain ⟨e', he', hrep⟩ := hread _ _ Represents.init
    refine ⟨nm ++ ':' :: (nm' ++ text), ?_, ⟨lev.sens, e'⟩, ?_, hsens, fun b => ?_⟩
    · have hnew : (1 : ℤ) < i + 2 := by omega
      simp [levelText, hsub, hnm, hbits, catsText, hnew, runEnd, hnm', htext]
    · simp only [append_assoc, cons_append]
      rw [scan_append hstop hcolon, readLevel]
      simp only [hlev, if_true, he', ok_bind]
      rfl
    · rw [← hrep.mem, ← hmem b]
      simp

theorem roundTrips_of_isvalid (hn : p.Named) (hno : p.CatsNamed) {c : Context}
    (hlow : c.range.low.cat.Readable) (hhigh : c.range.high.cat.Readable)
    (hc : mlsContextIsvalid p c = some true) : RoundTrips p c.range := by
  obtain ⟨hvl, hvh, -, -⟩ := mlsContextIsvalid_true hc
  by_cases heq : mlsLevelEq c.range.low c.range.high = true
  · obtain ⟨text, htext, l', hread, hsame⟩ := readLevel_levelText hn hlow hno hvl
      (show ':' ∈ [':', '-'] by simp) (by simp) .nil (.inl rfl)
    have hboth : c.range.low = c.range.high := by
      rw [mlsLevelEq, Bool.and_eq_true, decide_eq_true_eq, ebitmapCmp_iff] at heq
      exact MlsLevel.ext heq.1 heq.2
    have hsid : mlsSidToContext p c.range = some (':' :: text) := by
      simp [mlsSidToContext, htext, heq]
    refine ⟨text, hsid, by rw [mlsComputeContextLen_eq, hsid]; rfl, ⟨l', l'⟩, ?_, hsame,
      hboth ▸ hsame⟩
    rw [append_nil] at hread
    simp [mlsContextToSid, readRange, hread]
  · obtain ⟨high, hhtext, h', hhread, hhsame⟩ := readLevel_levelText hn hhigh hno hvh
      (show ':' ∈ [':'] by simp) (by simp) .nil (.inl rfl)
    obtain ⟨low, hltext, l', hlread, hlsame⟩ := readLevel_levelText hn hlow hno hvl
      (show ':' ∈ [':', '-'] by simp) (by simp) (.dash high) (.inr (by simp))
    have hsid : mlsSidToContext p c.range = some (':' :: (low ++ '-' :: high)) := by
      simp [mlsSidToContext, hltext, heq, hhtext]
    refine ⟨low ++ '-' :: high, hsid, by rw [mlsComputeContextLen_eq, hsid]; rfl, ⟨l', h'⟩, ?_,
      hlsame, hhsame⟩
    rw [append_nil] at hhread
    simp [mlsContextToSid, readRange, hlread, hhread]

theorem levelText_eq_none {b : ℕ} (hcat : l.cat.Readable) (hmem : ∀ x, Mem l.cat.node x ↔ x = b)
    (hb : p.catName b = none) : levelText p l = none := by
  rw [levelText, forEachPositiveBit_eq hcat.2 hcat.1]
  cases hbits : bitList l.cat.node with
  | nil =>
    have hm := (hmem b).mpr rfl
    rw [← mem_bitList, hbits] at hm
    cases hm
  | cons i is =>
    obtain rfl : i = b := (hmem i).mp (mem_bitList.mp (by simp [hbits]))
    have hnew : (1 : ℤ) < i + 2 := by omega
    cases p.levelName (wsub 32 l.sens 1) with
    | none => rfl
    | some nm => simp [catsText, hnew, runEnd, hb]

/-- The text of every valid context is read back as the same levels exactly when the categories
that pass the bound have names. -/
theorem isvalid_roundTrips_iff (hn : p.Named) :
    (∀ c : Context, c.range.low.cat.Readable → c.range.high.cat.Readable →
      mlsContextIsvalid p c = some true → RoundTrips p c.range) ↔ p.CatsNamed := by
  refine ⟨fun h i name lev hname hlev b hmem hb => ?_,
    fun hno c hl hh hc => roundTrips_of_isvalid hn hno hl hh hc⟩
  by_contra hnone
  obtain ⟨c, hc, heq, hread, hbits⟩ := exists_valid_singleton hname hlev hmem hb
  have htext := levelText_eq_none hread hbits (Option.not_isSome_iff_eq_none.mp hnone)
  obtain ⟨text, hsid, -⟩ := h c hread (heq ▸ hread) hc
  simp [mlsSidToContext, htext] at hsid

theorem oneCatPolicy_named (w : BitVec 64) : (oneCatPolicy w).Named where
  cat i nm h := by
    cases i with
    | zero =>
      cases h
      exact ⟨rfl, by simp⟩
    | succ i => cases h
  level i nm h := by
    cases i with
    | zero =>
      cases h
      exact ⟨⟨_, rfl, rfl⟩, by simp⟩
    | succ i => cases h

theorem roundTrips_oneCat :
    (oneCatPolicy 1).Named ∧ RoundTrips (oneCatPolicy 1) (wordContext 1).range := by
  have hno : (oneCatPolicy 1).CatsNamed := by
    rintro i name lev - hlev b ⟨n, hn, -, ht⟩ -
    simp only [oneCatPolicy] at hlev
    split_ifs at hlev
    cases hlev
    obtain rfl := mem_singleton.mp hn
    have hzero : ∀ k < 384, test ⟨fun i => if i = 0 then 1 else 0, 0⟩ k = true → k = 0 := by
      decide +kernel
    obtain rfl : b = 0 := hzero b (lt_of_test ht) ht
    rfl
  exact ⟨oneCatPolicy_named 1, (isvalid_roundTrips_iff (oneCatPolicy_named 1)).mpr hno _
    (wordCats_readable 1) (wordCats_readable 1) (by decide +kernel)⟩

theorem isvalid_not_roundTrips :
    (oneCatPolicy 3).Named ∧ (wordContext 2).range.low.cat.Readable ∧
      mlsContextIsvalid (oneCatPolicy 3) (wordContext 2) = some true ∧
      ¬RoundTrips (oneCatPolicy 3) (wordContext 2).range := by
  refine ⟨oneCatPolicy_named 3, wordCats_readable 2, by decide +kernel, ?_⟩
  rintro ⟨text, htext, -⟩
  have hnone : mlsSidToContext (oneCatPolicy 3) (wordContext 2).range = none := by decide +kernel
  cases htext

end Cupcake.Selinux
