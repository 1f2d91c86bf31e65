import Cupcake.Selinux.Ebitmap.PolicyFile
import Cupcake.Selinux.Context

/-! `mls_context_isvalid`, and what it leaves to the functions that render a context. -/

namespace Cupcake.Selinux

open EbitmapNode List Option

/-- What the MLS functions read of an MLS policy. A table of names has `nprim` entries, and one
that nothing was put into is `none`. -/
structure MlsPolicy where
  /-- `hashtab_search(p_levels.table, name)->level` -/
  levels : List Char → Option MlsLevel
  /-- `sym_val_to_name[SYM_LEVELS]` -/
  levelNames : List (Option (List Char))
  /-- `hashtab_search(p_cats.table, name)->value` -/
  cats : List Char → Option ℕ
  /-- `sym_val_to_name[SYM_CATS]` -/
  catNames : List (Option (List Char))
  /-- The ranges of `user_val_to_struct`. -/
  users : List (Option MlsRange)
  /-- The categories of a level come from `ebitmap_read`, see `readable_of_read`. -/
  levels_readable : ∀ name lev, levels name = some lev → lev.cat.Readable
  /-- `flex_array_alloc` has no place for more. -/
  names_lt : levelNames.length < 2 ^ 31 ∧ catNames.length < 2 ^ 31

namespace MlsPolicy

/-- `sym_name(p, SYM_LEVELS, i)`; no name is a null pointer. -/
def levelName (p : MlsPolicy) (i : ℕ) : Option (List Char) := p.levelNames[i]?.join

/-- `sym_name(p, SYM_CATS, i)` -/
def catName (p : MlsPolicy) (i : ℕ) : Option (List Char) := p.catNames[i]?.join

end MlsPolicy

def objectRVal : ℕ := 1

def mlsRangeContains (r₁ r₂ : MlsRange) : Bool :=
  mlsLevelDom r₂.low r₁.low && mlsLevelDom r₁.high r₂.high

def mlsLevelIsvalid (p : MlsPolicy) (l : MlsLevel) : Option Bool :=
  if l.sens = 0 ∨ l.sens > p.levelNames.length then some false
  else do
    let name ← p.levelName (l.sens - 1)
    match p.levels name with
    | none => some false
    | some lev => some (ebitmapContains lev.cat l.cat p.catNames.length)

def mlsRangeIsvalid (p : MlsPolicy) (r : MlsRange) : Option Bool := do
  if ← mlsLevelIsvalid p r.low then
    if ← mlsLevelIsvalid p r.high then return mlsLevelDom r.high r.low
    else return false
  else return false

def mlsContextIsvalid (p : MlsPolicy) (c : Context) : Option Bool := do
  if ← mlsRangeIsvalid p c.range then
    if c.role = objectRVal then return true
    else if c.user = 0 ∨ c.user > p.users.length then return false
    else do
      let usrdatum ← p.users[c.user - 1]?.join
      return mlsRangeContains usrdatum c.range
  else return false

/-! ## What validity has to give -/

def MlsLevel.Dominates (l₁ l₂ : MlsLevel) : Prop :=
  l₂.sens ≤ l₁.sens ∧ ∀ b, Mem l₂.cat.node b → Mem l₁.cat.node b

def MlsLevel.Renderable (p : MlsPolicy) (l : MlsLevel) : Prop :=
  (1 ≤ l.sens ∧ l.sens ≤ p.levelNames.length) ∧ ∀ b, Mem l.cat.node b → b < p.catNames.length

structure Context.Renderable (p : MlsPolicy) (c : Context) : Prop where
  low : c.range.low.Renderable p
  high : c.range.high.Renderable p
  dominates : c.range.high.Dominates c.range.low
  user : c.role ≠ objectRVal → ∃ r, p.users[c.user - 1]?.join = some r ∧
    c.range.low.Dominates r.low ∧ r.high.Dominates c.range.high

/-- No level of the policy has a category in the place behind the last one. -/
def MlsPolicy.NoCatBehind (p : MlsPolicy) : Prop :=
  ∀ i name lev, p.levelName i = some name → p.levels name = some lev →
    ∀ b, Mem lev.cat.node b → b ≠ p.catNames.length ∧ p.catNames.length ≠ 0

variable {p : MlsPolicy} {l l₁ l₂ : MlsLevel} {e e₁ e₂ : Ebitmap} {n n₁ n₂ : EbitmapNode}
  {ns ns₁ ns₂ : List EbitmapNode} {b last lo highbit : ℕ}

theorem exists_of_containsLoop (h : containsLoop last ns₁ ns₂ = true) (hn : n₂ ∈ ns₂) :
    ∃ n₁ ∈ ns₁, n₁.startbit = n₂.startbit ∧ nodeContains last n₁ n₂ = true := by
  induction ns₁ generalizing ns₂ with
  | nil =>
    cases ns₂ with
    | nil => cases hn
    | cons m ns₂ => cases h
  | cons n₁ ns₁ ih =>
    cases ns₂ with
    | nil => cases hn
    | cons m ns₂ =>
      rw [containsLoop] at h
      split_ifs at h with hle hlt hnode
      · obtain ⟨n, hmem, hs⟩ := ih h hn
        exact ⟨n, mem_cons_of_mem _ hmem, hs⟩
      · rcases List.mem_cons.mp hn with rfl | hn
        · exact ⟨n₁, by simp, by omega, hnode⟩
        · obtain ⟨n, hmem, hs⟩ := ih h hn
          exact ⟨n, mem_cons_of_mem _ hmem, hs⟩

/-- The bits of the second bitmap of a successful comparison are bits of the first. -/
theorem subset_of_contains (h : ebitmapContains e₁ e₂ last = true)
    (hs : ∀ n₁ ∈ e₁.node, ∀ n₂ ∈ e₂.node, n₁.startbit = n₂.startbit →
      n₂.startbit + ebitmapSize < 2 ^ 32) :
    (∀ n ∈ e₂.node, n.startbit + ebitmapSize < 2 ^ 32) ∧
      ∀ b, Mem e₂.node b → Mem e₁.node b ∧ (last = 0 ∨ b ≤ last) := by
  rw [ebitmapContains] at h
  split_ifs at h
  constructor
  · intro n hn
    obtain ⟨n₁, h₁, hst, -⟩ := exists_of_containsLoop h hn
    exact hs n₁ h₁ n hn hst
  · rintro b ⟨n, hn, hle, ht⟩
    obtain ⟨n₁, h₁, hst, hnode⟩ := exists_of_containsLoop h hn
    obtain ⟨hsub, hlast⟩ := (nodeContains_iff (hs n₁ h₁ n hn hst)).mp hnode
    refine ⟨⟨n₁, h₁, by omega, ?_⟩, hlast.imp_right fun h => ?_⟩
    · rw [hst]
      exact hsub _ ht
    · have := h _ ht
      omega

theorem containsLoop_singleton (h : Ordered highbit lo ns₁) (h₁ : n₁ ∈ ns₁)
    (hs : n₁.startbit = n₂.startbit) (hn : nodeContains last n₁ n₂ = true) :
    containsLoop last ns₁ [n₂] = true := by
  induction ns₁ generalizing lo with
  | nil => cases h₁
  | cons m ns₁ ih =>
    rw [containsLoop]
    rcases List.mem_cons.mp h₁ with rfl | h₁
    · rw [if_pos hs.le, if_neg (by omega), if_pos hn]
      cases ns₁ <;> rfl
    · have hlt := (h.2.2.end_le h₁).1
      have hm : m.startbit < n₂.startbit := by
        simp only [ebitmapSize] at hlt
        omega
      rw [if_pos hm.le, if_pos hm]
      exact ih h.2.2 h₁

/-! ## Valid contexts -/

theorem mlsLevelIsvalid_true (h : mlsLevelIsvalid p l = some true) :
    (1 ≤ l.sens ∧ l.sens ≤ p.levelNames.length) ∧ ∃ name lev,
      p.levelName (l.sens - 1) = some name ∧ p.levels name = some lev ∧
      ebitmapContains lev.cat l.cat p.catNames.length = true := by
  rw [mlsLevelIsvalid] at h
  split_ifs at h with hs
  · cases h
  · obtain ⟨name, hname, h⟩ := bind_eq_some_iff.mp h
    cases hlev : p.levels name with
    | none => simp [hlev] at h
    | some lev => exact ⟨by omega, name, lev, hname, hlev, by simpa [hlev] using h⟩

theorem bits_of_mlsLevelIsvalid (h : mlsLevelIsvalid p l = some true) :
    (∀ n ∈ l.cat.node, n.startbit + ebitmapSize < 2 ^ 32) ∧
      ∃ name lev, p.levelName (l.sens - 1) = some name ∧ p.levels name = some lev ∧
        ∀ b, Mem l.cat.node b →
          Mem lev.cat.node b ∧ (p.catNames.length = 0 ∨ b ≤ p.catNames.length) := by
  obtain ⟨-, name, lev, hname, hlev, hcont⟩ := mlsLevelIsvalid_true h
  have hord := p.levels_readable name lev hlev
  obtain ⟨hend, hsub⟩ := subset_of_contains hcont fun n₁ h₁ n₂ _ hs => by
    have := (hord.2.end_le h₁).2
    have := hord.1
    omega
  exact ⟨hend, name, lev, hname, hlev, hsub⟩

theorem MlsPolicy.NoCatBehind.lt (hno : p.NoCatBehind) (h : mlsLevelIsvalid p l = some true) :
    ∀ b, Mem l.cat.node b → b < p.catNames.length := by
  intro b hb
  obtain ⟨-, name, lev, hname, hlev, hsub⟩ := bits_of_mlsLevelIsvalid h
  obtain ⟨hmem, hle⟩ := hsub b hb
  obtain ⟨hne, h0⟩ := hno _ name lev hname hlev b hmem
  omega

theorem dominates_of_dom (h : mlsLevelDom l₁ l₂ = true)
    (hs : ∀ n₁ ∈ l₁.cat.node, ∀ n₂ ∈ l₂.cat.node, n₁.startbit = n₂.startbit →
      n₂.startbit + ebitmapSize < 2 ^ 32) : l₁.Dominates l₂ := by
  rw [mlsLevelDom, Bool.and_eq_true, decide_eq_true_eq] at h
  exact ⟨h.1, fun b hb => ((subset_of_contains h.2 hs).2 b hb).1⟩

theorem mlsContextIsvalid_true {c : Context} (h : mlsContextIsvalid p c = some true) :
    mlsLevelIsvalid p c.range.low = some true ∧ mlsLevelIsvalid p c.range.high = some true ∧
      mlsLevelDom c.range.high c.range.low = true ∧ (c.role ≠ objectRVal → ∃ r,
        p.users[c.user - 1]?.join = some r ∧ mlsRangeContains r c.range = true) := by
  obtain ⟨range, hrange, h⟩ := bind_eq_some_iff.mp h
  cases range with
  | false => simp at h
  | true =>
    obtain ⟨low, hlow, hrange⟩ := bind_eq_some_iff.mp hrange
    cases low with
    | false => simp at hrange
    | true =>
      obtain ⟨high, hhigh, hrange⟩ := bind_eq_some_iff.mp hrange
      cases high with
      | false => simp at hrange
      | true =>
        refine ⟨hlow, hhigh, by simpa using hrange, fun hrole => ?_⟩
        simp only [if_true, if_neg hrole] at h
        split_ifs at h with hu
        · cases h
        · obtain ⟨r, hr, h⟩ := bind_eq_some_iff.mp h
          exact ⟨r, hr, by simpa using h⟩

theorem renderable_of_isvalid {c : Context} (hno : p.NoCatBehind)
    (h : mlsContextIsvalid p c = some true) : c.Renderable p := by
  obtain ⟨hlow, hhigh, hdom, huser⟩ := mlsContextIsvalid_true h
  have hl := (bits_of_mlsLevelIsvalid hlow).1
  have hh := (bits_of_mlsLevelIsvalid hhigh).1
  refine ⟨⟨(mlsLevelIsvalid_true hlow).1, hno.lt hlow⟩, ⟨(mlsLevelIsvalid_true hhigh).1, hno.lt hhigh⟩,
    dominates_of_dom hdom fun _ _ n hn _ => hl n hn, fun hrole => ?_⟩
  obtain ⟨r, hr, hcont⟩ := huser hrole
  rw [mlsRangeContains, Bool.and_eq_true] at hcont
  exact ⟨r, hr, dominates_of_dom hcont.1 fun n hn _ _ hs => hs ▸ hl n hn,
    dominates_of_dom hcont.2 fun _ _ n hn _ => hh n hn⟩

theorem exists_single (hb : n.startbit ≤ b) (hlt : b < n.startbit + ebitmapSize)
    (hs : n.startbit + ebitmapSize < 2 ^ 32) :
    ∃ m : EbitmapNode, m.startbit = n.startbit ∧ ∀ k, m.test k = true ↔ k = b - n.startbit := by
  obtain ⟨m, -, hst, ht⟩ := setBit_spec (n := zeroNode n.startbit) hb hlt hs.le
  refine ⟨m, hst, fun k => (ht k).trans ?_⟩
  rw [test_zeroNode]
  exact or_iff_right (by decide)

/-- Each category of a level of the policy that passes the bound makes a valid context alone. -/
theorem exists_valid_singleton {i : ℕ} {name : List Char} {lev : MlsLevel}
    (hname : p.levelName i = some name) (hlev : p.levels name = some lev)
    (hmem : Mem lev.cat.node b) (hb : p.catNames.length = 0 ∨ b ≤ p.catNames.length) :
    ∃ c, mlsContextIsvalid p c = some true ∧ c.range.low = c.range.high ∧
      c.range.low.cat.Readable ∧ ∀ x, Mem c.range.low.cat.node x ↔ x = b := by
  obtain ⟨n, hn, hle, ht⟩ := hmem
  have hord := p.levels_readable name lev hlev
  have hend := (hord.2.end_le hn).2
  have hlt := lt_of_test ht
  have hhigh := hord.1
  obtain ⟨m, hst, hm⟩ := exists_single hle (by omega) (by omega)
  have hi : i < p.levelNames.length := by
    by_contra hi
    rw [MlsPolicy.levelName, getElem?_eq_none (by omega)] at hname
    cases hname
  let l : MlsLevel := ⟨i + 1, ⟨[m], m.startbit + ebitmapSize⟩⟩
  have hread : l.cat.Readable := ⟨by simp only [l]; omega, Nat.zero_le _, le_rfl, trivial⟩
  have hnode (last : ℕ) (hlast : last = 0 ∨ b ≤ last) (n' : EbitmapNode)
      (hn' : n'.test (b - n.startbit) = true) : nodeContains last n' m = true := by
    rw [nodeContains_iff (by omega)]
    simp only [hm, forall_eq]
    exact ⟨hn', hlast.imp_right fun h => by omega⟩
  have hvalid : mlsLevelIsvalid p l = some true := by
    have hc : ebitmapContains lev.cat l.cat p.catNames.length = true := by
      rw [ebitmapContains, if_neg (by simp only [l]; omega)]
      exact containsLoop_singleton hord.2 hn hst.symm (hnode _ hb n ht)
    rw [mlsLevelIsvalid, if_neg (by simp only [l]; omega)]
    simp only [l, Nat.add_sub_cancel, hname, bind_eq_bind, bind_some, hlev]
    rw [hc]
  have hdom : mlsLevelDom l l = true := by
    rw [mlsLevelDom, Bool.and_eq_true]
    refine ⟨by simp, ?_⟩
    rw [ebitmapContains, if_neg (lt_irrefl _)]
    exact containsLoop_singleton hread.2 (mem_singleton.mpr rfl) rfl
      (hnode 0 (.inl rfl) m ((hm _).mpr rfl))
  refine ⟨{ plainContext 1 1 with range := ⟨l, l⟩ }, ?_, rfl, hread, fun x => ?_⟩
  · simp [mlsContextIsvalid, mlsRangeIsvalid, hvalid, hdom, plainContext, objectRVal]
  · simp only [l, mem_cons, not_mem_nil, or_false, hst, hm]
    omega

/-- When every valid context can be rendered. -/
theorem isvalid_renderable_iff (p : MlsPolicy) :
    (∀ c, mlsContextIsvalid p c = some true → c.Renderable p) ↔ p.NoCatBehind := by
  refine ⟨fun h i name lev hname hlev b hmem => ?_, fun hno c hc => renderable_of_isvalid hno hc⟩
  by_contra hb
  obtain ⟨c, hc, -, -, hbits⟩ := exists_valid_singleton hname hlev hmem (by omega)
  have := (h c hc).low.2 b ((hbits b).mpr rfl)
  omega

def wordCats (w : BitVec 64) : Ebitmap := ⟨[⟨fun i => if i = 0 then w else 0, 0⟩], 384⟩

theorem wordCats_readable (w : BitVec 64) : (wordCats w).Readable :=
  ⟨by simp [wordCats], le_rfl, le_rfl, trivial⟩

def oneCatPolicy (w : BitVec 64) : MlsPolicy where
  levels name := if name = ['s'] then some ⟨1, wordCats w⟩ else none
  levelNames := [some ['s']]
  cats name := if name = ['c'] then some 1 else none
  catNames := [some ['c']]
  users := []
  levels_readable name lev h := by
    split_ifs at h
    cases h
    exact wordCats_readable w
  names_lt := by decide

def wordContext (w : BitVec 64) : Context :=
  { plainContext 1 1 with range := ⟨⟨1, wordCats w⟩, ⟨1, wordCats w⟩⟩ }

theorem isvalid_not_renderable :
    mlsContextIsvalid (oneCatPolicy 3) (wordContext 2) = some true ∧
      ¬(wordContext 2).Renderable (oneCatPolicy 3) := by
  refine ⟨by decide +kernel, fun h => ?_⟩
  have := h.low.2 1 (mem_cons.mpr (.inl ⟨by decide, by decide⟩))
  exact absurd this (by decide)

end Cupcake.Selinux
