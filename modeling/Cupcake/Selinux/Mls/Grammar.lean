import Cupcake.Selinux.Mls.Text

/-! The language of `mls_context_to_sid`. -/

namespace Cupcake.Selinux

open EbitmapNode List

/-! ## Setting a bit -/

def Ebitmap.StartsLt (e : Ebitmap) : Prop := ∀ n ∈ e.node, n.startbit < 2 ^ 32

theorem setBit_total (n : EbitmapNode) (bit : ℕ) (h : n.index bit < ebitmapUnitNums) :
    ∃ n', n.setBit bit = some n' ∧ n'.startbit = n.startbit := ⟨_, dif_pos h, rfl⟩

theorem newNode_total (bit : ℕ) : ∃ n, newNode bit = some n ∧ n.startbit < 2 ^ 32 := by
  obtain ⟨n, hn, hs⟩ := setBit_total ⟨fun _ => 0, (bit - bit % ebitmapSize) % 2 ^ 32⟩ bit (by
    simp only [index, wsub, ebitmapSize, ebitmapUnitSize, ebitmapUnitNums]
    omega)
  exact ⟨n, hn, hs ▸ Nat.mod_lt _ (by decide)⟩

theorem setBitLoop_total (bit highbit : ℕ) (prev : Option EbitmapNode) {ns : List EbitmapNode}
    (h : ∀ n ∈ ns, n.startbit < 2 ^ 32) :
    ∃ ns' highbit', setBitLoop bit true true highbit prev ns = some (ns', highbit', 0) ∧
      ∀ n ∈ ns', n.startbit < 2 ^ 32 := by
  obtain ⟨new, hnew, hlt⟩ := newNode_total bit
  induction ns generalizing prev with
  | nil =>
    refine ⟨[new], (new.startbit + ebitmapSize) % 2 ^ 32, ?_, by simpa using hlt⟩
    simp [setBitLoop, hnew]
  | cons n ns ih =>
    obtain ⟨hn, hns⟩ := forall_mem_cons.mp h
    rw [setBitLoop]
    by_cases h₁ : n.startbit ≤ bit
    · by_cases h₂ : n.startbit + ebitmapSize > bit
      · obtain ⟨n', hn', hs⟩ := setBit_total n bit (by
          simp only [index, wsub, ebitmapSize, ebitmapUnitSize, ebitmapUnitNums] at *
          omega)
        refine ⟨n' :: ns, highbit, by simp [h₁, h₂, hn'], ?_⟩
        simpa [hs] using ⟨hn, hns⟩
      · obtain ⟨ns', highbit', hrec, hlt'⟩ := ih (some n) hns
        refine ⟨n :: ns', highbit', by simp [h₁, h₂, hrec], ?_⟩
        simpa using ⟨hn, hlt'⟩
    · refine ⟨new :: n :: ns, highbit, by simp [h₁, hnew], ?_⟩
      simpa using ⟨hlt, hn, hns⟩

theorem setCat_total {e : Ebitmap} (h : e.StartsLt) (bit : ℕ) :
    ∃ e', setCat e bit = .ok e' ∧ e'.StartsLt := by
  obtain ⟨ns, highbit, hloop, hlt⟩ := setBitLoop_total bit e.highbit none h
  exact ⟨⟨ns, highbit⟩, by simp [setCat, ebitmapSetBit, hloop], hlt⟩

theorem foldlM_setCat_total {e : Ebitmap} (h : e.StartsLt) (f : ℕ → ℕ) (bits : List ℕ) :
    ∃ e', bits.foldlM (fun cat i => setCat cat (f i)) e = .ok e' ∧ e'.StartsLt := by
  induction bits generalizing e with
  | nil => exact ⟨e, rfl, h⟩
  | cons b bits ih =>
    obtain ⟨e₁, h₁, hs₁⟩ := setCat_total h (f b)
    obtain ⟨e₂, h₂, hs₂⟩ := ih hs₁
    exact ⟨e₂, by simp [foldlM_cons, h₁, h₂], hs₂⟩

/-! ## The grammar -/

def CatItem (p : MlsPolicy) (item : List Char) : Prop :=
  ∃ name v, p.cats name = some v ∧ '.' ∉ name ∧
    (item = name ∨ ∃ rng rv, item = name ++ '.' :: rng ∧ p.cats rng = some rv ∧ v < rv)

inductive CatList (p : MlsPolicy) : List Char → Prop
  | one {item : List Char} : CatItem p item → ',' ∉ item → '-' ∉ item → CatList p item
  | cons {item text : List Char} : CatItem p item → ',' ∉ item → '-' ∉ item → CatList p text →
      CatList p (item ++ ',' :: text)

def Sensitivity (p : MlsPolicy) (stops name : List Char) : Prop :=
  (p.levels name).isSome ∧ ∀ c ∈ name, c ∉ stops

def CatLevel (p : MlsPolicy) (stops text : List Char) : Prop :=
  ∃ name cats, text = name ++ ':' :: cats ∧ Sensitivity p stops name ∧ CatList p cats

def LevelText (p : MlsPolicy) (stops text : List Char) : Prop :=
  Sensitivity p stops text ∨ CatLevel p stops text

/-- One level, or two with a dash between them. -/
def RangeText (p : MlsPolicy) (s : List Char) : Prop :=
  LevelText p [':', '-'] s ∨ ∃ low high, s = low ++ '-' :: high ∧
    LevelText p [':', '-'] low ∧ LevelText p [':'] high

/-- A pair whose high level has categories, with a dash behind it and text in which at most one
character follows the first colon. -/
def TrailingText (p : MlsPolicy) (s : List Char) : Prop :=
  ∃ low high rest, s = low ++ '-' :: (high ++ '-' :: rest) ∧ LevelText p [':', '-'] low ∧
    CatLevel p [':'] high ∧ ∀ head tail, rest = head ++ ':' :: tail → ':' ∉ head → tail.length ≤ 1

/-! ## Scanning -/

variable {p : MlsPolicy} {stops tok text rest item : List Char} {cat cat' : Ebitmap}
  {delim : Option Char} {c : Char}

theorem scan_nil_of (h : ∀ c ∈ tok, c ∉ stops) : scan stops tok = (tok, none, []) := by
  induction tok with
  | nil => rfl
  | cons c tok ih =>
    obtain ⟨hc, htok⟩ := forall_mem_cons.mp h
    rw [scan, if_neg hc, ih htok]

theorem scan_append (h : ∀ c ∈ tok, c ∉ stops) (hc : c ∈ stops) (rest : List Char) :
    scan stops (tok ++ c :: rest) = (tok, some c, rest) := by
  induction tok with
  | nil => rw [nil_append, scan, if_pos hc]
  | cons d tok ih =>
    obtain ⟨hd, htok⟩ := forall_mem_cons.mp h
    rw [cons_append, scan, if_neg hd, ih htok]

theorem scan_cases (stops text : List Char) :
    (∀ c ∈ (scan stops text).1, c ∉ stops) ∧
      (scan stops text = (text, none, []) ∨ ∃ c ∈ stops, (scan stops text).2.1 = some c ∧
        text = (scan stops text).1 ++ c :: (scan stops text).2.2) := by
  induction text with
  | nil => exact ⟨by simp [scan], .inl rfl⟩
  | cons d text ih =>
    rw [scan]
    by_cases hd : d ∈ stops
    · simp only [if_pos hd]
      exact ⟨by simp, .inr ⟨d, hd, rfl, rfl⟩⟩
    · simp only [if_neg hd]
      refine ⟨forall_mem_cons.mpr ⟨hd, ih.1⟩, ?_⟩
      rcases ih.2 with h | ⟨c, hc, h₁, h₂⟩
      · exact .inl (by rw [h])
      · exact .inr ⟨c, hc, h₁, by rw [cons_append, ← h₂]⟩

theorem length_scan_le (stops text : List Char) : (scan stops text).2.2.length ≤ text.length := by
  induction text with
  | nil => exact le_rfl
  | cons c text ih =>
    rw [scan]
    split_ifs
    · exact Nat.le_succ _
    · exact ih.trans (Nat.le_succ _)

theorem catItem_of_setItem (hset : setItem p cat item = .ok cat') : CatItem p item := by
  obtain ⟨hdot, hscan⟩ := scan_cases ['.'] item
  rw [setItem] at hset
  cases hv : p.cats (scan ['.'] item).1 with
  | none => simp [hv] at hset
  | some v =>
    simp only [hv] at hset
    obtain ⟨cat₁, -, hset⟩ := bind_ok hset
    refine ⟨_, v, hv, fun hm => hdot _ hm (by simp), ?_⟩
    rcases hscan with hs | ⟨c, hc, hdelim, htext⟩
    · exact .inl (by rw [hs])
    · obtain rfl : c = '.' := by simpa using hc
      rw [if_neg (by simp [hdelim])] at hset
      cases hrv : p.cats (scan ['.'] item).2.2 with
      | none => simp [hrv] at hset
      | some rv =>
        simp only [hrv] at hset
        split_ifs at hset with hle
        exact .inr ⟨_, rv, htext, hrv, by omega⟩

theorem setItem_total (h : cat.StartsLt) (hitem : CatItem p item) :
    ∃ cat', setItem p cat item = .ok cat' ∧ cat'.StartsLt := by
  obtain ⟨name, v, hv, hno, hitem⟩ := hitem
  obtain ⟨cat₁, h₁, hs₁⟩ := setCat_total h (wsub 32 v 1)
  have hstop : ∀ c ∈ name, c ∉ ['.'] := fun c hc hm => hno (mem_singleton.mp hm ▸ hc)
  rcases hitem with rfl | ⟨rng, rv, rfl, hrv, hlt⟩
  · refine ⟨cat₁, ?_, hs₁⟩
    rw [setItem, scan_nil_of hstop]
    simp only [hv, h₁, ok_bind, if_true]
    rfl
  · obtain ⟨cat₂, h₂, hs₂⟩ := foldlM_setCat_total hs₁ ofInt (range' v (rv - v))
    refine ⟨cat₂, ?_, hs₂⟩
    rw [setItem, scan_append hstop (by simp)]
    simp only [hv, h₁, ok_bind, hrv, if_neg hlt.not_ge, h₂]
    rfl

/-! ## Lists of categories -/

theorem catLoop_append (htok : ∀ c ∈ tok, c ∉ [',', '-']) (text : List Char) :
    catLoop p cat item (tok ++ text) = catLoop p cat (item ++ tok) text := by
  induction tok generalizing item with
  | nil => rw [nil_append, append_nil]
  | cons c tok ih =>
    obtain ⟨hc, htok⟩ := forall_mem_cons.mp htok
    simp only [List.mem_cons, List.not_mem_nil, or_false, not_or] at hc
    rw [cons_append, catLoop, if_neg hc.1, if_neg hc.2, ih htok, append_assoc]
    rfl

inductive Ends : List Char → Option Char → List Char → Prop
  | nil : Ends [] none []
  | dash (rest : List Char) : Ends ('-' :: rest) (some '-') rest

theorem catLoop_sound (hitem : ∀ c ∈ item, c ∉ [',', '-'])
    (h : catLoop p cat item text = .ok (cat', delim, rest)) :
    ∃ body tail, CatList p (item ++ body) ∧ text = body ++ tail ∧ Ends tail delim rest := by
  have hno : ',' ∉ item ∧ '-' ∉ item :=
    ⟨fun hm => hitem _ hm (by simp), fun hm => hitem _ hm (by simp)⟩
  induction text generalizing cat item with
  | nil =>
    obtain ⟨cat₁, hset, h⟩ := bind_ok h
    cases h
    refine ⟨[], [], ?_, rfl, .nil⟩
    rw [append_nil]
    exact .one (catItem_of_setItem hset) hno.1 hno.2
  | cons c text ih =>
    rw [catLoop] at h
    split_ifs at h with hcomma hdash
    · obtain ⟨cat₁, hset, h⟩ := bind_ok h
      obtain ⟨body, tail, hlist, rfl, hends⟩ := ih (by simp) h (by simp)
      refine ⟨c :: body, tail, ?_, rfl, hends⟩
      rw [hcomma]
      exact .cons (catItem_of_setItem hset) hno.1 hno.2 hlist
    · obtain ⟨cat₁, hset, h⟩ := bind_ok h
      cases h
      refine ⟨[], c :: rest, ?_, rfl, hdash ▸ .dash rest⟩
      rw [append_nil]
      exact .one (catItem_of_setItem hset) hno.1 hno.2
    · have hitem' : ∀ d ∈ item ++ [c], d ∉ [',', '-'] := by
        simp only [mem_append, mem_singleton]
        rintro d (hd | rfl)
        · exact hitem d hd
        · simp [hcomma, hdash]
      obtain ⟨body, tail, hlist, rfl, hends⟩ := ih hitem' h
        ⟨fun hm => hitem' _ hm (by simp), fun hm => hitem' _ hm (by simp)⟩
      exact ⟨c :: body, tail, by simpa using hlist, rfl, hends⟩

theorem catLoop_complete {body tail : List Char} (h : CatList p body) (hcat : cat.StartsLt)
    (hends : Ends tail delim rest) :
    ∃ cat', catLoop p cat [] (body ++ tail) = .ok (cat', delim, rest) := by
  induction h generalizing cat with
  | @one item hitem hcomma hdash =>
    obtain ⟨cat₁, hset, -⟩ := setItem_total hcat hitem
    refine ⟨cat₁, ?_⟩
    rw [catLoop_append fun c hc hm => by
      rcases mem_pair.mp hm with rfl | rfl
      · exact hcomma hc
      · exact hdash hc]
    cases hends with
    | nil => simp [catLoop, hset]
    | dash => simp [catLoop, hset]
  | @cons item text hitem hcomma hdash _ ih =>
    obtain ⟨cat₁, hset, hs₁⟩ := setItem_total hcat hitem
    obtain ⟨cat₂, hrun⟩ := ih hs₁
    refine ⟨cat₂, ?_⟩
    rw [append_assoc, catLoop_append fun c hc hm => by
      rcases mem_pair.mp hm with rfl | rfl
      · exact hcomma hc
      · exact hdash hc]
    simp [catLoop, hset, hrun]

/-! ## Levels and ranges -/

def LevelEnds (p : MlsPolicy) (stops text : List Char) (delim : Option Char) (rest : List Char) :
    Prop :=
  ∃ body tail, text = body ++ tail ∧ Ends tail delim rest ∧
    ((delim = none ∨ '-' ∈ stops) ∧ Sensitivity p stops body ∨ CatLevel p stops body)

theorem readLevel_iff (hstops : ∀ c, c ∈ stops → c = ':' ∨ c = '-') (hcolon : ':' ∈ stops) :
    (∃ l, readLevel p (scan stops text) = .ok (l, delim, rest)) ↔
      LevelEnds p stops text delim rest := by
  obtain ⟨hno, hscan⟩ := scan_cases stops text
  constructor
  · rintro ⟨l, h⟩
    rw [readLevel] at h
    cases hlev : p.levels (scan stops text).1 with
    | none => simp [hlev] at h
    | some lev =>
      simp only [hlev] at h
      have hsens : Sensitivity p stops (scan stops text).1 := ⟨by simp [hlev], hno⟩
      split_ifs at h with hc
      · obtain ⟨⟨cat, d, r⟩, hloop, h⟩ := bind_ok h
        cases h
        obtain ⟨body, tail, hlist, hrest, hends⟩ := catLoop_sound (by simp) hloop
        rcases hscan with hs | ⟨c, -, hdelim, htext⟩
        · simp [hs] at hc
        · obtain rfl : c = ':' := by simpa [hc] using hdelim.symm
          refine ⟨_, tail, ?_, hends, .inr ⟨_, body, rfl, hsens, hlist⟩⟩
          conv_lhs => rw [htext, hrest]
          simp
      · have hpair : (scan stops text).2 = (delim, rest) := congrArg Prod.snd (Except.ok.inj h)
        rcases hscan with hs | ⟨c, hmem, hdelim, htext⟩
        · rw [hs] at hsens hpair
          cases hpair
          exact ⟨text, [], by simp, .nil, .inl ⟨.inl rfl, hsens⟩⟩
        · obtain rfl : c = '-' := (hstops c hmem).resolve_left fun h => hc (h ▸ hdelim)
          rw [hpair] at hdelim htext
          subst hdelim
          exact ⟨_, _, htext, .dash _, .inl ⟨.inr hmem, hsens⟩⟩
  · rintro ⟨body, tail, rfl, hends, ⟨hdash, hsens⟩ | ⟨name, cats, rfl, hsens, hlist⟩⟩
    · obtain ⟨lev, hlev⟩ := Option.isSome_iff_exists.mp hsens.1
      refine ⟨⟨lev.sens, ebitmapInit⟩, ?_⟩
      cases hends with
      | nil =>
        rw [append_nil, scan_nil_of hsens.2, readLevel]
        simp [hlev]
      | dash rest =>
        rw [scan_append hsens.2 (hdash.resolve_left (by simp)), readLevel]
        simp [hlev]
    · obtain ⟨lev, hlev⟩ := Option.isSome_iff_exists.mp hsens.1
      have hinit : ebitmapInit.StartsLt := by simp [Ebitmap.StartsLt, ebitmapInit]
      obtain ⟨cat, hrun⟩ := catLoop_complete hlist hinit hends
      refine ⟨⟨lev.sens, cat⟩, ?_⟩
      rw [append_assoc, cons_append, scan_append hsens.2 hcolon, readLevel]
      simp [hlev, hrun]

theorem levelEnds_none (h : LevelText p stops text) : LevelEnds p stops text none [] :=
  ⟨text, [], by simp, .nil, h.imp_left fun h => ⟨.inl rfl, h⟩⟩

/-- The loop over the levels ends at the end of a range, or at a dash behind one whose high level
has categories. -/
theorem readRange_iff :
    (∃ r, readRange p text = .ok (r, delim, rest)) ↔
      delim = none ∧ rest = [] ∧ RangeText p text ∨
      delim = some '-' ∧ ∃ low high, text = low ++ '-' :: (high ++ '-' :: rest) ∧
        LevelText p [':', '-'] low ∧ CatLevel p [':'] high := by
  have hlow {text rest : List Char} {delim : Option Char} :=
    @readLevel_iff p [':', '-'] text rest delim (by simp) (by simp)
  have hhigh {text rest : List Char} {delim : Option Char} :=
    @readLevel_iff p [':'] text rest delim (by simp) (by simp)
  constructor
  · rintro ⟨r, hr⟩
    obtain ⟨⟨low, d, rest₁⟩, h₁, h⟩ := bind_ok hr
    clear hr
    obtain ⟨body, tail, rfl, hends, hbody⟩ := hlow.mp ⟨low, h₁⟩
    have hlevel : LevelText p [':', '-'] body := hbody.imp_left (·.2)
    cases hends with
    | nil =>
      cases h
      exact .inl ⟨rfl, rfl, .inl (by simpa using hlevel)⟩
    | dash =>
      simp only [if_true] at h
      obtain ⟨⟨high, d₂, rest₂⟩, h₂, h⟩ := bind_ok h
      cases h
      obtain ⟨body₂, tail₂, rfl, hends₂, hbody₂⟩ := hhigh.mp ⟨high, h₂⟩
      cases hends₂ with
      | nil =>
        refine .inl ⟨rfl, rfl, .inr ⟨body, body₂, by simp, hlevel, hbody₂.imp_left (·.2)⟩⟩
      | dash => exact .inr ⟨rfl, body, body₂, rfl, hlevel, hbody₂.resolve_left (by simp)⟩
  · -- a dash ends the low level whether it has categories or not
    have hdash {low : List Char} (hl : LevelText p [':', '-'] low) (rest : List Char) :
        ∃ l, readLevel p (scan [':', '-'] (low ++ '-' :: rest)) = .ok (l, some '-', rest) :=
      hlow.mpr ⟨low, _, rfl, .dash rest, hl.imp_left fun h => ⟨.inr (by simp), h⟩⟩
    rintro (⟨rfl, rfl, hl | ⟨low, high, rfl, hl, hh⟩⟩ | ⟨rfl, low, high, rfl, hl, hh⟩)
    · obtain ⟨l, h⟩ := hlow.mpr (levelEnds_none hl)
      exact ⟨⟨l, l⟩, by simp [readRange, h]⟩
    · obtain ⟨l, h⟩ := hdash hl high
      obtain ⟨l₂, h₂⟩ := hhigh.mpr (levelEnds_none hh)
      exact ⟨⟨l, l₂⟩, by simp [readRange, h, h₂]⟩
    · obtain ⟨l, h⟩ := hdash hl (high ++ '-' :: rest)
      obtain ⟨l₂, h₂⟩ := hhigh.mpr ⟨high, _, rfl, .dash rest, .inr hh⟩
      exact ⟨⟨l, l₂⟩, by simp [readRange, h, h₂]⟩

theorem scan_colon_length_le (rest : List Char) :
    (scan [':'] rest).2.2.length ≤ 1 ↔
      ∀ head tail, rest = head ++ ':' :: tail → ':' ∉ head → tail.length ≤ 1 := by
  obtain ⟨hno, hs | ⟨c, hc, -, htext⟩⟩ := scan_cases [':'] rest
  · refine iff_of_true (by simp [hs]) fun head tail h _ => ?_
    rw [hs] at hno
    exact absurd (mem_singleton.mpr rfl) (hno ':' (by simp [h]))
  · obtain rfl : c = ':' := mem_singleton.mp hc
    constructor
    · intro hle head tail h hhead
      have hstop : ∀ d ∈ head, d ∉ [':'] := fun d hd hm => hhead (mem_singleton.mp hm ▸ hd)
      rw [h, scan_append hstop (by simp)] at hle
      exact hle
    · intro h
      exact h _ _ htext fun hm => hno _ hm (by simp)

theorem not_rangeText_of_catLevel {low high : List Char} (hl : LevelText p [':', '-'] low)
    (hh : CatLevel p [':'] high) (rest : List Char) :
    ¬RangeText p (low ++ '-' :: (high ++ '-' :: rest)) := by
  intro hr
  obtain ⟨r, h⟩ := readRange_iff.mpr (.inr ⟨rfl, low, high, rfl, hl, hh⟩)
  obtain ⟨r', h'⟩ := readRange_iff.mpr (.inl ⟨rfl, rfl, hr⟩)
  rw [h] at h'
  cases h'

theorem accepts_iff (p : MlsPolicy) (s : List Char) :
    accepts p s = true ↔ RangeText p s ∨ TrailingText p s := by
  cases h : readRange p s with
  | error e =>
    have hno : ∀ delim rest, ¬∃ r, readRange p s = .ok (r, delim, rest) := by simp [h]
    have hrej : accepts p s = false := by
      rw [accepts, mlsContextToSid, h]
      rfl
    refine iff_of_false (by simp [hrej]) ?_
    rintro (hr | ⟨low, high, rest, hs, hl, hh, -⟩)
    · exact hno none [] (readRange_iff.mpr (.inl ⟨rfl, rfl, hr⟩))
    · exact hno _ rest (readRange_iff.mpr (.inr ⟨rfl, low, high, hs, hl, hh⟩))
  | ok out =>
    obtain ⟨r, delim, rest⟩ := out
    rcases readRange_iff.mp ⟨r, h⟩ with ⟨rfl, rfl, hr⟩ | ⟨rfl, low, high, hs, hl, hh⟩
    · exact iff_of_true (by simp [accepts, mlsContextToSid, h]) (.inl hr)
    · have hno := not_rangeText_of_catLevel hl hh rest
      rw [← hs] at hno
      have htrail : TrailingText p s ↔ (scan [':'] rest).2.2.length ≤ 1 := by
        rw [scan_colon_length_le]
        refine ⟨fun ⟨low', high', rest', hs', hl', hh', hrest⟩ => ?_,
          fun hrest => ⟨low, high, rest, hs, hl, hh, hrest⟩⟩
        obtain ⟨r', h'⟩ := readRange_iff.mpr (.inr ⟨rfl, low', high', hs', hl', hh'⟩)
        rw [h] at h'
        cases h'
        exact hrest
      have hlen : (scan [':'] rest).2.2.length + 2 ≤ s.length := by
        have := length_scan_le [':'] rest
        simp only [hs, length_append, length_cons]
        omega
      rw [or_iff_right hno, htrail]
      simp only [accepts, mlsContextToSid, h, ok_bind, if_true, pure_eq_ok, decide_eq_true_eq]
      omega

/-- The scanner follows its grammar on exactly the texts that have no trailing part. -/
theorem accepts_range_iff (p : MlsPolicy) (s : List Char) :
    (accepts p s = true ↔ RangeText p s) ↔ ¬TrailingText p s := by
  rw [accepts_iff]
  constructor
  · rintro h ht
    have hr := h.mp (.inr ht)
    obtain ⟨low, high, rest, rfl, hl, hh, -⟩ := ht
    exact not_rangeText_of_catLevel hl hh rest hr
  · exact fun ht => or_iff_left ht

theorem accepts_trailing :
    accepts (oneCatPolicy 1) ['s', '-', 's', ':', 'c', '-', 'x'] = true ∧
      ¬RangeText (oneCatPolicy 1) ['s', '-', 's', ':', 'c', '-', 'x'] := by
  have hs : ((oneCatPolicy 1).levels ['s']).isSome := by decide
  have hc : CatItem (oneCatPolicy 1) ['c'] := ⟨['c'], 1, by decide, by decide, .inl rfl⟩
  refine ⟨by decide +kernel, @not_rangeText_of_catLevel (oneCatPolicy 1) ['s'] ['s', ':', 'c']
    (.inl ⟨hs, by simp⟩) ⟨['s'], ['c'], rfl, ⟨hs, by simp⟩, .one hc ?_ ?_⟩ ['x']⟩
  · decide
  · decide

end Cupcake.Selinux
