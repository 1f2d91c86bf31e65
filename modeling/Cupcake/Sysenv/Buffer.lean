import Cupcake.Sysenv.Defs

/-! What each loop over the buffer does to a list of packed entries. -/

namespace Cupcake.Sysenv

open Option List Cells

variable {a b s g mem x y : List Byte} {fuel p : ℕ}

/-! ## Strings -/

theorem strEnd_eq (hs : 0 ∉ s) (hfuel : s.length < fuel) (hp : p = a.length) :
    strEnd (a ++ (s ++ 0 :: b)) fuel p = some (p + s.length) := by
  induction fuel generalizing s a p with
  | zero => omega
  | succ fuel ih =>
    cases s with
    | nil =>
      rw [strEnd, nil_append, load_mid hp]
      simp
    | cons c s =>
      rw [mem_cons, not_or] at hs
      simp only [length_cons] at hfuel
      have key := ih (a := a ++ [c]) (p := p + 1) hs.2 (by omega) (by simp [hp])
      rw [strEnd, cons_append, load_mid hp]
      simp only [append_assoc, singleton_append] at key
      simp only [bind_eq_bind, bind_some, if_neg (Ne.symm hs.1), key, length_cons]
      congr 1
      omega

theorem findenvNxt_eq (hs : 0 ∉ s) (hfuel : s.length < fuel) (hp : p = a.length)
    (hsize : p + s.length ≤ cfgEnvSize) :
    findenvNxt (a ++ (s ++ 0 :: b)) fuel p = some (some (p + s.length)) := by
  induction fuel generalizing s a p with
  | zero => omega
  | succ fuel ih =>
    cases s with
    | nil =>
      rw [findenvNxt, nil_append, load_mid hp]
      simp
    | cons c s =>
      rw [mem_cons, not_or] at hs
      simp only [length_cons] at hfuel hsize
      have key := ih (a := a ++ [c]) (p := p + 1) hs.2 (by omega) (by simp [hp]) (by omega)
      rw [findenvNxt, cons_append, load_mid hp]
      simp only [append_assoc, singleton_append] at key
      simp only [bind_eq_bind, bind_some, if_neg (Ne.symm hs.1), key, length_cons,
        if_neg (show ¬ cfgEnvSize ≤ p by omega)]
      congr 2
      omega

theorem strAt_eq (hs : 0 ∉ s) (hp : p = a.length) : strAt (a ++ (s ++ 0 :: b)) p = some s := by
  have hlen : s.length < (a ++ (s ++ 0 :: b)).length + 1 := by
    simp only [length_append, length_cons]
    omega
  rw [strAt, strEnd_eq hs hlen hp]
  simp [hp, take_append, drop_append]

theorem copyStr_eq {old : List Byte} (hs : 0 ∉ s) (hold : old.length = s.length + 1)
    (hp : p = a.length) :
    copyStr (a ++ (old ++ b)) (s ++ [0]) p = some (a ++ (s ++ 0 :: b), p + s.length) := by
  induction s generalizing a old p with
  | nil =>
    obtain ⟨x, rfl⟩ := length_eq_one_iff.mp hold
    rw [nil_append, copyStr, singleton_append, store_mid hp]
    simp
  | cons c s ih =>
    rw [mem_cons, not_or] at hs
    obtain ⟨x, old, rfl⟩ := exists_cons_of_length_eq_add_one hold
    have hold' : old.length = s.length + 1 := by simpa using hold
    have key := ih (a := a ++ [c]) (p := p + 1) hs.2 hold' (by simp [hp])
    simp only [append_assoc, singleton_append] at key
    simp only [cons_append]
    rw [copyStr, store_mid hp]
    simp only [bind_eq_bind, bind_some, if_pos (Ne.symm hs.1), key, length_cons]
    congr 2
    omega

theorem envmatch_eq (hn : 0 ∉ x) (hsep : sep ∉ x) (hn' : 0 ∉ y) (hsep' : sep ∉ y)
    (hp : p = a.length) :
    envmatch (a ++ (y ++ sep :: b)) (x ++ [0]) p =
      some (if x = y then ((p + x.length + 1 : ℕ) : ℤ) else -1) := by
  induction x generalizing y a p with
  | nil =>
    cases y with
    | nil =>
      rw [nil_append, nil_append, envmatch, load_mid hp]
      rfl
    | cons d y =>
      rw [mem_cons, not_or] at hn' hsep'
      rw [nil_append, cons_append, envmatch, load_mid hp]
      simp [hn'.1, Ne.symm hsep'.1]
  | cons c x ih =>
    rw [mem_cons, not_or] at hn hsep
    cases y with
    | nil =>
      rw [nil_append, cons_append, envmatch, load_mid hp]
      simp [Ne.symm hn.1, Ne.symm hsep.1]
    | cons d y =>
      rw [mem_cons, not_or] at hn' hsep'
      rw [cons_append, cons_append, envmatch, load_mid hp]
      by_cases hcd : c = d
      · subst hcd
        have key := ih (y := y) (a := a ++ [c]) (p := p + 1) hn.2 hsep.2 hn'.2 hsep'.2
          (by simp [hp])
        simp only [append_assoc, singleton_append] at key
        simp only [bind_eq_bind, bind_some, if_true, if_neg (Ne.symm hsep.1), key,
          List.cons.injEq, true_and, length_cons]
        congr 3
        omega
      · simp [hcd, Ne.symm hn.1]

/-! ## Entries -/

structure Entry where
  name : Name
  value : CStr
  value_ne_nil : value.bytes ≠ []

def Entry.bytes (e : Entry) : List Byte := e.name.bytes ++ sep :: (e.value.bytes ++ [0])

def encode (es : List Entry) : List Byte := es.flatMap Entry.bytes

variable {e : Entry} {es es' : List Entry}

@[simp] theorem encode_nil : encode [] = [] := rfl

@[simp] theorem encode_cons : encode (e :: es) = e.bytes ++ encode es := rfl

@[simp] theorem encode_append : encode (es ++ es') = encode es ++ encode es' := flatMap_append

def Entry.text (e : Entry) : List Byte := e.name.bytes ++ sep :: e.value.bytes

theorem Entry.bytes_eq : e.bytes = e.text ++ [0] := by
  simp [Entry.bytes, Entry.text]

theorem Entry.nul_notMem_text : 0 ∉ e.text := by
  simp [Entry.text, e.name.noNul, e.value.noNul, sep]

theorem Entry.length_bytes :
    e.bytes.length = e.name.bytes.length + e.value.bytes.length + 2 := by
  simp only [Entry.bytes, length_append, length_cons, length_nil]
  omega

theorem Entry.exists_cons : ∃ c t, c ≠ 0 ∧ e.text = c :: t := by
  obtain ⟨c, t, hname⟩ := exists_cons_of_ne_nil e.name.ne_nil
  refine ⟨c, t ++ sep :: e.value.bytes, ?_, by simp [Entry.text, hname]⟩
  rintro rfl
  exact e.name.noNul (hname ▸ mem_cons_self ..)

theorem length_le_length_encode : es.length ≤ (encode es).length := by
  induction es with
  | nil => exact le_rfl
  | cons e es ih =>
    have := e.length_bytes
    simp only [encode_cons, length_cons, length_append]
    omega

theorem two_lt_length_encode : 2 < (encode (e :: es)).length := by
  have hname := length_pos_iff.mpr e.name.ne_nil
  have hvalue := length_pos_iff.mpr e.value_ne_nil
  rw [encode_cons, length_append, e.length_bytes]
  omega

/-- Strings one behind the other: no string is empty, the last byte ends a string. -/
inductive Packed : List Byte → Prop
  | last : Packed [0]
  | char {c : Byte} {s : List Byte} : c ≠ 0 → Packed s → Packed (c :: s)
  | next {c : Byte} {s : List Byte} : c ≠ 0 → Packed (c :: s) → Packed (0 :: c :: s)

theorem Packed.text (hs : 0 ∉ s) (h : Packed mem) : Packed (s ++ mem) := by
  induction s with
  | nil => exact h
  | cons c s ih =>
    rw [mem_cons, not_or] at hs
    exact .char (Ne.symm hs.1) (ih hs.2)

theorem packed_encode : Packed (encode (e :: es)) := by
  induction es generalizing e with
  | nil =>
    rw [encode_cons, encode_nil, append_nil, Entry.bytes_eq]
    exact Packed.last.text e.nul_notMem_text
  | cons e' es ih =>
    rw [encode_cons, Entry.bytes_eq, append_assoc]
    refine Packed.text e.nul_notMem_text ?_
    obtain ⟨c, t, hc, ht⟩ := e'.exists_cons
    have hp := ih (e := e')
    rw [encode_cons, Entry.bytes_eq, ht] at hp
    rw [encode_cons, Entry.bytes_eq, ht]
    exact .next hc hp

/-! ## Search loops -/

theorem strEnd_entry (hfuel : e.text.length < fuel) (hp : p = a.length) :
    strEnd (a ++ (e.bytes ++ b)) fuel p = some (p + e.text.length) := by
  rw [Entry.bytes_eq, append_assoc]
  exact strEnd_eq e.nul_notMem_text hfuel hp

theorem envmatch_entry (n : Name) (hp : p = a.length) :
    envmatch (a ++ (e.bytes ++ b)) n.mem p =
      some (if n = e.name then ((p + n.bytes.length + 1 : ℕ) : ℤ) else -1) := by
  have h := envmatch_eq (b := e.value.bytes ++ [0] ++ b) n.noNul n.noSep e.name.noNul
    e.name.noSep hp
  have hname : n.bytes = e.name.bytes ↔ n = e.name := by
    constructor
    · intro h
      cases n with
      | mk n _ _ =>
        cases hn : e.name with
        | mk m _ _ =>
          cases n
          cases m
          simp only [hn] at h
          subst h
          rfl
    · rintro rfl
      rfl
  simp only [hname] at h
  rw [CStr.mem, ← h, Entry.bytes]
  simp

theorem load_entry (hp : p = a.length) : ∃ c ≠ 0, load (a ++ (e.bytes ++ b)) p = some c := by
  obtain ⟨c, t, hc, ht⟩ := e.exists_cons
  refine ⟨c, hc, ?_⟩
  rw [Entry.bytes_eq, ht]
  exact load_mid hp

theorem findOld_cons (n : Name) {nxt : ℕ} {oldval : ℤ} (hp : p = a.length) :
    findOld (a ++ (e.bytes ++ b)) n.mem (fuel + 1) p nxt oldval =
      if n = e.name then some (p, p + e.text.length, ((p + n.bytes.length + 1 : ℕ) : ℤ))
      else findOld (a ++ (e.bytes ++ b)) n.mem fuel (p + e.bytes.length) (p + e.text.length)
        (-1) := by
  obtain ⟨c, hc, hload⟩ := load_entry (e := e) (b := b) hp
  have hlen : e.text.length < (a ++ (e.bytes ++ b)).length + 1 := by
    simp only [Entry.bytes_eq, length_append]
    omega
  have hbytes : e.bytes.length = e.text.length + 1 := by simp [Entry.bytes_eq]
  rw [findOld, hload]
  simp only [bind_eq_bind, bind_some, if_neg hc, strEnd_entry hlen hp,
    envmatch_entry n hp]
  by_cases hn : n = e.name
  · simp only [if_pos hn]
    rw [if_pos (by omega)]
  · simp only [if_neg hn]
    rw [if_neg (by omega), hbytes]
    rfl

theorem findenvFrom_cons (n : Name) (hp : p = a.length)
    (hsize : (a ++ (e.bytes ++ b)).length ≤ cfgEnvSize) :
    findenvFrom (a ++ (e.bytes ++ b)) n.mem (fuel + 1) p =
      if n = e.name then some (some ((p + n.bytes.length + 1 : ℕ) : ℤ))
      else findenvFrom (a ++ (e.bytes ++ b)) n.mem fuel (p + e.bytes.length) := by
  obtain ⟨c, hc, hload⟩ := load_entry (e := e) (b := b) hp
  have hbytes : e.bytes.length = e.text.length + 1 := by simp [Entry.bytes_eq]
  have hnxt : findenvNxt (a ++ (e.bytes ++ b)) ((a ++ (e.bytes ++ b)).length + 1) p =
      some (some (p + e.text.length)) := by
    simp only [length_append] at hsize
    rw [Entry.bytes_eq, append_assoc]
    refine findenvNxt_eq e.nul_notMem_text ?_ hp (by omega)
    simp only [length_append]
    omega
  rw [findenvFrom, hload]
  simp only [bind_eq_bind, bind_some, if_neg hc, hnxt, envmatch_entry n hp]
  by_cases hn : n = e.name
  · simp only [if_pos hn]
    rw [if_neg (by omega)]
  · simp only [if_neg hn]
    rw [if_pos (by omega), hbytes]
    rfl

/-! ## Loops over packed strings -/

theorem dataEnd_eq (h : Packed s) (hfuel : s.length ≤ fuel) (hp : p = a.length) :
    dataEnd (a ++ (s ++ 0 :: b)) fuel p = some (p + (s.length - 1)) := by
  induction h generalizing a p fuel with
  | last =>
    obtain _ | fuel := fuel
    · simp at hfuel
    · have hnext : load (a ++ [0] ++ 0 :: b) (p + 1) = some 0 := load_mid (by simp [hp])
      rw [append_assoc] at hnext
      rw [dataEnd, singleton_append, load_mid hp]
      simp only [singleton_append] at hnext
      simp [hnext]
  | @char c s hc h ih =>
    obtain _ | fuel := fuel
    · simp at hfuel
    · have key := ih (a := a ++ [c]) (p := p + 1) (by simpa using hfuel) (by simp [hp])
      have hlen : 0 < s.length := by cases h <;> simp
      simp only [append_assoc, singleton_append] at key
      rw [dataEnd, cons_append, load_mid hp]
      simp only [bind_eq_bind, bind_some, if_pos hc, key, length_cons]
      congr 1
      omega
  | @next c s hc h ih =>
    obtain _ | fuel := fuel
    · simp at hfuel
    · have key := ih (a := a ++ [0]) (p := p + 1) (by simpa using hfuel) (by simp [hp])
      have hnext : load (a ++ [0] ++ c :: (s ++ 0 :: b)) (p + 1) = some c :=
        load_mid (by simp [hp])
      simp only [append_assoc, nil_append, cons_append] at key hnext
      simp only [cons_append]
      rw [dataEnd, load_mid hp]
      simp only [bind_eq_bind, bind_some, hnext, key, length_cons, if_pos hc,
        ne_eq, not_true_eq_false, if_false]
      congr 1
      omega

theorem moveDown_round {m c d : Byte} (hp : p = a.length) :
    moveDown (fuel + 1) (a ++ m :: (g ++ c :: d :: b)) p (p + (g.length + 1)) =
      if c = 0 ∧ d = 0 then some (a ++ c :: (g ++ c :: d :: b), p)
      else moveDown fuel (a ++ c :: (g ++ c :: d :: b)) (p + 1) (p + 1 + (g.length + 1)) := by
  have hload : load (a ++ m :: g ++ c :: d :: b) (p + (g.length + 1)) = some c :=
    load_mid (by simp [hp])
  have hnext : load (a ++ c :: (g ++ [c]) ++ d :: b) (p + (g.length + 1) + 1) = some d := by
    refine load_mid ?_
    simp only [length_append, length_cons, length_nil]
    omega
  simp only [append_assoc, cons_append, nil_append] at hload hnext
  rw [moveDown, hload]
  simp only [bind_eq_bind, bind_some, store_mid hp, hnext]
  rw [show p + 1 + (g.length + 1) = p + (g.length + 1) + 1 by omega]

theorem exists_gap (g : List Byte) (c : Byte) : ∃ m g', g'.length = g.length ∧
    ∀ a t : List Byte, a ++ c :: (g ++ c :: t) = a ++ [c] ++ m :: (g' ++ t) := by
  obtain ⟨m, g', hg⟩ := exists_cons_of_ne_nil (show g ++ [c] ≠ [] by simp)
  refine ⟨m, g', by simpa using (congrArg List.length hg).symm, fun a t => ?_⟩
  simpa using congrArg (fun l => a ++ [c] ++ (l ++ t)) hg

theorem moveDown_eq (h : Packed s) {m : Byte} (hfuel : s.length ≤ fuel) (hp : p = a.length) :
    ∃ m' g', g'.length = g.length ∧
      moveDown fuel (a ++ m :: (g ++ (s ++ 0 :: b))) p (p + (g.length + 1)) =
        some (a ++ (s ++ m' :: (g' ++ 0 :: b)), p + (s.length - 1)) := by
  induction h generalizing a p fuel m g with
  | last =>
    obtain _ | fuel := fuel
    · simp at hfuel
    · obtain ⟨m', g', hlen, hgap⟩ := exists_gap g 0
      refine ⟨m', g', hlen, ?_⟩
      rw [singleton_append, moveDown_round hp, if_pos ⟨rfl, rfl⟩, hgap]
      simp
  | @char c s hc h ih =>
    obtain _ | fuel := fuel
    · simp at hfuel
    · obtain ⟨m₁, g₁, hlen, hgap⟩ := exists_gap g c
      obtain ⟨m', g', hlen', key⟩ := ih (a := a ++ [c]) (p := p + 1) (m := m₁) (g := g₁)
        (by simpa using hfuel) (by simp [hp])
      obtain ⟨d, t, hd⟩ := exists_cons_of_ne_nil (show s ++ 0 :: b ≠ [] by simp)
      have hs : 0 < s.length := by cases h <;> simp
      refine ⟨m', g', hlen'.trans hlen, ?_⟩
      simp only [cons_append]
      rw [hd, moveDown_round hp, if_neg (by simp [hc]), hgap, ← hd, ← hlen, key]
      simp only [append_assoc, singleton_append, length_cons]
      congr 2
      omega
  | @next c s hc h ih =>
    obtain _ | fuel := fuel
    · simp at hfuel
    · obtain ⟨m₁, g₁, hlen, hgap⟩ := exists_gap g 0
      obtain ⟨m', g', hlen', key⟩ := ih (a := a ++ [0]) (p := p + 1) (m := m₁) (g := g₁)
        (by simpa using hfuel) (by simp [hp])
      refine ⟨m', g', hlen'.trans hlen, ?_⟩
      simp only [cons_append] at key ⊢
      rw [moveDown_round hp, if_neg (by simp [hc]), hgap, ← hlen, key]
      simp only [append_assoc, cons_append, nil_append, length_cons]
      congr 2
      omega

end Cupcake.Sysenv
