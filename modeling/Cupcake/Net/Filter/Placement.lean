import Cupcake.Lib.Except
import Cupcake.Net.Filter.Convert
import Mathlib.Tactic.IntervalCases

/-! Where the instructions of a converted filter stand. The number of instructions emitted does not
depend on the addresses, so the first emitting pass finds them. -/

namespace Cupcake.Net.Filter

open Option List Function BitVec

variable {l : Layout} {filter : List SockFilter} {i : ℕ} {f : SockFilter}

/-! ## Lengths -/

def sizeAt (l : Layout) (filter : List SockFilter) (i : ℕ) : ℕ :=
  (filter[i]?.bind (convertInsn l filter.length none i)).elim 0 List.length

def place (l : Layout) (filter : List SockFilter) : ℕ → ℕ
  | 0 => 1
  | i + 1 => place l filter i + sizeAt l filter i

theorem emitJmp_isSome {len : ℕ} {target : Int} (h : 0 ≤ target) (h' : target < len)
    (addrs : Option (ℕ → ℕ)) (i n : ℕ) : ∃ off, bpfEmitJmp len addrs i n target = some off := by
  unfold bpfEmitJmp
  rw [if_neg (by omega)]
  cases addrs with
  | none => exact ⟨_, rfl⟩
  | some addrs => exact ⟨_, rfl⟩

theorem bmod_target {len k : ℕ} (h : i + k + 1 < len) (hlen : len ≤ bpfMaxinsns) :
    Int.bmod (i + k + 1) (2 ^ 32) = i + k + 1 := by
  have : len ≤ 4096 := hlen
  apply Int.bmod_eq_of_le_mul_two <;> omega

theorem length_setup_le (f : SockFilter) (src : Src) : (compare f src).setup.length ≤ 1 := by
  unfold compare
  split_ifs
  · exact le_rfl
  · cases src <;> exact Nat.zero_le 1

def jmpSize (f : SockFilter) (op : JmpOp) (src : Src) : ℕ :=
  (compare f src).setup.length + if f.jf = 0 ∨ f.jt = 0 ∧ op = .jeq then 1 else 2

theorem convertJmp_isSome {len : ℕ} (op : JmpOp) (src : Src) (ht : i + f.jt + 1 < len)
    (hf : i + f.jf + 1 < len) (addrs : Option (ℕ → ℕ)) :
    ∃ c, convertJmp len addrs i f op src = some c ∧ c.length = jmpSize f op src := by
  have hjt := emitJmp_isSome (show (0 : ℤ) ≤ i + f.jt + 1 by omega)
    (show _ < (len : ℤ) by omega) addrs i
  have hjf := emitJmp_isSome (show (0 : ℤ) ≤ i + f.jf + 1 by omega)
    (show _ < (len : ℤ) by omega) addrs i
  simp only [convertJmp, jmpSize]
  obtain ⟨o₁, h₁⟩ := hjt (compare f src).setup.length
  obtain ⟨o₂, h₂⟩ := hjf (compare f src).setup.length
  obtain ⟨o₃, h₃⟩ := hjf ((compare f src).setup.length + 1)
  rw [h₁, h₂, h₃]
  by_cases h0 : f.jf = 0
  · exact ⟨_, if_pos h0, by simp [h0]⟩
  · by_cases hj : f.jt = 0 ∧ op = .jeq
    · exact ⟨_, (if_neg h0).trans (if_pos hj), by simp [hj]⟩
    · exact ⟨_, (if_neg h0).trans (if_neg hj), by simp [h0, hj]⟩

theorem length_extensions (l : Layout) (a : Anc) :
    0 < (convertBpfExtensions l a).length ∧ (convertBpfExtensions l a).length ≤ 6 := by
  cases a <;> simp [convertBpfExtensions, devInsns, callInsns]

def Sized (l : Layout) (len i : ℕ) (f : SockFilter) (op : Op) : Prop :=
  ∃ n, 0 < n ∧ n ≤ 6 ∧ ∀ addrs, ∃ c, convertOp l len addrs i f op = some c ∧ c.length = n

theorem sized_of_forall {len : ℕ} {op : Op} {c : List Insn}
    (hc : ∀ addrs, convertOp l len addrs i f op = some c) (hpos : 0 < c.length)
    (hle : c.length ≤ 6) : Sized l len i f op :=
  ⟨c.length, hpos, hle, fun addrs => ⟨c, hc addrs, rfl⟩⟩

theorem sized_of_check {len : ℕ} {op : Op} (hlen : len ≤ bpfMaxinsns)
    (hc : checkOp len i f op = true) : Sized l len i f op := by
  cases op with
  | ja =>
    have hk : i + f.k.toNat + 1 < len := by
      have : f.k.toNat < len - i - 1 := by simpa [checkOp] using hc
      omega
    refine ⟨1, by decide, by decide, fun addrs => ?_⟩
    obtain ⟨off, ho⟩ := emitJmp_isSome (show (0 : ℤ) ≤ i + f.k.toNat + 1 by omega)
      (show _ < (len : ℤ) by omega) addrs i 0
    refine ⟨[⟨.ja, .r0, .r0, off, 0⟩], ?_, rfl⟩
    rw [convertOp, bmod_target hk hlen, ho, map_some]
  | jmp op src =>
    obtain ⟨ht, hf⟩ : i + f.jt + 1 < len ∧ i + f.jf + 1 < len := by simpa [checkOp] using hc
    have hsetup := length_setup_le f src
    refine ⟨jmpSize f op src, ?_, ?_, fun addrs => convertJmp_isSome op src ht hf addrs⟩
    · unfold jmpSize
      split_ifs <;> omega
    · unfold jmpSize
      split_ifs <;> omega
  | ldAbs size =>
    cases ha : bpfAncHelper f.k with
    | some a =>
      have ⟨hpos, hle⟩ := length_extensions l a
      exact sized_of_forall (fun _ => by rw [convertOp, ha]) hpos hle
    | none =>
      exact sized_of_forall (c := [⟨.ldAbs size, regA, regX, 0, f.k⟩])
        (fun _ => by rw [convertOp, ha]) (by simp) (by simp)
  | ret r => cases r <;> exact sized_of_forall (fun _ => rfl) (by simp) (by simp)
  | _ => exact sized_of_forall (fun _ => rfl) (by simp [mshInsns]) (by simp [mshInsns])

theorem convertInsn_isSome (h : Accepted filter) (hf : filter[i]? = some f)
    (addrs : Option (ℕ → ℕ)) :
    ∃ c, convertInsn l filter.length addrs i f = some c ∧ c.length = sizeAt l filter i ∧
      0 < c.length ∧ c.length ≤ 6 := by
  obtain ⟨op, hop, -⟩ := h.exists_op hf
  obtain ⟨n, hpos, hle, hn⟩ := sized_of_check (l := l) h.length_le (h.checkOp hf hop)
  obtain ⟨c, hc, hlen⟩ := hn addrs
  obtain ⟨c₀, hc₀, hlen₀⟩ := hn none
  refine ⟨c, by rw [convertInsn, hop, bind_some, hc], ?_, by omega, by omega⟩
  simp only [sizeAt, hf, bind_some, convertInsn, hop, hc₀, elim_some]
  omega

/-! ## Passes -/

theorem place_lt_succ (h : Accepted filter) (hi : i < filter.length) :
    place l filter i < place l filter (i + 1) := by
  obtain ⟨c, -, hlen, hpos, -⟩ := convertInsn_isSome (l := l) h (getElem?_eq_getElem hi) none
  rw [place]
  omega

theorem place_le (h : Accepted filter) (hi : i ≤ filter.length) :
    place l filter i ≤ 1 + 6 * i := by
  induction i with
  | zero => exact le_rfl
  | succ i ih =>
    obtain ⟨c, -, hlen, -, hle⟩ := convertInsn_isSome (l := l) h (getElem?_eq_getElem hi) none
    have := ih (by omega)
    rw [place]
    omega

theorem convertLoop_cons (l : Layout) (len pos : ℕ) (addrs : Option (ℕ → ℕ)) (f : SockFilter)
    (fs : List SockFilter) {c : List Insn}
    (hc : convertInsn l len (addrs.map fun a => update a i pos) i f = some c) :
    convertLoop l len i pos addrs (f :: fs) =
      (convertLoop l len (i + 1) (pos + c.length) (addrs.map fun a => update a i pos)
        fs).map fun r => (c ++ r.1, r.2) := by
  rw [convertLoop, hc, bind_some]

def placeFrom (l : Layout) (filter : List SockFilter) (i : ℕ) (a : ℕ → ℕ) (j : ℕ) : ℕ :=
  if i ≤ j ∧ j < filter.length then place l filter j else a j

theorem placeFrom_length (a : ℕ → ℕ) : placeFrom l filter filter.length a = a := by
  funext j
  exact if_neg (by omega)

theorem placeFrom_succ (a : ℕ → ℕ) (hi : i < filter.length) :
    placeFrom l filter (i + 1) (update a i (place l filter i)) =
      placeFrom l filter i a := by
  funext j
  unfold placeFrom
  by_cases hj : j = i
  · subst hj
    simp [hi]
  · rw [update_of_ne hj]
    congr 1
    simp only [eq_iff_iff, and_congr_left_iff]
    omega

theorem drop_cons (hi : i < filter.length) :
    ∃ f, filter[i]? = some f ∧ filter.drop i = f :: filter.drop (i + 1) :=
  ⟨filter[i], getElem?_eq_getElem hi, drop_eq_getElem_cons hi⟩

theorem convertLoop_total (h : Accepted filter) {n : ℕ} (hn : filter.length - i = n)
    (hi : i ≤ filter.length) (addrs : Option (ℕ → ℕ)) :
    ∃ code, convertLoop l filter.length i (place l filter i) addrs (filter.drop i) =
        some (code, addrs.map (placeFrom l filter i)) ∧
      place l filter i + code.length = place l filter filter.length := by
  induction n generalizing i addrs with
  | zero =>
    obtain rfl : i = filter.length := by omega
    refine ⟨[], ?_, rfl⟩
    rw [drop_length, convertLoop]
    have : (placeFrom l filter filter.length) = id := funext placeFrom_length
    rw [this, Option.map_id, id]
  | succ n ih =>
    obtain ⟨f, hf, hdrop⟩ := drop_cons (show i < filter.length by omega)
    obtain ⟨c, hc, hlen, -⟩ := convertInsn_isSome (l := l) h hf
      (addrs.map fun a => update a i (place l filter i))
    obtain ⟨code, hcode, hplace⟩ := ih (i := i + 1) (by omega) (by omega)
      (addrs.map fun a => update a i (place l filter i))
    rw [hdrop, convertLoop_cons _ _ _ _ _ _ hc, hlen]
    rw [place] at hcode hplace
    refine ⟨c ++ code, ?_, by rw [length_append]; omega⟩
    have hcomp : (placeFrom l filter (i + 1) ∘ fun a => update a i (place l filter i)) =
        placeFrom l filter i := funext fun a => placeFrom_succ a (by omega)
    rw [hcode, Option.map_some, Option.map_map, hcomp]

def emit (l : Layout) (filter : List SockFilter) (a : ℕ → ℕ) : ℕ → List SockFilter → List Insn
  | _, [] => []
  | i, f :: fs =>
    (convertInsn l filter.length (some a) i f).getD [] ++ emit l filter a (i + 1) fs

theorem convertLoop_eq_emit (h : Accepted filter) {a : ℕ → ℕ}
    (ha : ∀ j < filter.length, a j = place l filter j) {n : ℕ} (hn : filter.length - i = n)
    (hi : i ≤ filter.length) :
    convertLoop l filter.length i (place l filter i) (some a) (filter.drop i) =
      some (emit l filter a i (filter.drop i), some a) := by
  induction n generalizing i with
  | zero =>
    obtain rfl : i = filter.length := by omega
    rw [drop_length]
    rfl
  | succ n ih =>
    obtain ⟨f, hf, hdrop⟩ := drop_cons (show i < filter.length by omega)
    have hsame : update a i (place l filter i) = a := by
      rw [← ha i (by omega), update_eq_self]
    obtain ⟨c, hc, hlen, -⟩ := convertInsn_isSome (l := l) h hf (some a)
    have hrest := ih (i := i + 1) (by omega) (by omega)
    rw [place] at hrest
    rw [hdrop, convertLoop_cons _ _ _ _ _ _ (by rw [map_some, hsame]; exact hc), hlen,
      map_some, hsame, hrest, map_some, emit, hc, getD_some]

/-! ## The converted program -/

/-- The program that the conversion of an accepted filter gives. -/
def converted (l : Layout) (filter : List SockFilter) : List Insn :=
  bpfMov64Reg regCtx .r1 :: emit l filter (placeFrom l filter 0 fun _ => 0) 0 filter

theorem placeFrom_zero {j : ℕ} (a : ℕ → ℕ) (hj : j < filter.length) :
    placeFrom l filter 0 a j = place l filter j :=
  if_pos ⟨Nat.zero_le j, hj⟩

section

variable (h : Accepted filter)

include h

theorem convertPass_total (addrs : Option (ℕ → ℕ)) :
    ∃ code, convertPass l filter addrs = some (code, addrs.map (placeFrom l filter 0)) ∧
      code.length = place l filter filter.length := by
  obtain ⟨code, hcode, hlen⟩ := convertLoop_total (l := l) (i := 0) h rfl (Nat.zero_le _) addrs
  rw [place, drop_zero] at hcode
  refine ⟨bpfMov64Reg regCtx .r1 :: code, by rw [convertPass, hcode, map_some], ?_⟩
  rw [place] at hlen
  rw [length_cons]
  omega

theorem convertPass_placed :
    convertPass l filter (some (placeFrom l filter 0 fun _ => 0)) =
      some (converted l filter, some (placeFrom l filter 0 fun _ => 0)) := by
  have hloop := convertLoop_eq_emit (l := l) (i := 0) h (a := placeFrom l filter 0 fun _ => 0)
    (fun j hj => placeFrom_zero _ hj) rfl (Nat.zero_le _)
  rw [place, drop_zero] at hloop
  rw [convertPass, hloop, map_some, converted]

theorem length_converted :
    (converted l filter).length = place l filter filter.length := by
  obtain ⟨code, hcode, hlen⟩ := convertPass_total (l := l) h (some (placeFrom l filter 0 fun _ => 0))
  rw [convertPass_placed h, some_inj, Prod.mk.injEq] at hcode
  rw [hcode.1, hlen]

theorem doPass_eq :
    doPass l filter 3 0 (some fun _ => 0) = some (converted l filter) := by
  obtain ⟨code, hcode, hlen⟩ := convertPass_total (l := l) h (some fun _ => 0)
  have hpos : 0 < place l filter filter.length := by
    have := length_converted (l := l) h
    rw [← this]
    exact Nat.succ_pos _
  rw [doPass, hcode]
  simp only [hlen, map_some]
  rw [if_pos (by omega), doPass, convertPass_placed h]
  simp only [length_converted h]
  rw [if_neg (by simp)]

theorem not_length :
    ¬ (filter.length = 0 ∨ filter.length > bpfMaxinsns) := by
  have := h.nonempty
  have := h.length_le
  omega

theorem convertFilterLen_eq :
    bpfConvertFilterLen l filter = .ok (converted l filter).length := by
  obtain ⟨code, hcode, hlen⟩ := convertPass_total (l := l) h none
  rw [bpfConvertFilterLen, if_neg (not_length h), hcode]
  simp only [hlen, length_converted h]

theorem migrate_eq (m : Allocs) :
    bpfMigrateFilter l m filter =
      if m.all then .ok (converted l filter) else .error (.errno enomem) := by
  obtain ⟨dup, realloc, addrs⟩ := m
  have hconv : bpfConvertFilter l addrs filter (converted l filter).length =
      if addrs then .ok (converted l filter) else .error (.errno enomem) := by
    rw [bpfConvertFilter, if_neg (not_length h), doPass_eq h]
    cases addrs <;> simp
  rw [bpfMigrateFilter, convertFilterLen_eq h, ok_bind, hconv]
  cases dup <;> cases realloc <;> cases addrs <;> rfl

end

/-! ## Places of instructions -/

def Placed (prog : List Insn) (p : ℕ) (code : List Insn) : Prop :=
  ∀ n insn, code[n]? = some insn → prog[p + n]? = some insn

theorem emit_placed (h : Accepted filter) {a : ℕ → ℕ} {n : ℕ} (hn : filter.length - i = n)
    {j : ℕ} (hij : i ≤ j) (hf : filter[j]? = some f) {c : List Insn}
    (hc : convertInsn l filter.length (some a) j f = some c) :
    Placed (emit l filter a i (filter.drop i)) (place l filter j - place l filter i) c ∧
      place l filter i ≤ place l filter j := by
  have hj : j < filter.length := (List.getElem?_eq_some_iff.mp hf).1
  induction n generalizing i with
  | zero => omega
  | succ n ih =>
    obtain ⟨g, hg, hdrop⟩ := drop_cons (show i < filter.length by omega)
    obtain ⟨c', hc', hlen, -⟩ := convertInsn_isSome (l := l) h hg (some a)
    rw [hdrop, emit, hc', getD_some]
    obtain rfl | hlt := hij.eq_or_lt
    · obtain rfl : f = g := some.inj (hf.symm.trans hg)
      obtain rfl : c = c' := some.inj (hc.symm.trans hc')
      refine ⟨?_, le_rfl⟩
      intro m insn hm
      have hlt := (List.getElem?_eq_some_iff.mp hm).1
      rw [Nat.sub_self, Nat.zero_add, getElem?_append_left hlt]
      exact hm
    · obtain ⟨hplaced, hle⟩ := ih (i := i + 1) (by omega) hlt
      rw [place] at hplaced hle
      refine ⟨?_, by omega⟩
      intro m insn hm
      rw [getElem?_append_right (by omega)]
      have := hplaced m insn hm
      rwa [show place l filter j - place l filter i + m - c'.length =
        place l filter j - (place l filter i + sizeAt l filter i) + m by omega]

theorem converted_placed (h : Accepted filter) (hf : filter[i]? = some f) {c : List Insn}
    (hc : convertInsn l filter.length (some (placeFrom l filter 0 fun _ => 0)) i f = some c) :
    Placed (converted l filter) (place l filter i) c := by
  obtain ⟨hplaced, hle⟩ := emit_placed (i := 0) h rfl (Nat.zero_le i) hf hc
  rw [drop_zero, place] at hplaced
  rw [place] at hle
  intro n insn hn
  have := hplaced n insn hn
  rw [converted, show place l filter i + n = place l filter i - 1 + n + 1 by omega,
    getElem?_cons_succ]
  exact this

/-! ## Branches -/

theorem place_mono (h : Accepted filter) {j : ℕ} (hij : i ≤ j) (hj : j ≤ filter.length) :
    place l filter i ≤ place l filter j := by
  induction j, hij using Nat.le_induction with
  | base => exact le_rfl
  | succ j hij ih =>
    have := place_lt_succ (l := l) h (show j < filter.length by omega)
    have := ih (by omega)
    omega

/-- The offset `off` leads from the `n`-th instruction emitted for instruction `i` to the first one
emitted for instruction `t`. -/
def Lands (l : Layout) (filter : List SockFilter) (i n : ℕ) (off : BitVec 16) (t : ℕ) : Prop :=
  (place l filter i + n : ℤ) + off.toInt + 1 = place l filter t

theorem emitJmp_lands (h : Accepted filter) {t n : ℕ} (hi : i < t) (ht : t < filter.length)
    (hn : n < 6) :
    ∃ off, bpfEmitJmp filter.length (some (placeFrom l filter 0 fun _ => 0)) i n t = some off ∧
      Lands l filter i n off t := by
  have hbound : place l filter t ≤ 1 + 6 * t := place_le h ht.le
  have hle : place l filter i ≤ place l filter t := place_mono h hi.le ht.le
  have hlen : filter.length ≤ 4096 := h.length_le
  have hoff : BitVec.ofInt 16 ((place l filter t : ℤ) - place l filter i - 1) - BitVec.ofNat 16 n =
      BitVec.ofInt 16 ((place l filter t : ℤ) - place l filter i - 1 - n) := by
    have hsmall : (BitVec.ofNat 16 n).toInt = n := by interval_cases n <;> rfl
    apply eq_of_toInt_eq
    simp [toInt_sub, toInt_ofInt, hsmall]
  refine ⟨_, by rw [bpfEmitJmp, if_neg (by omega)], ?_⟩
  simp only [Lands, Int.toNat_natCast, placeFrom_zero _ ht, placeFrom_zero _ (hi.trans ht)]
  rw [hoff, toInt_ofInt, Int.bmod_eq_of_le_mul_two (by omega) (by omega)]
  omega

theorem convertJmp_cases (h : Accepted filter) {op : JmpOp} {src : Src} {c : List Insn}
    (ht : i + f.jt + 1 < filter.length) (hf : i + f.jf + 1 < filter.length)
    (hc : convertJmp filter.length (some (placeFrom l filter 0 fun _ => 0)) i f op src = some c) :
    (f.jf = 0 ∧ ∃ off, c = (compare f src).setup ++ [(compare f src).insn op.extended off] ∧
      Lands l filter i (compare f src).setup.length off (i + f.jt + 1)) ∨
    ((f.jt = 0 ∧ op = .jeq) ∧ ∃ off, c = (compare f src).setup ++ [(compare f src).insn .jne off] ∧
      Lands l filter i (compare f src).setup.length off (i + f.jf + 1)) ∨
    ∃ off off', c = (compare f src).setup ++
        [(compare f src).insn op.extended off, ⟨.ja, .r0, .r0, off', 0⟩] ∧
      Lands l filter i (compare f src).setup.length off (i + f.jt + 1) ∧
      Lands l filter i ((compare f src).setup.length + 1) off' (i + f.jf + 1) := by
  have hsetup := length_setup_le f src
  have hjt : i < i + f.jt + 1 := by omega
  have hjf : i < i + f.jf + 1 := by omega
  have hn : (compare f src).setup.length < 6 := by omega
  obtain ⟨o₁, ho₁, hl₁⟩ := emitJmp_lands (l := l) h hjt ht hn
  obtain ⟨o₂, ho₂, hl₂⟩ := emitJmp_lands (l := l) h hjf hf hn
  obtain ⟨o₃, ho₃, hl₃⟩ := emitJmp_lands (l := l) h hjf hf
    (show (compare f src).setup.length + 1 < 6 by omega)
  push_cast at ho₁ ho₂ ho₃
  simp only [convertJmp, ho₁, ho₂, ho₃, map_some, bind_some] at hc
  by_cases h0 : f.jf = 0
  · rw [if_pos h0, some_inj] at hc
    exact .inl ⟨h0, o₁, hc.symm, hl₁⟩
  · by_cases hj : f.jt = 0 ∧ op = .jeq
    · rw [if_neg h0, if_pos hj, some_inj] at hc
      exact .inr (.inl ⟨hj, o₂, hc.symm, hl₂⟩)
    · rw [if_neg h0, if_neg hj, some_inj] at hc
      exact .inr (.inr ⟨o₁, o₃, hc.symm, hl₁, hl₃⟩)

end Cupcake.Net.Filter
