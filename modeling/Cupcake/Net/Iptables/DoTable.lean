import Cupcake.Net.Iptables.Chains

/-! The evaluation of the rules for a packet. -/

namespace Cupcake.Iptables

open List BackWalk Bytes

/-! ## Packets and extensions -/

structure Header where
  saddr : ℕ
  daddr : ℕ
  protocol : ℕ

/-- The packet, whose header targets may change, and what matches and targets do when the `n`-th
rule is evaluated; each tells whether it sets `hotdrop`. -/
structure World where
  header : ℕ → Header
  fragoff : ℕ
  indev : ℕ × ℕ
  outdev : ℕ × ℕ
  matched : ℕ → ℕ → Bool × Bool
  /-- the target at an address has no function -/
  noTarget : ℕ → Bool
  target : ℕ → ℕ → ℕ × Bool

variable {m m' mf : Mem} {env : Env} {repl : Replace} {info : Info} {w : World}
  {e fuel hook n : ℕ} {stack : List ℕ}

/-! ## Evaluation -/

def ifname (m : Mem) (a : ℕ) : ℕ × ℕ := (load m a 8, load m (a + 8) 8)

def ifnameCompareAligned (a b mask : ℕ × ℕ) : ℕ :=
  ((a.1 ^^^ b.1) &&& mask.1) ||| ((a.2 ^^^ b.2) &&& mask.2)

def fwinv (m : Mem) (e : ℕ) (c : Bool) (bit : ℕ) : Bool := c ^^ (ipInvflags m e).testBit bit

def ipPacketMatch (m : Mem) (e : ℕ) (w : World) (h : Header) : Bool :=
  !(fwinv m e (h.saddr &&& load m (e + 8) 4 ≠ load m e 4) 3 ||
    fwinv m e (h.daddr &&& load m (e + 12) 4 ≠ load m (e + 4) 4) 4) &&
  !fwinv m e (ifnameCompareAligned w.indev (ifname m (e + 16)) (ifname m (e + 48)) ≠ 0) 0 &&
  !fwinv m e (ifnameCompareAligned w.outdev (ifname m (e + 32)) (ifname m (e + 64)) ≠ 0) 1 &&
  !(ipProto m e ≠ 0 && fwinv m e (h.protocol ≠ ipProto m e) 6) &&
  !fwinv m e ((ipFlags m e).testBit 0 && w.fragoff = 0) 5

/-- `xt_ematch_foreach`: whether all matches hold, and `hotdrop`. -/
def evalMatches (m : Mem) (w : World) (n e : ℕ) : ℕ → ℕ → Bool → Option (Bool × Bool)
  | 0, _, _ => none
  | fuel + 1, t, hotdrop =>
    if t < getTarget m e then
      if (w.matched n t).1 then evalMatches m w n e fuel (t + recordSize m t)
        (hotdrop || (w.matched n t).2)
      else some (false, hotdrop || (w.matched n t).2)
    else some (true, hotdrop)

inductive Step
  | verdict (v : ℕ)
  | go (e : ℕ) (stack : List ℕ)

def xtContinue : ℕ := 0xFFFFFFFF

def xtReturn : ℤ := -5

def nextEntry (m : Mem) (e : ℕ) : ℕ := e + nextOffset m e

/-- `IPT_F_GOTO` is set. -/
def isGoto (m : Mem) (e : ℕ) : Bool := (ipFlags m e).testBit 1

def evalStandard (m : Mem) (info : Info) (hook e : ℕ) (stack : List ℕ) : Step :=
  let v := verdict m (getTarget m e)
  if v < 0 then
    if v ≠ xtReturn then .verdict (-v - 1).toNat
    else match stack with
      | [] => .go (info.underflow hook) []
      | back :: stack => .go (nextEntry m back) stack
  else if v.toNat ≠ nextEntry m e ∧ ¬ isGoto m e then
    if info.stacksize ≤ stack.length then .verdict nfDrop else .go v.toNat (e :: stack)
  else .go v.toNat stack

@[irreducible]
def evalRule (m : Mem) (info : Info) (hook : ℕ) (w : World) (n fuel e : ℕ) (stack : List ℕ) :
    Option (Step × Bool) :=
  if ¬ ipPacketMatch m e w (w.header n) then some (.go (nextEntry m e) stack, false)
  else match evalMatches m w n e fuel (e + sizeofEntry) false with
    | none => none
    | some (false, hotdrop) => some (.go (nextEntry m e) stack, hotdrop)
    | some (true, hotdrop) =>
      if w.noTarget (recordPointer m (getTarget m e)) then
        some (evalStandard m info hook e stack, hotdrop)
      else
        let (v, drop) := w.target n (getTarget m e)
        if v = xtContinue then some (.go (nextEntry m e) stack, hotdrop || drop)
        else some (.verdict v, hotdrop || drop)

def doTableLoop (m : Mem) (info : Info) (hook : ℕ) (w : World) :
    ℕ → ℕ → ℕ → List ℕ → Option (List ℕ × ℕ)
  | 0, _, _, _ => none
  | fuel + 1, n, e, stack =>
    match evalRule m info hook w n fuel e stack with
    | none => none
    | some r =>
      match r.1 with
      | .verdict v => some ([e], if r.2 then nfDrop else v)
      | .go e' stack' =>
        if r.2 then some ([e], nfDrop)
        else (doTableLoop m info hook w fuel (n + 1) e' stack').map fun r => (e :: r.1, r.2)

def iptDoTable (m : Mem) (info : Info) (hook : ℕ) (w : World) (fuel : ℕ) : Option (List ℕ × ℕ) :=
  doTableLoop m info hook w fuel 0 (info.hookEntry hook) []

/-! ## Single rules -/

theorem load_eq_zero {a k : ℕ} (h : ∀ i, a ≤ i → i < a + k → m i = 0) : load m a k = 0 := by
  induction k generalizing a with
  | zero => rfl
  | succ k ih =>
    rw [load, h a le_rfl (by omega), ih fun i h₁ h₂ => h i (by omega) (by omega)]
    rfl

theorem unconditional_iff : unconditional m e = true ↔
    targetOffset m e = sizeofEntry ∧ ∀ i, e ≤ i → i < e + sizeofIp → m i = 0 := by
  rw [unconditional, decide_eq_true_iff, all_eq_true]
  simp only [Bytes.read, mem_map, mem_range, decide_eq_true_eq]
  apply and_congr_right
  intro _
  constructor
  · intro h i h₁ h₂
    exact h (m i) ⟨i - e, by omega, by rw [Nat.add_sub_cancel' h₁]⟩
  · rintro h _ ⟨i, hi, rfl⟩
    exact h (e + i) (by omega) (by omega)

theorem ipPacketMatch_of_unconditional (h : unconditional m e = true) (hd : Header) :
    ipPacketMatch m e w hd = true := by
  obtain ⟨-, hz⟩ := unconditional_iff.mp h
  rw [sizeofIp] at hz
  have hload (a k : ℕ) (ha : e ≤ a) (hk : a + k ≤ e + 84) : load m a k = 0 :=
    load_eq_zero fun i h₁ h₂ => hz i (by omega) (by omega)
  have hinv : ipInvflags m e = 0 := hload _ _ (by omega) (by omega)
  have hproto : ipProto m e = 0 := hload _ _ (by omega) (by omega)
  have hflags : ipFlags m e = 0 := hload _ _ (by omega) (by omega)
  have hname (a : ℕ) (ha : e ≤ a) (hk : a + 16 ≤ e + 84) : ifname m a = (0, 0) := by
    rw [ifname, hload a 8 ha (by omega), hload (a + 8) 8 (by omega) (by omega)]
  simp only [ipPacketMatch, fwinv, hinv, hproto, hflags, Nat.zero_testBit, Bool.xor_false,
    hload e 4 le_rfl (by omega), hload (e + 4) 4 (by omega) (by omega),
    hload (e + 8) 4 (by omega) (by omega), hload (e + 12) 4 (by omega) (by omega),
    hname (e + 16) (by omega) (by omega), hname (e + 32) (by omega) (by omega),
    hname (e + 48) (by omega) (by omega), hname (e + 64) (by omega) (by omega), ifnameCompareAligned]
  simp

theorem evalMatches_total {t : ℕ} {hotdrop : Bool} (h : Records m t (getTarget m e))
    (hfuel : getTarget m e < t + fuel) : ∃ r, evalMatches m w n e fuel t hotdrop = some r := by
  induction fuel generalizing t hotdrop with
  | zero =>
    have := h.le
    omega
  | succ fuel ih =>
    rw [evalMatches]
    split_ifs with hlt hres
    · cases h with
      | refl => exact absurd hlt (lt_irrefl _)
      | next hmin hrest => exact ih hrest (by omega)
    · exact ⟨_, rfl⟩
    · exact ⟨_, rfl⟩

/-! ## Accepted tables -/

/-- What the kernel's targets are like: the standard target, and only it, has no function, and
it has no check. -/
structure StandardOk (env : Env) (w : World) : Prop where
  noTarget_iff : ∀ t x, Registered (env.targetExts t) x →
    (w.noTarget (x.address % 2 ^ 64) = true ↔ x.name = standardTarget)
  standard : ∀ t x, Registered (env.targetExts t) x → x.name = standardTarget →
    x.size = 4 ∧ x.checkentry = none

structure Ready (m mf : Mem) (info : Info) (hook : ℕ) (w : World) (l : List ℕ) : Prop where
  sorted : Sorted (graph m) l
  nodup : l.Nodup
  start : info.hookEntry hook ∈ l
  nodes : ∀ e ∈ l, IsEntry m info.size e
  head : ∀ e, IsEntry m info.size e → ∀ i, e ≤ i → i < e + 92 → mf i = m i
  records : ∀ e, IsEntry m info.size e → Records mf (e + 112) (getTarget m e)
  noTarget_iff : ∀ e, IsEntry m info.size e →
    (w.noTarget (recordPointer mf (getTarget m e)) = true ↔
      named m (getTarget m e) standardTarget = true)
  verdict_eq : ∀ e, IsEntry m info.size e → named m (getTarget m e) standardTarget = true →
    verdict mf (getTarget m e) = verdict m (getTarget m e)
  underflow : IsEntry m info.size (info.underflow hook)
  policy : checkUnderflow m (info.underflow hook) = true

theorem named_standard_iff {t : ℕ} {name : List UInt8} (h : named m t name = true) (hne : 0 ∉ name) :
    named m t standardTarget = true ↔ name = standardTarget := by
  cases name with
  | nil => exact ⟨fun _ => rfl, fun _ => h⟩
  | cons c name =>
    simp only [named, decide_eq_true_eq, Bytes.read, length_cons, range_succ_eq_map,
      map_cons, cons_append, List.cons.injEq] at h
    simp only [named, standardTarget, decide_eq_true_eq, Bytes.read, length_nil, zero_add,
      range_one, map_cons, map_nil, nil_append, List.cons.injEq, and_true,
      reduceCtorEq, iff_false]
    rw [h.1]
    rintro rfl
    exact hne (mem_cons_self ..)

theorem EntryDone.standard (hd : EntryDone env m mf e) (hl : LocalOk m repl.size e)
    (hstd : StandardOk env w) :
    (w.noTarget (recordPointer mf (getTarget m e)) = true ↔
      named m (getTarget m e) standardTarget = true) ∧
      (named m (getTarget m e) standardTarget = true →
        verdict mf (getTarget m e) = verdict m (getTarget m e)) := by
  obtain ⟨x, hreg, hname, hptr, hsize, hkeep⟩ := hd.target
  have hiff := named_standard_iff hname x.name_ne
  refine ⟨?_, fun hs => ?_⟩
  · rw [hptr, hstd.noTarget_iff _ x hreg, hiff]
  · obtain ⟨hfour, hnone⟩ := hstd.standard _ x hreg (hiff.mp hs)
    have hend := hl.target_end
    have hin : getTarget m e + 40 ≤ e + nextOffset m e := by
      rw [getTarget] at hsize hend ⊢
      omega
    have hraw : rawVerdict mf (getTarget m e) = rawVerdict m (getTarget m e) :=
      rawVerdict_congr fun i _ _ => hkeep hnone i (by omega) (by omega)
    rw [verdict, verdict, hraw]

structure Walked (m mf : Mem) (env : Env) (repl : Replace) (info : Info) (fuel : ℕ) : Prop where
  size : info.size = repl.size
  table : Table m info.size
  hooks : ∀ h < numHooks, repl.validHooks.testBit h = true → IsEntry m info.size (info.hookEntry h) ∧
    IsEntry m info.size (info.underflow h) ∧ checkUnderflow m (info.underflow h) = true
  done : ∀ e, IsEntry m info.size e → EntryDone env m mf e ∧ LocalOk m repl.size e
  marks : ∃ m₀ marked, Settled m info repl.validHooks [] m₀ ∧
    markHooks info repl.validHooks fuel (range numHooks) m₀ = some (some marked)

theorem walked_of_accepted (h : translateTable env repl fuel m = Res.of (.ok (mf, info)))
    (hfits : ∀ e, IsEntry m repl.size e → Fits m e) : Walked m mf env repl info fuel := by
  obtain ⟨wk, marked, hst⟩ := translateTable_ok h
  have hsize := hst.info_size
  have hsettled : Settled m info repl.validHooks [] wk.mem := by
    refine .init (hsize ▸ hst.scanned.kept) fun e he => ?_
    rw [hsize] at he
    exact hst.scanned.cleared e he.1 he.2
  refine ⟨hsize, ?_, fun h hh hv => hsize.symm ▸ hst.hookEntry hh hv, fun e he => ?_,
    wk.mem, marked, hsettled, hst.chains⟩
  · rw [hsize]
    exact ((wellFormed_iff_fits h).mpr hfits).table repl.size_lt
  · rw [hsize] at he
    exact ⟨hst.done hfits he, hst.localOk he⟩

open Classical in
theorem ready_of_accepted (h : translateTable env repl fuel m = Res.of (.ok (mf, info)))
    (hfits : ∀ e, IsEntry m repl.size e → Fits m e) (hhook : hook < numHooks)
    (hvalid : repl.validHooks.testBit hook = true) (hstd : StandardOk env w) :
    ∃ l, Ready m mf info hook w l ∧
      ∀ e ∈ l, Relation.ReflTransGen (graph m).Edge (info.hookEntry hook) e := by
  have hw := walked_of_accepted h hfits
  obtain ⟨m₀, marked, hsettled, hchains⟩ := hw.marks
  have hmarks := (markHooks_spec fuel hw.table (fun h hh hv => (hw.hooks h (mem_range.mp hh) hv).1)
    (fun h hh => mem_range.mp hh) nodup_range (fun _ _ => not_mem_nil) hsettled).1 marked hchains
  obtain ⟨l, hsort, hnd, hstart, hnodes⟩ := hmarks.order hook (by simpa using hhook) hvalid
  obtain ⟨-, hunder, hpolicy⟩ := hw.hooks hook hhook hvalid
  -- the search may have met nothing else, but the order does not say so
  refine ⟨l.filter fun e => Relation.ReflTransGen (graph m).Edge (info.hookEntry hook) e,
    ⟨hsort.filter fun v u hv he => hv.tail he, hnd.filter _,
      mem_filter.mpr ⟨hstart, decide_eq_true .refl⟩, fun e he => hnodes e (mem_filter.mp he).1,
      fun e he => (hw.done e he).1.head, fun e he => (hw.done e he).1.records', fun e he => ?_,
      fun e he => ?_, hunder, hpolicy⟩, fun e he => of_decide_eq_true (mem_filter.mp he).2⟩
  · exact ((hw.done e he).1.standard (hw.done e he).2 hstd).1
  · exact ((hw.done e he).1.standard (hw.done e he).2 hstd).2

/-! ## Runs -/

section Runs

variable {l : List ℕ} {weight : ℕ → ℕ}

section

variable (h : Ready m mf info hook w l) (he : IsEntry m info.size e)

include h he

theorem Ready.getTarget_eq :
    getTarget mf e = getTarget m e := by
  rw [getTarget, getTarget, targetOffset_congr (h.head e he)]

theorem Ready.nextEntry_eq :
    nextEntry mf e = (graph m).next e := by
  rw [nextEntry, nextOffset_congr (h.head e he)]
  rfl

theorem Ready.not_stop_of_no_match
    (hno : ipPacketMatch mf e w (w.header n) = false ∨
      ∃ fuel hotdrop, evalMatches mf w n e fuel (e + sizeofEntry) false = some (false, hotdrop)) :
    ¬ (graph m).stop e := by
  rintro ⟨huncond, -⟩
  have huncond' : unconditional mf e = true := by
    rw [unconditional_congr (h.head e he)]
    exact huncond
  have hmatch := ipPacketMatch_of_unconditional (w := w) huncond' (w.header n)
  have htarget : getTarget mf e = e + sizeofEntry := by
    rw [getTarget, (unconditional_iff.mp huncond').1]
  rcases hno with hno | ⟨fuel, hotdrop, hno⟩
  · rw [hmatch] at hno
    cases hno
  · cases fuel with
    | zero => cases hno
    | succ fuel =>
      rw [evalMatches, htarget, if_neg (lt_irrefl _)] at hno
      cases hno

end

structure Running (m : Mem) (l : List ℕ) (e : ℕ) (stack : List ℕ) : Prop where
  mem : e ∈ l
  stack_mem : ∀ s ∈ stack, s ∈ l ∧ ¬ (graph m).stop s

def rulesLeft (m : Mem) (weight : ℕ → ℕ) (e : ℕ) (stack : List ℕ) : ℕ :=
  weight e + (stack.map fun s => weight ((graph m).next s)).sum

def Weighted (m : Mem) (l : List ℕ) (weight : ℕ → ℕ) : Prop :=
  ∀ v ∈ l, 0 < weight v ∧ (¬ (graph m).stop v →
    weight ((graph m).next v) + ((graph m).jump v).elim 0 weight < weight v)

def StepOk (m : Mem) (info : Info) (hook : ℕ) (l : List ℕ) (weight : ℕ → ℕ) (left : ℕ) : Step → Prop
  | .verdict _ => True
  | .go e stack => Running m l e stack ∧ rulesLeft m weight e stack < left ∨
      e = info.underflow hook ∧ stack = []

section

variable (hr : Ready m mf info hook w l) (hw : Weighted m l weight) (h : Running m l e stack)

include hr hw h

theorem Running.next (hstop : ¬ (graph m).stop e) :
    StepOk m info hook l weight (rulesLeft m weight e stack) (.go (nextEntry mf e) stack) := by
  rw [hr.nextEntry_eq (hr.nodes e h.mem)]
  refine .inl ⟨⟨hr.sorted.closed h.mem ⟨hstop, .inr rfl⟩, h.stack_mem⟩, ?_⟩
  have := (hw e h.mem).2 hstop
  rw [rulesLeft, rulesLeft]
  omega

theorem evalStandard_ok (hname : named m (getTarget m e) standardTarget = true) :
    StepOk m info hook l weight (rulesLeft m weight e stack) (evalStandard mf info hook e stack) := by
  have he := hr.nodes e h.mem
  have hverdict := hr.verdict_eq e he hname
  have hpos := (hw e h.mem).1
  unfold evalStandard
  rw [hr.getTarget_eq he, hverdict]
  dsimp only
  by_cases hneg : verdict m (getTarget m e) < 0
  · rw [if_pos hneg]
    split_ifs
    · trivial
    · cases stack with
      | nil => exact .inr ⟨rfl, rfl⟩
      | cons back stack =>
        obtain ⟨hmem, hstop⟩ := h.stack_mem back (mem_cons_self ..)
        dsimp only
        rw [hr.nextEntry_eq (hr.nodes back hmem)]
        refine .inl ⟨⟨hr.sorted.closed hmem ⟨hstop, .inr rfl⟩,
          fun s hs => h.stack_mem s (mem_cons_of_mem _ hs)⟩, ?_⟩
        rw [rulesLeft, rulesLeft, map_cons, sum_cons]
        omega
  · rw [if_neg hneg]
    have hstd : standardWith m e (0 ≤ ·) = true := by
      rw [standardWith, hname]
      simpa using hneg
    have hjump : (graph m).jump e = some (verdict m (getTarget m e)).toNat := if_pos hstd
    have hstop : ¬ (graph m).stop e := by
      rintro ⟨-, hs⟩
      rw [standardWith, hname] at hs
      exact hneg (by simpa using hs)
    have hmem := hr.sorted.closed h.mem ⟨hstop, .inl hjump⟩
    have hweight := (hw e h.mem).2 hstop
    rw [hjump, Option.elim_some] at hweight
    split_ifs
    · trivial
    · refine .inl ⟨⟨hmem, fun s hs => ?_⟩, ?_⟩
      · rcases mem_cons.mp hs with rfl | hs
        · exact ⟨h.mem, hstop⟩
        · exact h.stack_mem s hs
      · rw [rulesLeft, rulesLeft, map_cons, sum_cons]
        omega
    · refine .inl ⟨⟨hmem, h.stack_mem⟩, ?_⟩
      rw [rulesLeft, rulesLeft]
      omega

theorem evalRule_ok (hfuel : 2 ^ 16 ≤ fuel) :
    ∃ r, evalRule mf info hook w n fuel e stack = some r ∧
      StepOk m info hook l weight (rulesLeft m weight e stack) r.1 := by
  have he := hr.nodes e h.mem
  have htarget := hr.getTarget_eq he
  have hlt : targetOffset mf e < 2 ^ 16 := load_lt
  rw [evalRule]
  by_cases hp : ipPacketMatch mf e w (w.header n) = true
  · rw [if_neg (not_not.mpr hp)]
    have hend : ∃ r, evalMatches mf w n e fuel (e + sizeofEntry) false = some r := by
      refine evalMatches_total (htarget.symm ▸ hr.records e he) ?_
      rw [getTarget, sizeofEntry]
      omega
    obtain ⟨⟨all, hotdrop⟩, hm⟩ := hend
    rw [hm]
    cases all with
    | false =>
      exact ⟨_, rfl, h.next hr hw (hr.not_stop_of_no_match he (.inr ⟨fuel, hotdrop, hm⟩))⟩
    | true =>
      dsimp only
      rw [htarget]
      by_cases hnull : w.noTarget (recordPointer mf (getTarget m e)) = true
      · rw [if_pos hnull]
        exact ⟨_, rfl, evalStandard_ok hr hw h ((hr.noTarget_iff e he).mp hnull)⟩
      · rw [if_neg hnull]
        split_ifs
        · refine ⟨_, rfl, h.next hr hw ?_⟩
          rintro ⟨-, hs⟩
          rw [standardWith, Bool.and_eq_true] at hs
          exact hnull ((hr.noTarget_iff e he).mpr hs.1)
        · exact ⟨_, rfl, trivial⟩
  · rw [if_pos hp]
    exact ⟨_, rfl, h.next hr hw (hr.not_stop_of_no_match he (.inl (eq_false_of_ne_true hp)))⟩

end

theorem evalRule_underflow (hr : Ready m mf info hook w l) (hfuel : 0 < fuel) :
    ∃ v hotdrop, evalRule mf info hook w n fuel (info.underflow hook) [] =
      some (.verdict v, hotdrop) := by
  have he := hr.underflow
  have hpol := hr.policy
  rw [checkUnderflow, Bool.and_eq_true, Bool.and_eq_true, decide_eq_true_eq] at hpol
  obtain ⟨⟨huncond, hname⟩, hverdict⟩ := hpol
  have huncond' : unconditional mf (info.underflow hook) = true := by
    rw [unconditional_congr (hr.head _ he)]
    exact huncond
  have htarget : getTarget mf (info.underflow hook) = info.underflow hook + sizeofEntry := by
    rw [getTarget, (unconditional_iff.mp huncond').1]
  obtain ⟨fuel, rfl⟩ := Nat.exists_eq_succ_of_ne_zero (Nat.ne_of_gt hfuel)
  have hnull := (hr.noTarget_iff _ he).mpr hname
  have hv : verdict mf (getTarget m (info.underflow hook)) = -1 ∨
      verdict mf (getTarget m (info.underflow hook)) = -2 := by
    rw [hr.verdict_eq _ he hname, verdict]
    have hraw : rawVerdict m (getTarget m (info.underflow hook)) < 2 ^ 32 := load_lt
    simp only [wsub, nfDrop, nfAccept] at hverdict
    split_ifs <;> omega
  rw [evalRule, if_neg (not_not.mpr (ipPacketMatch_of_unconditional huncond' _)),
    Nat.succ_eq_add_one, evalMatches, htarget, if_neg (lt_irrefl _)]
  dsimp only
  rw [← htarget, hr.getTarget_eq he, if_pos hnull, evalStandard.eq_def, hr.getTarget_eq he]
  dsimp only
  have hneg : verdict mf (getTarget m (info.underflow hook)) < 0 := by omega
  have hne : verdict mf (getTarget m (info.underflow hook)) ≠ xtReturn := by
    rw [xtReturn]
    omega
  rw [if_pos hneg, if_pos hne]
  exact ⟨_, _, rfl⟩

def Ended (m : Mem) (e v : ℕ) : Prop :=
  named m (getTarget m e) standardTarget = true → v = nfDrop ∨
    verdict m (getTarget m e) < 0 ∧ v = (-verdict m (getTarget m e) - 1).toNat

theorem evalRule_ended {v : ℕ} {hotdrop : Bool} (hr : Ready m mf info hook w l)
    (he : IsEntry m info.size e)
    (hrule : evalRule mf info hook w n fuel e stack = some (.verdict v, hotdrop)) : Ended m e v := by
  intro hname
  have hnull := (hr.noTarget_iff e he).mpr hname
  unfold evalRule at hrule
  rw [hr.getTarget_eq he] at hrule
  split at hrule
  · cases hrule
  · split at hrule
    · cases hrule
    · cases hrule
    · have hstd : evalStandard mf info hook e stack = .verdict v :=
        congrArg Prod.fst (Option.some.inj hrule)
      unfold evalStandard at hstd
      rw [hr.getTarget_eq he, hr.verdict_eq e he hname] at hstd
      dsimp only at hstd
      split_ifs at hstd with hneg hret hjump hfull
      · exact .inr ⟨hneg, (Step.verdict.inj hstd).symm⟩
      · cases stack with
        | nil => cases hstd
        | cons back stack => cases hstd
      · exact .inl (Step.verdict.inj hstd).symm

/-- What a run that goes on at `e` gives: it evaluates only entries, and ends with one of the rules
of the hook or with its policy. -/
def LoopOk (m : Mem) (info : Info) (hook : ℕ) (l : List ℕ) (r : Option (List ℕ × ℕ)) : Prop :=
  ∃ trace v, r = some (trace, v) ∧ (∀ e ∈ trace, IsEntry m info.size e) ∧
    ∃ e, trace.getLast? = some e ∧ (e ∈ l ∨ e = info.underflow hook) ∧ Ended m e v

theorem LoopOk.single {v : ℕ} (he : IsEntry m info.size e) (hmem : e ∈ l ∨ e = info.underflow hook)
    (hend : Ended m e v) : LoopOk m info hook l (some ([e], v)) :=
  ⟨[e], v, rfl, fun _ hx => mem_singleton.mp hx ▸ he, e, rfl, hmem, hend⟩

theorem LoopOk.cons {r : Option (List ℕ × ℕ)} (he : IsEntry m info.size e)
    (h : LoopOk m info hook l r) : LoopOk m info hook l (r.map fun r => (e :: r.1, r.2)) := by
  obtain ⟨trace, v, rfl, hall, x, hlast, hx⟩ := h
  refine ⟨e :: trace, v, rfl, fun y hy => ?_, x, ?_, hx⟩
  · rcases mem_cons.mp hy with rfl | hy
    · exact he
    · exact hall y hy
  · rw [getLast?_cons, hlast]
    rfl

theorem doTableLoop_underflow (hr : Ready m mf info hook w l) (hfuel : 1 < fuel) :
    LoopOk m info hook l (doTableLoop mf info hook w fuel n (info.underflow hook) []) := by
  obtain ⟨fuel, rfl⟩ := Nat.exists_eq_succ_of_ne_zero (Nat.ne_of_gt ((Nat.zero_lt_one).trans hfuel))
  obtain ⟨v, hotdrop, hrule⟩ := evalRule_underflow (n := n) hr (by omega : 0 < fuel)
  have hend := evalRule_ended hr hr.underflow hrule
  rw [Nat.succ_eq_add_one, doTableLoop, hrule]
  refine .single hr.underflow (.inr rfl) fun hname => ?_
  cases hotdrop with
  | true => exact .inl rfl
  | false => exact hend hname

theorem doTableLoop_ok (hr : Ready m mf info hook w l) (hw : Weighted m l weight)
    (h : Running m l e stack) (hfuel : 2 ^ 16 + rulesLeft m weight e stack < fuel) :
    LoopOk m info hook l (doTableLoop mf info hook w fuel n e stack) := by
  induction fuel generalizing n e stack with
  | zero => omega
  | succ fuel ih =>
    obtain ⟨⟨step, hotdrop⟩, hrule, hok⟩ := evalRule_ok (n := n) hr hw h (by omega : 2 ^ 16 ≤ fuel)
    have he := hr.nodes e h.mem
    rw [doTableLoop, hrule]
    cases step with
    | verdict v =>
      refine .single he (.inl h.mem) fun hname => ?_
      cases hotdrop with
      | true => exact .inl rfl
      | false => exact evalRule_ended hr he hrule hname
    | go e' stack' =>
      dsimp only
      split_ifs
      · exact .single he (.inl h.mem) fun _ => .inl rfl
      · rcases hok with ⟨hrun, hlt⟩ | ⟨rfl, rfl⟩
        · exact .cons he (ih hrun (by omega))
        · exact .cons he (doTableLoop_underflow hr (by omega))

end Runs

/-- The evaluation ends, for every packet and whatever matches and targets do, and evaluates
nothing but entries of the table. -/
theorem iptDoTable_of_accepted (h : translateTable env repl fuel m = Res.of (.ok (mf, info)))
    (hfits : ∀ e, IsEntry m repl.size e → Fits m e) (hhook : hook < numHooks)
    (hvalid : repl.validHooks.testBit hook = true) (hstd : StandardOk env w) :
    ∃ bound, ∀ steps, bound < steps → ∃ trace v, iptDoTable mf info hook w steps = some (trace, v) ∧
      ∀ e ∈ trace, IsEntry mf info.size e := by
  obtain ⟨l, hr, -⟩ := ready_of_accepted h hfits hhook hvalid hstd
  obtain ⟨weight, hw⟩ := hr.sorted.exists_weight hr.nodup
  refine ⟨2 ^ 16 + rulesLeft m weight (info.hookEntry hook) [], fun steps hsteps => ?_⟩
  obtain ⟨trace, v, hrun, hall, -⟩ := doTableLoop_ok (n := 0) hr hw
    ⟨hr.start, fun s hs => by cases hs⟩ hsteps
  refine ⟨trace, v, hrun, fun e he => (hall e he).congr fun e' he' => ?_⟩
  exact nextOffset_congr (hr.head e' he')

/-! ## Two tables -/

def plainWorld : World where
  header := fun _ => ⟨0, 0, 0⟩
  fragoff := 0
  indev := (0, 0)
  outdev := (0, 0)
  matched := fun _ _ => (true, false)
  noTarget := fun address => address = standardExt.address
  target := fun _ _ => (nfDrop, false)

theorem standardOk_plainWorld (h : env.targetExts = builtins.targetExts) :
    StandardOk env plainWorld := by
  have heq (t : ℕ) (x : Extension) (hx : Registered (env.targetExts t) x) : x = standardExt := by
    simpa [Registered, h, builtins] using hx
  refine ⟨fun t x h => ?_, fun t x h _ => ?_⟩
  · rw [heq t x h]
    exact ⟨fun _ => rfl, fun _ => by decide⟩
  · rw [heq t x h]
    exact ⟨rfl, rfl⟩

theorem iptDoTable_icmpTable :
    ∃ mf info, translateTable builtins (filterOf 344 192 (by decide)) 6 icmpTable =
        Res.of (.ok (mf, info)) ∧
      ∃ bound, ∀ steps, bound < steps →
        ∃ trace v, iptDoTable mf info 1 plainWorld steps = some (trace, v) ∧
          ∀ e ∈ trace, IsEntry mf info.size e := by
  obtain ⟨⟨mf, info⟩, hr⟩ := icmpTable_accepted
  refine ⟨mf, info, hr, iptDoTable_of_accepted hr (fun e he => ?_) (by decide) (by decide)
    (standardOk_plainWorld rfl)⟩
  have hok := wellFormed_icmpTable.entries e he
  exact ⟨hok.target_start, hok.records.meets⟩

/-- `user2credits` of `xt_limit.c`, for `HZ` 250 and `CREDITS_PER_JIFFY` 128. -/
def user2credits (user : ℕ) : ℕ :=
  if 0xFFFFFFFF / 32000 < user then user / 10000 * 32000 % 2 ^ 32 else user * 32000 % 2 ^ 32 / 10000

/-- `limit_mt_check` on a `struct xt_rateinfo`: `avg` at 0, `burst` at 4, `credit_cap` at 20, `cost`
at 24, `master` at 32. -/
def limitMtCheck (data : List UInt8) : ℤ × List UInt8 :=
  let r : Mem := fun i => data.getD i 0
  let avg := load r 0 4
  let full := user2credits (avg * load r 4 4 % 2 ^ 32)
  if load r 4 4 = 0 ∨ full < user2credits avg then (-34, data)
  else
    let r' := store r 32 8 0xFFFFFFC012345680
    let r' := if load r 24 4 = 0 then store (store r' 20 4 full) 24 4 (user2credits avg) else r'
    (0, read r' 0 40)

def limitExt : Extension where
  address := 0xFFFFFFC000A00200
  name := [108, 105, 109, 105, 116]
  revision := 0
  size := 40
  table := none
  hooks := 0
  proto := 0
  checkentry := some limitMtCheck
  name_lt := by decide
  name_ne := by decide
  size_lt := by decide

def withLimit : Env := { builtins with
  matchExts := fun _ => (⟨[icmpExt], [limitExt]⟩, ⟨[icmpExt], [limitExt]⟩) }

def limitRepl : Replace where
  name := [102, 105, 108, 116, 101, 114]
  validHooks := 14
  numEntries := 3
  size := 488
  hookEntry := fun _ => 152
  underflow := fun _ => 336
  size_lt := by decide

/-- The rule at 152, a goto, has a `limit` match of 72 bytes at 264 and its target at 288, in that
record: the cost that the check stores is the verdict of the target. -/
def limitTable : Mem := bytesOf (acceptAll 0 ++ [(152 + 82, 2), (152 + 88, 136), (152 + 90, 184),
  (264, 72), (266, 108), (267, 105), (268, 109), (269, 105), (270, 116),
  (288, 40), (296, 0xE8), (297, 3), (300, 1)] ++ acceptAll 336)

def limitTrace : Option (List ℕ) :=
  ((translateTable withLimit limitRepl 10 limitTable).run.bind Except.toOption).bind fun r =>
    (iptDoTable r.1 r.2 1 plainWorld 100).map Prod.fst

theorem Res.of_toOption {α : Type} {x : Res α} {a : α} (h : x.run.bind Except.toOption = some a) :
    x = Res.of (.ok a) := by
  obtain ⟨y, hx, hy⟩ := Option.bind_eq_some_iff.mp h
  cases y with
  | error err => cases hy
  | ok b =>
    cases hy
    exact hx

theorem limitTable_runs_away :
    (∀ e, IsEntry limitTable limitRepl.size e → sizeofEntry ≤ targetOffset limitTable e) ∧
    StandardOk withLimit plainWorld ∧
    ∃ mf info trace v, translateTable withLimit limitRepl 10 limitTable = Res.of (.ok (mf, info)) ∧
      iptDoTable mf info 1 plainWorld 100 = some (trace, v) ∧
      ∃ e ∈ trace, limitRepl.size ≤ e ∧ ¬ IsEntry mf limitRepl.size e := by
  refine ⟨fun e he => ?_, standardOk_plainWorld rfl, ?_⟩
  · have h₁ : start limitTable 1 = 0 + 152 := start_succ_of_eq rfl (by decide +kernel)
    have h₂ : start limitTable 2 = 152 + 184 := start_succ_of_eq h₁ (by decide +kernel)
    have h₃ : start limitTable 3 = 336 + 152 := start_succ_of_eq h₂ (by decide +kernel)
    obtain ⟨i, hi, rfl⟩ := he.exists_start h₃.ge
    rcases (by omega : i = 0 ∨ i = 1 ∨ i = 2) with rfl | rfl | rfl
    · decide +kernel
    · rw [h₁]
      decide +kernel
    · rw [h₂]
      decide +kernel
  · have htrace : limitTrace = some [152, 3200] := by decide +kernel
    obtain ⟨r, hacc, htrace⟩ := Option.bind_eq_some_iff.mp htrace
    obtain ⟨t, hrun, heq⟩ := Option.map_eq_some_iff.mp htrace
    refine ⟨r.1, r.2, t.1, t.2, Res.of_toOption hacc, hrun, 3200, by rw [heq]; decide, by decide,
      fun he => absurd he.2 (by decide)⟩

end Cupcake.Iptables
