import Cupcake.Lib.Except
import Cupcake.Selinux.Ebitmap.Words

/-! `ebitmap_netlbl_import` beside setting the same bits one by one. -/

namespace Cupcake.Selinux

open EbitmapNode List Option BitVec

/-- What `netlbl_catmap_getlong` gives, call after call: words at increasing offsets. -/
structure Catmap where
  words : List (ℕ × BitVec 64)
  increasing : words.Pairwise (·.1 < ·.1)
  aligned : ∀ c ∈ words, 64 ∣ c.1 ∧ c.1 < 2 ^ 32

/-- `offset & ~(EBITMAP_SIZE - 1)` -/
def netlblStart (offset : ℕ) : ℕ := (BitVec.ofNat 32 offset &&& ~~~383#32).toNat

/-- The loop of `ebitmap_netlbl_import` at the node `e_iter`: that node and those behind it.
The first `allocs` allocations succeed. -/
def importLoop : ℕ → Option EbitmapNode → List (ℕ × BitVec 64) →
    Except LoadError (List EbitmapNode)
  | _, cur, [] => .ok cur.toList
  | allocs, cur, (offset, bitmap) :: ws =>
    if bitmap = 0 then importLoop allocs cur ws
    else
      match cur.filter (offset < ·.startbit + ebitmapSize) with
      | some n => do
        let n ← n.setMap offset bitmap
        importLoop allocs (some n) ws
      | none =>
        if allocs = 0 then .error .enomem
        else do
          let n ← (zeroNode (netlblStart offset)).setMap offset bitmap
          let ns ← importLoop (allocs - 1) (some n) ws
          return cur.toList ++ ns

/-- `ebitmap_netlbl_import` into an empty bitmap; `none` when it writes behind a node. -/
def ebitmapNetlblImport (allocs : ℕ) (catmap : Catmap) : Option (Ebitmap × Int) :=
  match importLoop allocs none catmap.words with
  | .ok ns => some (⟨ns, prevEnd ns.getLast?⟩, 0)
  | .error .enomem => some (ebitmapInit, enomem)
  | .error _ => none

/-- With memory for its nodes, an imported bitmap is the one that has the same bits set. -/
def ImportsAlike (catmap : Catmap) : Prop :=
  ∃ e, setBits (wordBits catmap.words) ebitmapInit = some e ∧
    ∀ allocs, catmap.words.length ≤ allocs → ∃ r, ebitmapNetlblImport allocs catmap = some (r, 0) ∧
      ebitmapCmp r e = true ∧ (∀ n ∈ r.node, ebitmapSize ∣ n.startbit) ∧
      r.node.Pairwise fun m n => m.startbit + ebitmapSize ≤ n.startbit

/-- A word behind `cur` that is the first with a bit in its `EBITMAP_SIZE` bits. -/
def FirstAfter (cur : Option EbitmapNode) (ws : List (ℕ × BitVec 64)) (c : ℕ × BitVec 64) : Prop :=
  c ∈ ws ∧ c.2 ≠ 0 ∧ (∀ n ∈ cur, n.startbit / ebitmapSize < c.1 / ebitmapSize) ∧
    ∀ d ∈ ws, d.2 ≠ 0 → d.1 < c.1 → d.1 / ebitmapSize < c.1 / ebitmapSize

/-- The mask rounds down to a node wherever a node begins. -/
def Catmap.MaskRounds (catmap : Catmap) : Prop :=
  ∀ c, FirstAfter none catmap.words c → ebitmapSize ∣ netlblStart c.1

variable {n : EbitmapNode} {ns : List EbitmapNode} {cur : Option EbitmapNode}
  {ws : List (ℕ × BitVec 64)} {o : ℕ} {w : BitVec 64}

theorem netlblStart_add (ho : o < 2 ^ 32) : netlblStart o + (o &&& 383) = o := by
  have hdisj : (BitVec.ofNat 32 o &&& ~~~383#32) &&& (BitVec.ofNat 32 o &&& 383#32) = 0#32 := by
    rw [BitVec.and_comm (BitVec.ofNat 32 o) 383#32, BitVec.and_assoc, ← BitVec.and_assoc (~~~383#32),
      and_comm (~~~383#32)]
    simp
  have hor : (BitVec.ofNat 32 o &&& ~~~383#32) ||| (BitVec.ofNat 32 o &&& 383#32) =
      BitVec.ofNat 32 o := by
    ext i hi
    simp only [getElem_or, getElem_and, getElem_not]
    cases (BitVec.ofNat 32 o)[i] <;> cases (383#32)[i] <;> rfl
  have hsum := congrArg BitVec.toNat ((BitVec.add_eq_or_of_and_eq_zero _ _ hdisj).trans hor)
  have hlow : o &&& 383 ≤ 383 := Nat.and_le_right
  have htop : netlblStart o ≤ 4294966912 := Nat.and_le_right
  rw [toNat_add, toNat_ofNat, Nat.mod_eq_of_lt ho] at hsum
  have hand : (BitVec.ofNat 32 o &&& 383#32).toNat = o &&& 383 := by
    rw [toNat_and, toNat_ofNat, Nat.mod_eq_of_lt ho]
    rfl
  rw [hand, ← netlblStart] at hsum
  omega

theorem netlblStart_spec (ho : o < 2 ^ 32) (ha : 64 ∣ o) :
    netlblStart o ≤ o ∧ o < netlblStart o + ebitmapSize ∧
      netlblStart o + ebitmapSize ≤ 2 ^ 32 ∧ 64 ∣ netlblStart o := by
  have hsum := netlblStart_add ho
  have hlow : o &&& 383 ≤ 383 := Nat.and_le_right
  have htop : netlblStart o ≤ 4294966912 := Nat.and_le_right
  have hmod : (o &&& 383) % 2 ^ 6 = 0 := by
    rw [Nat.and_mod_two_pow, Nat.mod_eq_zero_of_dvd ha, Nat.zero_and]
  simp only [ebitmapSize]
  omega

/-! ## Where nodes begin -/

theorem firstAfter_skip {c : ℕ × BitVec 64} :
    FirstAfter cur ((o, 0) :: ws) c ↔ FirstAfter cur ws c := by
  simp only [FirstAfter, List.mem_cons, forall_eq_or_imp]
  constructor
  · rintro ⟨rfl | hc, hv, hcur, -, hws⟩
    · exact absurd rfl hv
    · exact ⟨hc, hv, hcur, hws⟩
  · rintro ⟨hc, hv, hcur, hws⟩
    exact ⟨.inr hc, hv, hcur, fun h0 => absurd rfl h0, hws⟩

theorem firstAfter_keep {n' : EbitmapNode} {c : ℕ × BitVec 64} (hs : n'.startbit = n.startbit)
    (hd : ebitmapSize ∣ n.startbit) (hle : n.startbit ≤ o) (hlt : o < n.startbit + ebitmapSize) :
    FirstAfter (some n) ((o, w) :: ws) c ↔ FirstAfter (some n') ws c := by
  have hgroup : o / ebitmapSize = n.startbit / ebitmapSize := by
    simp only [ebitmapSize] at *
    omega
  simp only [FirstAfter, List.mem_cons, forall_eq_or_imp, Option.mem_some_iff, forall_eq', hs]
  constructor
  · rintro ⟨rfl | hc, hv, hcur, -, hws⟩
    · exact absurd hcur (by simp [hgroup])
    · exact ⟨hc, hv, hcur, hws⟩
  · rintro ⟨hc, hv, hcur, hws⟩
    exact ⟨.inr hc, hv, hcur, fun _ _ => hgroup ▸ hcur, hws⟩

section

variable (hw : w ≠ 0) (hcur : ∀ n ∈ cur, ebitmapSize ∣ n.startbit ∧ n.startbit + ebitmapSize ≤ o)

include hw hcur

theorem firstAfter_head (hp : ∀ c ∈ ws, o < c.1) : FirstAfter cur ((o, w) :: ws) (o, w) := by
  refine ⟨by simp, hw, fun n hn => ?_, fun d hd _ hlt => ?_⟩
  · obtain ⟨h₁, h₂⟩ := hcur n hn
    simp only [ebitmapSize] at *
    omega
  · rcases List.mem_cons.mp hd with rfl | hd
    · exact absurd hlt (lt_irrefl _)
    · exact absurd (hp d hd) (Nat.lt_asymm hlt)

theorem firstAfter_open {n' : EbitmapNode} {c : ℕ × BitVec 64} (hd : ebitmapSize ∣ n'.startbit)
    (hle : n'.startbit ≤ o) (hlt : o < n'.startbit + ebitmapSize) (hp : ∀ c ∈ ws, o < c.1) :
    FirstAfter cur ((o, w) :: ws) c ↔ c = (o, w) ∨ FirstAfter (some n') ws c := by
  have hgroup : o / ebitmapSize = n'.startbit / ebitmapSize := by
    simp only [ebitmapSize] at *
    omega
  have hhead := firstAfter_head hw hcur hp
  constructor
  · rintro ⟨hc, hv, -, hws⟩
    rcases List.mem_cons.mp hc with rfl | hc
    · exact .inl rfl
    · refine .inr ⟨hc, hv, ?_, fun d hd => hws d (mem_cons_of_mem _ hd)⟩
      simpa [hgroup] using hws (o, w) (by simp) hw (hp c hc)
  · rintro (rfl | ⟨hc, hv, hcur', hws⟩)
    · exact hhead
    · have hmore : o / ebitmapSize < c.1 / ebitmapSize := by simpa [hgroup] using hcur'
      refine ⟨mem_cons_of_mem _ hc, hv, fun n hn => (hhead.2.2.1 n hn).trans hmore, ?_⟩
      simpa using ⟨fun _ _ => hmore, fun p v hd => hws (p, v) hd⟩

end

theorem importLoop_spec {allocs : ℕ} (hp : ws.Pairwise (·.1 < ·.1))
    (ha : ∀ c ∈ ws, 64 ∣ c.1 ∧ c.1 < 2 ^ 32) (hcur : ∀ n ∈ cur, Ready n ws)
    (hl : ws.length ≤ allocs) :
    ∃ ns, importLoop allocs cur ws = .ok ns ∧ Built cur ws ns ∧
      ((∀ n ∈ ns, ebitmapSize ∣ n.startbit) ↔ (∀ n ∈ cur, ebitmapSize ∣ n.startbit) ∧
        ∀ c, FirstAfter cur ws c → ebitmapSize ∣ netlblStart c.1) := by
  induction ws generalizing cur allocs with
  | nil => exact ⟨_, rfl, .nil hcur, by simp [FirstAfter]⟩
  | cons c ws ih =>
    obtain ⟨o, w⟩ := c
    obtain ⟨hlt, hp'⟩ := pairwise_cons.mp hp
    have ha' : ∀ c ∈ ws, 64 ∣ c.1 ∧ c.1 < 2 ^ 32 := fun c hc => ha c (mem_cons_of_mem _ hc)
    have ha64 : ∀ c ∈ (o, w) :: ws, 64 ∣ c.1 := fun c hc => (ha c hc).1
    obtain ⟨hdo, ho⟩ : 64 ∣ o ∧ o < 2 ^ 32 := ha (o, w) (by simp)
    have hl' : ws.length + 1 ≤ allocs := hl
    by_cases hw : w = 0
    · subst hw
      obtain ⟨ns, hrun, hb, hal⟩ := @ih cur allocs hp' ha'
        (fun n hn => (hcur n hn).mono (by simp)) (by omega)
      refine ⟨ns, ?_, hb.skip, ?_⟩
      · rw [importLoop, if_pos rfl, hrun]
      · simp only [hal, firstAfter_skip]
    rw [importLoop, if_neg hw]
    cases hf : cur.filter (o < ·.startbit + ebitmapSize) with
    | some n =>
      obtain ⟨rfl, hin⟩ := filter_eq_some_iff.mp hf
      have hr := hcur n rfl
      have hin : o < n.startbit + ebitmapSize := by simpa using hin
      obtain ⟨n', hset, hs, hr', hbuilt⟩ := hr.keep hw hin hp ha64
      obtain ⟨ns, hrun, hb, hal⟩ := @ih (some n') allocs hp' ha' (by simpa using hr') (by omega)
      refine ⟨ns, by simp only [hset, ok_bind, hrun], hbuilt ns hb, hal.trans ?_⟩
      simp only [mem_some_iff, forall_eq', hs]
      refine and_congr_right fun hd => ?_
      simp only [firstAfter_keep hs hd (hr.lt (o, w) (by simp)).1 hin]
    | none =>
      obtain ⟨hge, hin, hb32, hd64⟩ := netlblStart_spec ho hdo
      have hend := end_le_of_filter hf
      obtain ⟨n', hset, hs, hr', hbuilt⟩ := Built.start hcur hw hend hge hin hb32 hd64 hp ha64
      obtain ⟨ns, hrun, hb, hal⟩ := @ih (some n') (allocs - 1) hp' ha' (by simpa using hr') (by omega)
      refine ⟨cur.toList ++ ns, ?_, hbuilt ns hb, ?_⟩
      · simp only [if_neg (show allocs ≠ 0 by omega), hset, ok_bind, hrun]
        rfl
      · simp only [mem_append, or_imp, forall_and, mem_toList, hal]
        refine and_congr_right fun hd => ?_
        have hcur' : ∀ n ∈ cur, ebitmapSize ∣ n.startbit ∧ n.startbit + ebitmapSize ≤ o :=
          fun n hn => ⟨hd n hn, hend n hn⟩
        have hopen (hd' : ebitmapSize ∣ n'.startbit) (c : ℕ × BitVec 64) :=
          firstAfter_open (c := c) hw hcur' hd' (hs ▸ hge) (hs ▸ hin) hlt
        simp only [mem_some_iff, forall_eq', hs]
        constructor
        · rintro ⟨hd', hws⟩ c hc
          rcases (hopen (hs ▸ hd') c).mp hc with rfl | hc
          · exact hd'
          · exact hws c hc
        · intro h
          have hd' : ebitmapSize ∣ netlblStart o := h (o, w) (firstAfter_head hw hcur' hlt)
          exact ⟨hd', fun c hc => h c ((hopen (hs ▸ hd') c).mpr (.inr hc))⟩

/-- When an import sets the bits of its words as `ebitmap_set_bit` would. -/
theorem importsAlike_iff (catmap : Catmap) : ImportsAlike catmap ↔ catmap.MaskRounds := by
  have hspec (allocs : ℕ) (hl : catmap.words.length ≤ allocs) :=
    @importLoop_spec none _ _ catmap.increasing catmap.aligned (by simp) hl
  simp only [not_mem_none, false_imp_iff, implies_true, true_and] at hspec
  constructor
  · rintro ⟨e, hset, himp⟩
    obtain ⟨r, hr, -, hd, -⟩ := himp _ le_rfl
    obtain ⟨ns, hrun, -, hal⟩ := hspec _ le_rfl
    simp only [ebitmapNetlblImport, hrun, some.injEq, Prod.mk.injEq, and_true] at hr
    subst hr
    exact hal.mp hd
  · intro hmask
    obtain ⟨ns₀, -, hb₀, hal₀⟩ := hspec _ le_rfl
    obtain ⟨e, hset, he⟩ := setBits_represents Represents.init
      fun b hb => hb₀.lt_bitLimit (hal₀.mpr hmask) hb
    refine ⟨e, hset, fun allocs hl => ?_⟩
    obtain ⟨ns, hrun, hb, hal⟩ := hspec allocs hl
    have hd := hal.mpr hmask
    have hrep := hb.represents hd
    have hhigh : prevEnd ns.getLast? = stop 0 ns := by
      have hlt : stop 0 ns < 2 ^ 32 := hrep.highbit_lt
      rw [← Nat.mod_eq_of_lt hlt, stop_eq_getLast?]
      cases ns.getLast? <;> rfl
    refine ⟨⟨ns, stop 0 ns⟩, by simp only [ebitmapNetlblImport, hrun, hhigh], ?_, hd, ?_⟩
    · rw [hrep.cmp he, Finset.empty_union]
    · refine hb.increasing.imp_of_mem fun hm hn hlt => ?_
      have h₁ := hd _ hm
      have h₂ := hd _ hn
      simp only [ebitmapSize] at *
      omega

def category128 : Catmap := ⟨[(128, 1)], by simp, by simp⟩

theorem not_importsAlike_category128 :
    ¬ImportsAlike category128 ∧
      (ebitmapNetlblImport 1 category128).map (fun r => (r.1.node.map (·.startbit), r.1.highbit, r.2))
        = some ([128], 512, 0) ∧
      (setBits (wordBits category128.words) ebitmapInit).map
        (fun e => (e.node.map (·.startbit), e.highbit)) = some ([0], 384) := by
  refine ⟨?_, by decide +kernel, by decide +kernel⟩
  rintro ⟨e, -, himp⟩
  obtain ⟨r, hr, -, hd, -⟩ := himp 1 le_rfl
  have hnode : (ebitmapNetlblImport 1 category128).map (fun r => r.1.node.map (·.startbit)) =
      some [128] := by decide +kernel
  rw [hr] at hnode
  have hnode : r.node.map (·.startbit) = [128] := by simpa using hnode
  obtain ⟨n, hn, hs⟩ := mem_map.mp (hnode ▸ mem_singleton.mpr rfl)
  have := hd n hn
  rw [hs] at this
  revert this
  decide

end Cupcake.Selinux
