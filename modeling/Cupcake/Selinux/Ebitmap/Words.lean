import Cupcake.Selinux.Ebitmap.Runs

/-! Bitmaps that are filled word by word, at increasing offsets. -/

namespace Cupcake.Selinux

open EbitmapNode List

inductive LoadError
  | einval
  | enomem
  /-- A store behind the end of `maps`. -/
  | overrun
  deriving DecidableEq, Repr

/-- `n->maps[EBITMAP_NODE_INDEX(n, bit)] = w` -/
def EbitmapNode.setMap (n : EbitmapNode) (bit : ℕ) (w : BitVec 64) : Except LoadError EbitmapNode :=
  if h : n.index bit < ebitmapUnitNums then
    .ok ⟨Function.update n.maps ⟨n.index bit, h⟩ w, n.startbit⟩
  else .error .overrun

def zeroNode (startbit : ℕ) : EbitmapNode := ⟨fun _ => 0, startbit⟩

def HasBit (c : ℕ × BitVec 64) (b : ℕ) : Prop := c.1 ≤ b ∧ c.2.getLsbD (b - c.1) = true

/-- The bits of a list of words. -/
def wordBits (ws : List (ℕ × BitVec 64)) : List ℕ :=
  ws.flatMap fun c => ((List.range 64).filter c.2.getLsbD).map (c.1 + ·)

variable {n : EbitmapNode} {ns : List EbitmapNode} {cur : Option EbitmapNode}
  {ws : List (ℕ × BitVec 64)} {o b : ℕ} {w : BitVec 64}

theorem mem_wordBits : b ∈ wordBits ws ↔ ∃ c ∈ ws, HasBit c b := by
  simp only [wordBits, mem_flatMap, mem_map, mem_filter, mem_range, HasBit]
  refine exists_congr fun c => and_congr_right fun _ => ?_
  constructor
  · rintro ⟨k, ⟨-, hk⟩, rfl⟩
    exact ⟨by omega, by simpa using hk⟩
  · rintro ⟨hle, hb⟩
    exact ⟨b - c.1, ⟨BitVec.lt_of_getLsbD hb, hb⟩, by omega⟩

theorem exists_hasBit (hw : w ≠ 0) : ∃ b, HasBit (o, w) b := by
  obtain ⟨hf, -⟩ := fls_spec hw
  exact ⟨o + fls w, by simp, by simpa using hf⟩

theorem end_le_of_filter (h : cur.filter (o < ·.startbit + ebitmapSize) = none) :
    ∀ n ∈ cur, n.startbit + ebitmapSize ≤ o := fun n hn => by
  simpa using Option.filter_eq_none_iff.mp h n hn

@[simp] theorem test_zeroNode (s k : ℕ) : (zeroNode s).test k = false := by simp [test, zeroNode]

theorem not_mem_zeroNode {s : ℕ} : ¬Mem [zeroNode s] b := by simp [Mem]

theorem setMap_spec (h : n.startbit ≤ o) (h' : o < n.startbit + ebitmapSize)
    (hs : n.startbit + ebitmapSize ≤ 2 ^ 32) (ha : 64 ∣ o - n.startbit)
    (hlt : ∀ b, Mem [n] b → b < o) (w : BitVec 64) :
    ∃ n', n.setMap o w = .ok n' ∧ n'.startbit = n.startbit ∧
      ∀ b, Mem [n'] b ↔ Mem [n] b ∨ HasBit (o, w) b := by
  obtain ⟨hi, -, hidx⟩ := index_offset h h' hs
  refine ⟨_, dif_pos hidx, rfl, fun b => ?_⟩
  simp only [mem_cons, not_mem_nil, or_false] at hlt ⊢
  rw [HasBit]
  by_cases hb : n.startbit ≤ b
  swap
  · have : ¬o ≤ b := by omega
    simp [hb, this]
  by_cases hk : b - n.startbit < ebitmapSize
  swap
  · have h₁ : ∀ m : EbitmapNode, ¬m.test (b - n.startbit) = true := fun m hm => hk (lt_of_test hm)
    have h₂ : ¬w.getLsbD (b - o) = true := fun hw => by
      have := BitVec.lt_of_getLsbD hw
      simp only [ebitmapSize] at *
      omega
    simp [h₁, h₂]
  simp only [hi] at hidx ⊢
  rw [test_update hidx hk]
  have hold := hlt b
  by_cases hw : (b - n.startbit) / 64 = (o - n.startbit) / 64
  · have hge : o ≤ b := by omega
    have hmod : (b - n.startbit) % 64 = b - o := by omega
    have hno : ¬n.test (b - n.startbit) = true := fun ht => absurd (hold ⟨hb, ht⟩) (by omega)
    simp [hw, hb, hge, hmod, hno]
  · have hno : ¬(o ≤ b ∧ w.getLsbD (b - o) = true) := by
      intro hg
      have := BitVec.lt_of_getLsbD hg.2
      omega
    simp [hw, hb, hno]

structure Built (cur : Option EbitmapNode) (ws : List (ℕ × BitVec 64)) (ns : List EbitmapNode) :
    Prop where
  ge : ∀ n ∈ cur, ∀ m ∈ ns, n.startbit ≤ m.startbit
  increasing : ns.Pairwise (·.startbit < ·.startbit)
  bounded : ∀ n ∈ ns, n.startbit + ebitmapSize ≤ 2 ^ 32
  nonempty : ∀ n ∈ ns, ∃ b, Mem [n] b
  mem : ∀ b, Mem ns b ↔ Mem cur.toList b ∨ ∃ c ∈ ws, HasBit c b

structure Ready (n : EbitmapNode) (ws : List (ℕ × BitVec 64)) : Prop where
  dvd : 64 ∣ n.startbit
  bounded : n.startbit + ebitmapSize ≤ 2 ^ 32
  nonempty : ∃ b, Mem [n] b
  lt : ∀ c ∈ ws, n.startbit ≤ c.1 ∧ ∀ b, Mem [n] b → b < c.1

theorem Ready.mono {ws' : List (ℕ × BitVec 64)} (h : Ready n ws) (hsub : ws' ⊆ ws) : Ready n ws' :=
  { h with lt := fun c hc => h.lt c (hsub hc) }

theorem Ready.next {n' : EbitmapNode} {s : ℕ} (hw : w ≠ 0) (hs : n'.startbit = s) (hd : 64 ∣ s)
    (hb : s + ebitmapSize ≤ 2 ^ 32) (hle : s ≤ o)
    (hm : ∀ b, Mem [n'] b → b < o ∨ HasBit (o, w) b) (hin : ∀ b, HasBit (o, w) b → Mem [n'] b)
    (hp : ((o, w) :: ws).Pairwise (·.1 < ·.1)) (ha : ∀ c ∈ (o, w) :: ws, 64 ∣ c.1) :
    Ready n' ws := by
  subst hs
  obtain ⟨b, hbit⟩ := exists_hasBit (o := o) hw
  refine ⟨hd, hb, ⟨b, hin b hbit⟩, fun c hc => ?_⟩
  have hlt : o < c.1 := (pairwise_cons.mp hp).1 c hc
  refine ⟨by omega, fun b hb => ?_⟩
  rcases hm b hb with h | ⟨hge, hg⟩
  · omega
  · have h₁ : 64 ∣ o := ha (o, w) (by simp)
    have h₂ := ha c (by simp [hc])
    have h₃ := BitVec.lt_of_getLsbD hg
    simp only at *
    omega

theorem mem_append_nodes {l₁ l₂ : List EbitmapNode} : Mem (l₁ ++ l₂) b ↔ Mem l₁ b ∨ Mem l₂ b := by
  simp only [Mem, mem_append, or_and_right, exists_or]

namespace Built

theorem nil (h : ∀ n ∈ cur, Ready n []) : Built cur [] cur.toList := by
  cases cur with
  | none => exact ⟨by simp, by simp, by simp, by simp, by simp⟩
  | some n =>
    have h := h n rfl
    exact ⟨by simp, by simp, by simpa using h.bounded, by simpa using h.nonempty, by simp⟩

theorem skip (h : Built cur ws ns) : Built cur ((o, 0) :: ws) ns :=
  { h with mem := fun b => by simp [h.mem, HasBit] }

theorem keep {n' : EbitmapNode} (h : Built (some n') ws ns) (hs : n'.startbit = n.startbit)
    (hm : ∀ b, Mem [n'] b ↔ Mem [n] b ∨ HasBit (o, w) b) : Built (some n) ((o, w) :: ws) ns := by
  refine { h with ge := ?_, mem := fun b => ?_ }
  · simpa [hs] using h.ge
  · rw [h.mem, Option.toList_some, hm]
    simp [or_assoc]

theorem opened {n' : EbitmapNode} (h : Built (some n') ws ns) (hc : ∀ n ∈ cur, Ready n [])
    (hs : ∀ n ∈ cur, n.startbit < n'.startbit) (hm : ∀ b, Mem [n'] b ↔ HasBit (o, w) b) :
    Built cur ((o, w) :: ws) (cur.toList ++ ns) := by
  have hmem : ∀ b, Mem (cur.toList ++ ns) b ↔ Mem cur.toList b ∨ ∃ c ∈ (o, w) :: ws, HasBit c b := by
    intro b
    rw [mem_append_nodes, h.mem, Option.toList_some, hm]
    simp
  cases cur with
  | none => exact ⟨by simp, h.increasing, h.bounded, h.nonempty, hmem⟩
  | some n =>
    have hlt : ∀ m ∈ ns, n.startbit < m.startbit := fun m hmm => (hs n rfl).trans_le (h.ge _ rfl m hmm)
    refine ⟨?_, ?_, ?_, ?_, hmem⟩
    · simpa using fun m hmm => (hlt m hmm).le
    · simpa using ⟨hlt, h.increasing⟩
    · simpa using ⟨(hc n rfl).bounded, h.bounded⟩
    · simpa using ⟨(hc n rfl).nonempty, h.nonempty⟩

theorem canonical (h : Built cur ws ns) (hd : ∀ n ∈ ns, ebitmapSize ∣ n.startbit) {lo : ℕ}
    (hlo : ∀ n ∈ ns, lo ≤ n.startbit) : Canonical lo ns := by
  have hcan : ∀ (ns : List EbitmapNode) (lo : ℕ), ns.Pairwise (·.startbit < ·.startbit) →
      (∀ n ∈ ns, n.startbit + ebitmapSize ≤ 2 ^ 32 ∧ (∃ b, Mem [n] b) ∧ ebitmapSize ∣ n.startbit ∧
        lo ≤ n.startbit) → Canonical lo ns := by
    intro ns
    induction ns with
    | nil => intros; trivial
    | cons n ns ih =>
      intro lo hp hn
      obtain ⟨hlt, hp⟩ := pairwise_cons.mp hp
      obtain ⟨hb, ⟨b, hm⟩, hdvd, hlo⟩ := hn n (by simp)
      simp only [mem_cons, not_mem_nil, or_false] at hm
      refine ⟨hlo, hdvd, ⟨_, hm.2⟩, ?_, ih _ hp fun m hm => ?_⟩
      · simp only [ebitmapSize] at *
        omega
      · obtain ⟨h₁, h₂, h₃, -⟩ := hn m (by simp [hm])
        refine ⟨h₁, h₂, h₃, ?_⟩
        have := hlt m hm
        simp only [ebitmapSize] at *
        omega
  exact hcan ns lo h.increasing fun n hn => ⟨h.bounded n hn, h.nonempty n hn, hd n hn, hlo n hn⟩

section

variable (h : Built none ws ns) (hd : ∀ n ∈ ns, ebitmapSize ∣ n.startbit)

include h hd

theorem represents : Represents ⟨ns, stop 0 ns⟩ (wordBits ws).toFinset where
  canonical := h.canonical hd fun _ _ => Nat.zero_le _
  highbit := rfl
  mem b := by
    rw [mem_toFinset, mem_wordBits, h.mem]
    simp [not_mem_nil]

theorem lt_bitLimit (hb : b ∈ wordBits ws) : b < bitLimit := by
  rw [mem_wordBits] at hb
  obtain ⟨n, hn, hle, ht⟩ := (h.mem b).mpr (.inr hb)
  have h₁ := lt_of_test ht
  have h₂ := hd n hn
  have h₃ := h.bounded n hn
  simp only [bitLimit, ebitmapSize] at *
  omega

end

end Built

theorem Ready.keep (h : Ready n ((o, w) :: ws)) (hw : w ≠ 0) (hin : o < n.startbit + ebitmapSize)
    (hp : ((o, w) :: ws).Pairwise (·.1 < ·.1)) (ha : ∀ c ∈ (o, w) :: ws, 64 ∣ c.1) :
    ∃ n', n.setMap o w = .ok n' ∧ n'.startbit = n.startbit ∧ Ready n' ws ∧
      ∀ ns, Built (some n') ws ns → Built (some n) ((o, w) :: ws) ns := by
  obtain ⟨hle, hold⟩ := h.lt (o, w) (by simp)
  have hdvd : 64 ∣ o - n.startbit := Nat.dvd_sub (ha (o, w) (by simp)) h.dvd
  obtain ⟨n', hset, hs, hm⟩ := setMap_spec hle hin h.bounded hdvd hold w
  exact ⟨n', hset, hs, .next hw hs h.dvd h.bounded hle
    (fun b hb => ((hm b).mp hb).imp_left (hold b)) (fun b hb => (hm b).mpr (.inr hb)) hp ha,
    fun ns hb => hb.keep hs hm⟩

theorem Built.start {s : ℕ} (hcur : ∀ n ∈ cur, Ready n ((o, w) :: ws)) (hw : w ≠ 0)
    (hend : ∀ n ∈ cur, n.startbit + ebitmapSize ≤ o) (hle : s ≤ o) (hin : o < s + ebitmapSize)
    (hs : s + ebitmapSize ≤ 2 ^ 32) (hd : 64 ∣ s)
    (hp : ((o, w) :: ws).Pairwise (·.1 < ·.1)) (ha : ∀ c ∈ (o, w) :: ws, 64 ∣ c.1) :
    ∃ n', (zeroNode s).setMap o w = .ok n' ∧ n'.startbit = s ∧ Ready n' ws ∧
      ∀ ns, Built (some n') ws ns → Built cur ((o, w) :: ws) (cur.toList ++ ns) := by
  have hdvd : 64 ∣ o - s := Nat.dvd_sub (ha (o, w) (by simp)) hd
  obtain ⟨n', hset, hs', hm⟩ := setMap_spec (n := zeroNode s) hle hin hs hdvd
    (fun b hb => absurd hb not_mem_zeroNode) w
  simp only [not_mem_zeroNode, false_or] at hm
  refine ⟨n', hset, hs', .next hw hs' hd hs hle (fun b hb => .inr ((hm b).mp hb))
    (fun b hb => (hm b).mpr hb) hp ha, fun ns hb => ?_⟩
  refine hb.opened (fun n hn => (hcur n hn).mono (by simp)) (fun n hn => ?_) hm
  have := hend n hn
  rw [hs']
  simp only [zeroNode, ebitmapSize] at *
  omega

/-! ## Bit by bit -/

def setBits (bits : List ℕ) (e : Ebitmap) : Option Ebitmap :=
  bits.foldlM (fun e bit => (ebitmapSetBit e bit true true).map (·.1)) e

theorem setBits_represents {bits : List ℕ} {e : Ebitmap} {s : Finset ℕ} (h : Represents e s)
    (hb : ∀ b ∈ bits, b < bitLimit) :
    ∃ e', setBits bits e = some e' ∧ Represents e' (s ∪ bits.toFinset) := by
  induction bits generalizing e s with
  | nil => exact ⟨e, rfl, by simpa using h⟩
  | cons b bits ih =>
    obtain ⟨e', ret, hset, hret, hrep⟩ :=
      ebitmapSetBit_represents h true fun (_ : true = true) => hb b (by simp)
    have h0 : ret = 0 := by simpa using hret
    simp only [h0, if_true] at hrep
    obtain ⟨e'', hrun, hrep⟩ := ih hrep fun b hb' => hb b (by simp [hb'])
    refine ⟨e'', by simpa [setBits, hset] using hrun, ?_⟩
    have hset : insert b s ∪ bits.toFinset = s ∪ (b :: bits).toFinset := by
      ext c
      simp only [toFinset_cons, Finset.mem_union, Finset.mem_insert]
      simp only [or_assoc, or_left_comm]
    rwa [hset] at hrep

end Cupcake.Selinux
