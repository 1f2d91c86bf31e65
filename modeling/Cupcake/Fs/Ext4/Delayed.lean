import Cupcake.Fs.Ext4.Runs

/-! What `ext4_es_find_delayed_extent_range` reports: the extent found first, wherever it starts. -/

namespace Cupcake.Ext4

open Option ExtentStatus Segment Inode List

variable {ι : Type*} {fit : Prop} {lblk last : ℕ}

def ExtentStatus.Meets (es : ExtentStatus) (lblk last : ℕ) : Prop :=
  ∃ b, (lblk ≤ b ∧ b ≤ last) ∧ es.lblk ≤ b ∧ b < es.lblk + es.len

/-- The report for `[lblk, last]` is the lowest delayed extent with a block there, and is of no
length if and only if no block there is delayed. -/
structure Lowest (ino : Inode) (lblk last : ℕ) (r : Option ExtentStatus) : Prop where
  lowest : ∀ es, r = some es → es ∈ ino.nodes.map Node.es ∧ es.isDelayed ∧ es.Meets lblk last ∧
    ∀ n ∈ ino.nodes, n.es.isDelayed → n.es.Meets lblk last → es.lblk ≤ n.es.lblk
  none_iff : r = none ↔ ∀ b, lblk ≤ b → b ≤ last → ∀ n ∈ ino.nodes, n.es.isDelayed →
    ¬(n.es.lblk ≤ b ∧ b < n.es.lblk + n.es.len)

def wanted (lblk last : ℕ) (n : Node) : Bool :=
  n.es.isDelayed && (lblk < n.es.lblk + n.es.len && n.es.lblk ≤ last)

theorem wanted_iff {n : Node} (hle : lblk ≤ last) (hpos : 0 < n.es.len) :
    wanted lblk last n = true ↔ n.es.isDelayed = true ∧ n.es.Meets lblk last := by
  unfold wanted ExtentStatus.Meets
  rw [Bool.and_eq_true, Bool.and_eq_true, decide_eq_true_eq, decide_eq_true_eq]
  refine and_congr_right fun _ => ⟨fun h => ⟨max lblk n.es.lblk, ?_⟩, fun ⟨b, hb⟩ => ?_⟩
  · omega
  · omega

theorem lowest_find? {ino : Inode} (hs : ino.Sound fit) (hle : lblk ≤ last) :
    Lowest ino lblk last ((ino.nodes.find? (wanted lblk last)).map Node.es) := by
  have hwanted : ∀ n ∈ ino.nodes, wanted lblk last n = true ↔
      n.es.isDelayed = true ∧ n.es.Meets lblk last := fun n hn => wanted_iff hle (hs.good hn).pos
  refine ⟨fun es hes => ?_, ?_⟩
  · obtain ⟨n, hn, rfl⟩ := map_eq_some_iff.mp hes
    obtain ⟨hw, l₁, l₂, hl, hnot⟩ := find?_eq_some_iff_append.mp hn
    have hmem : n ∈ ino.nodes := by simp [hl]
    obtain ⟨hd, hmeets⟩ := (hwanted n hmem).mp hw
    refine ⟨mem_map_of_mem hmem, hd, hmeets, fun m hm hdm hmm => ?_⟩
    have hw' := (hwanted m hm).mpr ⟨hdm, hmm⟩
    have hsorted := hs.wf.sorted
    rw [segs, hl, segsOf_append, segsOf_cons] at hsorted
    rw [hl] at hm
    rcases mem_append.mp hm with hm | hm
    · have := hnot m hm
      rw [hw'] at this
      cases this
    · rcases mem_cons.mp hm with rfl | hm
      · exact le_rfl
      · have hb : n.es.lblk + n.es.len ≤ m.es.lblk :=
          (pairwise_cons.mp (pairwise_append.mp hsorted).2.1).1 _ (mem_segsOf hm)
        omega
  · rw [map_eq_none_iff, find?_eq_none]
    constructor
    · intro h b hlo hhi n hn hd hb
      exact h n hn ((hwanted n hn).mpr ⟨hd, b, ⟨hlo, hhi⟩, hb⟩)
    · intro h n hn hw
      obtain ⟨hd, b, hr, hb⟩ := (hwanted n hn).mp hw
      exact h b hr.1 hr.2 n hn hd hb

namespace Held

variable {h : Held ι}

theorem nextDelayed_filter {l : List Node} {n : Node} (hs : (segsOf l).Pairwise Before)
    (hlater : ∀ m ∈ l, lblk < m.es.lblk + m.es.len) (hn : n.es.isDelayed = false) :
    ((nextDelayed last l n).filter fun n => n.es.isDelayed) = l.find? (wanted lblk last) := by
  induction l generalizing n with
  | nil => exact filter_some_neg (by simp [hn])
  | cons m l ih =>
    rw [segsOf_cons, pairwise_cons] at hs
    rw [nextDelayed]
    split_ifs with hlt hd
    · have hnot : ∀ x ∈ m :: l, ¬wanted lblk last x = true := fun x hx => by
        simp only [wanted, Bool.and_eq_true, decide_eq_true_eq]
        rcases mem_cons.mp hx with rfl | hx
        · omega
        · have hb : m.es.lblk + m.es.len ≤ x.es.lblk := hs.1 _ (mem_segsOf hx)
          omega
      exact (find?_eq_none.mpr hnot).symm
    · have hm := hlater m (by simp)
      rw [find?_cons, wanted, hd, decide_eq_true hm, decide_eq_true (not_lt.mp hlt)]
      exact filter_some_pos hd
    · rw [Bool.not_eq_true] at hd
      rw [find?_cons, wanted, hd, Bool.false_and, ih hs.2 (fun x hx => hlater x (by simp [hx])) hd]

/-- The report is right if and only if the first extent that is not over before `lblk` is not
a delayed one behind `last`. -/
theorem delayedReport_lowest_iff (hs : h.toInode.Ok fit) (hle : lblk ≤ last) :
    (∃ r, h.ext4EsFindDelayedExtentRange lblk last = some r ∧ Lowest h.toInode lblk last r.1) ↔
      ∀ n, (h.nodes.find? fun n => lblk < n.es.lblk + n.es.len) = some n → n.es.isDelayed →
        n.es.lblk ≤ last := by
  have hlow := lowest_find? hs.toSound hle
  rw [ext4EsFindDelayedExtentRange, if_neg (not_lt.mpr hle), findExtent_eq hs, bind_some]
  dsimp only
  cases hf : h.nodes.find? fun n => lblk < n.es.lblk + n.es.len with
  | none =>
    have hover : ∀ n ∈ h.nodes, ¬wanted lblk last n = true := fun n hn => by
      have := find?_eq_none.mp hf n hn
      simp only [wanted, Bool.and_eq_true, decide_eq_true_eq] at this ⊢
      omega
    rw [find?_eq_none.mpr hover] at hlow
    exact iff_of_true ⟨_, rfl, hlow⟩ fun n hn => by cases hn
  | some n =>
    obtain ⟨hfirst, l₁, l₂, hl, hnot⟩ := find?_eq_some_iff_append.mp hf
    rw [decide_eq_true_eq] at hfirst
    have hpass : ∀ m ∈ l₁, m.es.lblk + m.es.len ≤ lblk := fun m hm => by
      have := hnot m hm
      simp only [Bool.not_eq_true', decide_eq_false_iff_not] at this
      omega
    have hskip : ∀ m ∈ l₁, ¬wanted lblk last m = true := fun m hm => by
      have := hpass m hm
      simp only [wanted, Bool.and_eq_true, decide_eq_true_eq]
      omega
    rw [hl, find?_append_of_not hskip, find?_cons, wanted, decide_eq_true hfirst,
      Bool.true_and] at hlow
    have hsorted := hs.wf.sorted
    rw [segs, hl, segsOf_append, segsOf_cons] at hsorted
    obtain ⟨hbefore, hsorted⟩ := pairwise_cons.mp (pairwise_append.mp hsorted).2.1
    have hlater : ∀ m ∈ l₂, lblk < m.es.lblk + m.es.len := fun m hm => by
      have hb : n.es.lblk + n.es.len ≤ m.es.lblk := hbefore _ (mem_segsOf hm)
      omega
    rw [bind_some, Tree.nodesFrom_eq hl (hs.not_mem_left hl), tail_cons]
    cases hd : n.es.isDelayed with
    | true =>
      have hkept : ((some n).filter fun n => n.es.isDelayed) = some n := filter_some_pos hd
      rw [if_pos rfl, hkept]
      by_cases hstart : n.es.lblk ≤ last
      · rw [hd, decide_eq_true hstart] at hlow
        exact iff_of_true ⟨_, rfl, hlow⟩ fun m hm _ => some_inj.mp hm ▸ hstart
      · refine iff_of_false ?_ fun hc => hstart (hc n rfl hd)
        rintro ⟨r, hr, hlow'⟩
        obtain rfl := some_inj.mp hr
        obtain ⟨b, hb⟩ := (hlow'.lowest n.es rfl).2.2.1
        omega
    | false =>
      rw [if_neg Bool.false_ne_true, nextDelayed_filter hsorted hlater hd]
      rw [hd, Bool.false_and] at hlow
      dsimp only at hlow
      refine iff_of_true ?_ fun m hm hdm => ?_
      · cases hfound : l₂.find? (wanted lblk last) with
        | none =>
          rw [hfound] at hlow
          exact ⟨_, rfl, hlow⟩
        | some m =>
          rw [hfound] at hlow
          exact ⟨_, rfl, hlow⟩
      · rw [← some_inj.mp hm, hd] at hdm
        cases hdm

end Held

def laterOps : List (Op Unit) := [.insert () 10 10 (2 ^ 64 - 1) 4 [] []]

theorem laterOps_run : ∃ fs, runList (step default) Fs.init laterOps = some fs ∧
    (fs.inode ()).Ok False ∧
    ((fs.inode ()).nodes.find? fun n => 0 < n.es.lblk + n.es.len).map (fun n => n.es.lblk) = some 10 ∧
    ((fs.held ()).ext4EsFindDelayedExtentRange 0 5).map (fun r => r.1.map ExtentStatus.lblk) =
      some (some 10) := by
  have hok : (Fs.init : Fs Unit).Ok False := init_ok
  have hr : ∀ op ∈ laterOps, op.InRange := by simp [laterOps, Op.InRange]
  obtain ⟨fs, heq, hok, -⟩ := run_spec default hok hr False.elim
  have hrun : (runList (step default) Fs.init laterOps).map (fun fs => (
      ((fs.inode ()).nodes.find? fun n => 0 < n.es.lblk + n.es.len).map (fun n => n.es.lblk),
      ((fs.held ()).ext4EsFindDelayedExtentRange 0 5).map (fun r => r.1.map ExtentStatus.lblk))) =
      some (some 10, some (some 10)) := by decide +kernel
  rw [heq, map_some, some_inj, Prod.mk.injEq] at hrun
  exact ⟨fs, heq, hok (), hrun⟩

theorem delayedReport_lowest_laterOps : ∃ fs, runList (step default) Fs.init laterOps = some fs ∧
    ∃ r, (fs.held ()).ext4EsFindDelayedExtentRange 0 15 = some r ∧
      Lowest (fs.inode ()) 0 15 r.1 := by
  obtain ⟨fs, heq, hok, hfirst, -⟩ := laterOps_run
  refine ⟨fs, heq, (Held.delayedReport_lowest_iff (h := fs.held ()) hok (by decide)).mpr ?_⟩
  intro n hn _
  have hstart : (some n).map (fun n => n.es.lblk) = some 10 := hn ▸ hfirst
  rw [map_some, some_inj] at hstart
  omega

theorem delayedReport_behind_last : ∃ fs, runList (step default) Fs.init laterOps = some fs ∧
    ∃ r, (fs.held ()).ext4EsFindDelayedExtentRange 0 5 = some r ∧
      r.1.map ExtentStatus.lblk = some 10 ∧ ¬Lowest (fs.inode ()) 0 5 r.1 := by
  obtain ⟨fs, heq, -, -, hreport⟩ := laterOps_run
  obtain ⟨r, hr, hes⟩ := map_eq_some_iff.mp hreport
  obtain ⟨es, hes', hstart⟩ := map_eq_some_iff.mp hes
  refine ⟨fs, heq, r, hr, hes, fun hlow => ?_⟩
  obtain ⟨b, hb⟩ := (hlow.lowest es hes').2.2.1
  omega

end Cupcake.Ext4
