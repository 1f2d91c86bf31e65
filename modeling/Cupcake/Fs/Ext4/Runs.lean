import Cupcake.Fs.Ext4.Shrink
import Cupcake.Lib.Run

/-! Runs of the operations: without failed allocations the trees refine a map, and with failures and
a shrinker no delayed block is lost. -/

namespace Cupcake.Ext4

open Option ExtentStatus Segment Inode

variable {ι : Type*} [DecidableEq ι] {fit : Prop} {i : ι} {lblk len pblk status : ℕ}

namespace Fs

variable {fs : Fs ι}

theorem put_held (fs : Fs ι) (i : ι) : fs.put i (fs.held i) = fs := by
  show (⟨Function.update fs.inode i (fs.inode i), fs.sb⟩ : Fs ι) = fs
  rw [Function.update_eq_self]

theorem good_newes (hlen : len ≠ 0) (hstop : lblk + len < 2 ^ 32)
    (hfit : fit → hasPblock (status % 2 ^ esReferencedB) → pblk + len ≤ 2 ^ esShift) :
    (storePblockStatus lblk len pblk status).Good fit := by
  refine ⟨Nat.pos_of_ne_zero hlen, hstop, fun hf hh => ?_⟩
  rw [type_storePblockStatus] at hh
  have := hfit hf hh
  have hle : pblk % 2 ^ esShift ≤ pblk := Nat.mod_le _ _
  rw [pblock_storePblockStatus]
  show pblk % 2 ^ esShift + len ≤ _
  omega

theorem last_eq (hlen : len ≠ 0) (hstop : lblk + len < 2 ^ 32) :
    wsub 32 (wadd 32 lblk len) 1 = lblk + len - 1 := by
  rw [wadd_of_lt hstop, wsub_of_le (by omega) hstop]

omit [DecidableEq ι] in
theorem all_find?_iff {ino : Inode} (hs : ino.Sound fit) (hlen : len ≠ 0) :
    ((ino.nodes.find? fun n => lblk < n.es.lblk + n.es.len).all fun n =>
        lblk + len - 1 < n.es.lblk) = true ↔
      ∀ b, lblk ≤ b → b < lblk + len → lookup ino.segs b = none := by
  cases hf : ino.nodes.find? fun n => decide (lblk < n.es.lblk + n.es.len) with
  | none =>
    refine ⟨fun _ b hb _ => lookup_eq_none (forall_segsOf fun n hn hc => ?_), fun _ => rfl⟩
    have hc' : n.es.lblk ≤ b ∧ b < n.es.lblk + n.es.len := hc
    have := List.find?_eq_none.mp hf n hn
    rw [decide_eq_true_eq] at this
    omega
  | some n =>
    obtain ⟨hin, l₁, l₂, hl, h₁⟩ := List.find?_eq_some_iff_append.mp hf
    have hn : n ∈ ino.nodes := by simp [hl]
    have hpos := (hs.good hn).pos
    rw [decide_eq_true_eq] at hin
    rw [all_some, decide_eq_true_eq]
    constructor
    · intro hlt b hb hb'
      refine lookup_eq_none (forall_segsOf fun m hm hc => ?_)
      have hc' : m.es.lblk ≤ b ∧ b < m.es.lblk + m.es.len := hc
      have hwf := hs.wf
      rw [segs, hl, segsOf_append, segsOf_cons] at hwf
      rw [hl] at hm
      rcases List.mem_append.mp hm with hm | hm
      · have := h₁ m hm
        rw [Bool.not_eq_true', decide_eq_false_iff_not] at this
        omega
      · rcases List.mem_cons.mp hm with rfl | hm
        · omega
        · have hafter : n.es.lblk + n.es.len ≤ m.es.lblk :=
            (wf_cons.mp (wf_append.mp hwf).2.1).2.1 _ (mem_segsOf hm)
          omega
    · intro hempty
      by_contra hle
      have hsome := hs.wf.lookup_of_mem (mem_segsOf hn) (x := max lblk n.es.lblk)
        ⟨le_max_right _ _, show max lblk n.es.lblk < n.es.lblk + n.es.len by omega⟩
      rw [hempty _ (le_max_left _ _) (by omega)] at hsome
      cases hsome

theorem ext4EsCacheExtent_spec (rb : Tree.Balancer Node) (i : ι) (hfs : fs.Ok fit) (hlen : len ≠ 0)
    (hstop : lblk + len < 2 ^ 32)
    (hfit : fit → hasPblock (status % 2 ^ esReferencedB) → pblk + len ≤ 2 ^ esShift) (ok : Bool) :
    (∃ h', fs.ext4EsCacheExtent rb i lblk len pblk status ok = some (fs.put i h') ∧
        (∀ b, lblk ≤ b → b < lblk + len → lookup (fs.inode i).segs b = none) ∧
        Held.Inserted fit (storePblockStatus lblk len pblk status) (fs.held i) h') ∨
      fs.ext4EsCacheExtent rb i lblk len pblk status ok = some fs ∧ (ok = false ∨
        ¬∀ b, lblk ≤ b → b < lblk + len → lookup (fs.inode i).segs b = none) := by
  have hs := (hfs i).toSound
  have hg := good_newes hlen hstop hfit
  rw [ext4EsCacheExtent, if_neg hlen, last_eq hlen hstop, if_neg (by omega), esTreeSearch_spec hs,
    bind_some]
  by_cases hempty : ∀ b, lblk ≤ b → b < lblk + len → lookup (fs.inode i).segs b = none
  · rw [if_pos ((all_find?_iff hs hlen).mpr hempty)]
    rcases Held.esInsertExtent_spec rb i (h := fs.held i) hs hg (free_of_empty hs hg hempty) ok with
      ⟨h', heq, hins⟩ | ⟨hno, heq⟩
    · exact .inl ⟨h', by rw [heq]; rfl, hempty, hins⟩
    · refine .inr ⟨?_, .inl hno⟩
      rw [heq, map_some, put_held]
  · rw [if_neg (mt (all_find?_iff hs hlen).mp hempty)]
    exact .inr ⟨rfl, .inr hempty⟩

end Fs

namespace Held

variable {h : Held ι}

theorem nextDelayed_mem (last : ℕ) {l : List Node} {n m : Node}
    (hm : nextDelayed last l n = some m) : m = n ∨ m ∈ l := by
  induction l generalizing n with
  | nil => exact .inl (some.inj hm).symm
  | cons x l ih =>
    rw [nextDelayed] at hm
    split_ifs at hm with hlt hd
    · exact .inr (by simp [some.inj hm])
    · rcases ih hm with rfl | hmem
      · exact .inr (by simp)
      · exact .inr (by simp [hmem])

omit [DecidableEq ι] in
theorem findExtent_eq (hs : h.toInode.Ok fit) (lblk : ℕ) :
    h.findExtent lblk = some (h.nodes.find? fun n => lblk < n.es.lblk + n.es.len) := by
  obtain ⟨c, hc, hmem⟩ := cached_spec hs
  rw [findExtent, hc, bind_some, esTreeSearch_spec hs.toSound]
  cases hf : c.filter fun n : Node => n.es.inRange lblk with
  | none => rfl
  | some n =>
    obtain ⟨rfl, hin⟩ := filter_eq_some_iff.mp hf
    have hn := hmem n rfl
    rw [(hs.good hn).inRange, decide_eq_true_eq] at hin
    obtain ⟨l₁, l₂, hl⟩ := List.append_of_mem hn
    have hsorted := hs.wf.sorted
    rw [segs, hl, segsOf_append] at hsorted
    have hnot : ∀ m ∈ l₁, ¬decide (lblk < m.es.lblk + m.es.len) = true := fun m hm => by
      have hb : m.es.lblk + m.es.len ≤ n.es.lblk :=
        (List.pairwise_append.mp hsorted).2.2 _ (mem_segsOf hm) n.es.seg (by simp)
      rw [decide_eq_true_eq]
      omega
    dsimp only
    rw [hl, find?_append_of_not hnot, List.find?_cons, decide_eq_true hin.2]

omit [DecidableEq ι] in
theorem ext4EsFindDelayedExtentRange_spec (hs : h.toInode.Ok fit) {lblk last : ℕ}
    (hle : lblk ≤ last) :
    ∃ r, h.ext4EsFindDelayedExtentRange lblk last = some r ∧ r.2.toInode.Ok fit ∧
      r.2.segs = h.segs := by
  rw [ext4EsFindDelayedExtentRange, if_neg (by omega), findExtent_eq hs, bind_some]
  dsimp only
  generalize hd : (bind _ fun n : Node => if n.es.isDelayed then some n
    else nextDelayed last (h.root.nodesFrom n).tail n).filter (fun n : Node => n.es.isDelayed) = d
  cases d with
  | none => exact ⟨_, rfl, hs, rfl⟩
  | some n =>
    refine ⟨_, rfl, hs.toSound.setCache ?_, rfl⟩
    obtain ⟨hbind, -⟩ := filter_eq_some_iff.mp hd
    obtain ⟨m, hm, hn⟩ := bind_eq_some_iff.mp hbind
    have hm' := List.mem_of_find?_eq_some hm
    split_ifs at hn with hdel
    · rwa [← some.inj hn]
    · rcases nextDelayed_mem last hn with rfl | hmem'
      · exact hm'
      · obtain ⟨l₁, l₂, hl⟩ := List.append_of_mem hm'
        rw [Tree.nodesFrom_eq hl (hs.not_mem_left hl)] at hmem'
        show n ∈ h.nodes
        rw [hl]
        exact List.mem_append_right _ (List.mem_cons_of_mem _ hmem')

end Held

namespace Op

def InRange : Op ι → Prop
  | .insert _ lblk len _ _ _ _ => lblk + len < 2 ^ 32
  | .cache _ lblk len _ _ _ => lblk + len < 2 ^ 32
  | .remove _ lblk len _ => lblk + len < 2 ^ 32
  | .lookup _ _ => True
  | .findDelayed _ lblk last => lblk ≤ last
  | .scan _ _ => True

def Touches (i : ι) (b : ℕ) : Op ι → Prop
  | .insert j lblk len _ _ _ _ => j = i ∧ lblk ≤ b ∧ b < lblk + len
  | .cache j lblk len _ _ _ => j = i ∧ lblk ≤ b ∧ b < lblk + len
  | .remove j lblk len _ => j = i ∧ lblk ≤ b ∧ b < lblk + len
  | _ => False

def Writes (i : ι) (b : ℕ) : Op ι → Prop
  | .insert j lblk len _ _ _ _ => j = i ∧ lblk ≤ b ∧ b < lblk + len
  | .remove j lblk len _ => j = i ∧ lblk ≤ b ∧ b < lblk + len
  | _ => False

/-- The physical blocks of the range have numbers that fit next to the status. -/
def Fits : Op ι → Prop
  | .insert _ _ len pblk status _ _ =>
    hasPblock (status % 2 ^ esReferencedB) → pblk + len ≤ 2 ^ esShift
  | .cache _ _ len pblk status _ =>
    hasPblock (status % 2 ^ esReferencedB) → pblk + len ≤ 2 ^ esShift
  | _ => True

/-- No allocation fails and the shrinker does not run. -/
def Plain : Op ι → Prop
  | .insert _ _ _ _ _ ts₁ ts₂ => ts₁ = [] ∧ ts₂ = []
  | .cache _ _ _ _ _ ok => ok = true
  | .remove _ _ _ ts => ts = []
  | .lookup _ _ => True
  | .findDelayed _ _ _ => True
  | .scan _ _ => False

end Op

variable {fs : Fs ι}

/-! ## Any failures -/

theorem insert_step (rb : Tree.Balancer Node) (hfs : fs.Ok fit) (hlen : len ≠ 0)
    (hstop : lblk + len < 2 ^ 32)
    (hfit : fit → hasPblock (status % 2 ^ esReferencedB) → pblk + len ≤ 2 ^ esShift)
    (ts₁ ts₂ : List (Fs.Trial ι)) :
    ∃ r, fs.ext4EsInsertExtent rb i lblk len pblk status ts₁ ts₂ = some r ∧ r.2.Ok fit ∧
      Fs.DropsOutside i lblk (lblk + len - 1) fs r.2 := by
  obtain ⟨⟨ret, fs₁⟩, heq, hok, hout, hempty, -⟩ :=
    Fs.esRemoveExtent_spec rb i (show lblk ≤ lblk + len - 1 by omega) (by omega) ts₁ hfs
  rw [Fs.ext4EsInsertExtent, if_neg hlen, Fs.last_eq hlen hstop, if_neg (by omega), heq,
    bind_some]
  cases ret with
  | enomem => exact ⟨_, rfl, hok, hout⟩
  | ok =>
    obtain ⟨r, heq', hok', hout', -⟩ :=
      Fs.insertRetry_spec rb i (Fs.good_newes hlen hstop hfit) ts₂ hok fun b hb hb' =>
        hempty rfl b hb (by have : b < lblk + len := hb'; omega)
    exact ⟨r, heq', hok', hout.trans hout'⟩

theorem step_spec (rb : Tree.Balancer Node) (hfs : fs.Ok fit) {op : Op ι} (hr : op.InRange)
    (hfit : fit → op.Fits) :
    ∃ fs', step rb fs op = some fs' ∧ fs'.Ok fit ∧ ∀ i b,
      (¬op.Touches i b → DropsAt (lookup (fs.inode i).segs b) (lookup (fs'.inode i).segs b)) ∧
      (¬op.Writes i b → lookup (fs.inode i).segs b = none ∨
        DropsAt (lookup (fs.inode i).segs b) (lookup (fs'.inode i).segs b)) := by
  have hout : ∀ {fs' : Fs ι} {j : ι} {lblk len : ℕ}, len ≠ 0 →
      Fs.DropsOutside j lblk (lblk + len - 1) fs fs' → ∀ i b,
      ¬(j = i ∧ lblk ≤ b ∧ b < lblk + len) →
      DropsAt (lookup (fs.inode i).segs b) (lookup (fs'.inode i).segs b) := by
    intro fs' j lblk len hlen h i b hb
    refine h i b fun hc => hb ⟨hc.1.symm, hc.2.1, ?_⟩
    omega
  have hsame : ∀ i b, DropsAt (lookup (fs.inode i).segs b) (lookup (fs.inode i).segs b) :=
    fun i b => .refl _
  cases op with
  | insert j lblk len pblk status ts₁ ts₂ =>
    by_cases hlen : len = 0
    · subst hlen
      exact ⟨fs, rfl, hfs, fun i b => ⟨fun _ => hsame i b, fun _ => .inr (hsame i b)⟩⟩
    · obtain ⟨r, heq, hok, hd⟩ := insert_step (i := j) rb hfs hlen hr hfit ts₁ ts₂
      exact ⟨r.2, by rw [step, heq]; rfl, hok, fun i b =>
        ⟨fun hb => hout hlen hd i b hb, fun hb => .inr (hout hlen hd i b hb)⟩⟩
  | cache j lblk len pblk status ok =>
    by_cases hlen : len = 0
    · subst hlen
      exact ⟨fs, rfl, hfs, fun i b => ⟨fun _ => hsame i b, fun _ => .inr (hsame i b)⟩⟩
    · rcases Fs.ext4EsCacheExtent_spec rb j hfs hlen hr hfit ok with
        ⟨h', heq, hempty, hok, hins⟩ | ⟨heq, -⟩
      · have hd : Fs.DropsOutside j lblk (lblk + len - 1) fs (fs.put j h') := by
          refine Fs.dropsOutside_put fun b hb => (hins b).trans (if_neg fun hc => hb ?_)
          have hc' : lblk ≤ b ∧ b < lblk + len := hc
          omega
        refine ⟨_, heq, hfs.put hok, fun i b => ⟨fun hb => hout hlen hd i b hb, fun _ => ?_⟩⟩
        by_cases hb : j = i ∧ lblk ≤ b ∧ b < lblk + len
        · obtain ⟨rfl, hb, hb'⟩ := hb
          exact .inl (hempty b hb hb')
        · exact .inr (hout hlen hd i b hb)
      · exact ⟨fs, heq, hfs, fun i b => ⟨fun _ => hsame i b, fun _ => .inr (hsame i b)⟩⟩
  | remove j lblk len ts =>
    by_cases hlen : len = 0
    · subst hlen
      exact ⟨fs, rfl, hfs, fun i b => ⟨fun _ => hsame i b, fun _ => .inr (hsame i b)⟩⟩
    · have hr' : lblk + len < 2 ^ 32 := hr
      obtain ⟨r, heq, hok, hd, -, -⟩ :=
        Fs.esRemoveExtent_spec rb j (show lblk ≤ lblk + len - 1 by omega) (by omega) ts hfs
      refine ⟨r.2, ?_, hok, fun i b =>
        ⟨fun hb => hout hlen hd i b hb, fun hb => .inr (hout hlen hd i b hb)⟩⟩
      rw [step, Fs.ext4EsRemoveExtent, if_neg hlen, Fs.last_eq hlen hr', if_neg (by omega), heq]
      rfl
  | lookup j lblk =>
    refine ⟨fs, ?_, hfs, fun i b => ⟨fun _ => hsame i b, fun _ => .inr (hsame i b)⟩⟩
    rw [step, Held.ext4EsLookupExtent_spec (h := fs.held j) (hfs j) lblk]
    rfl
  | findDelayed j lblk last =>
    obtain ⟨r, heq, hok, hsegs⟩ :=
      Held.ext4EsFindDelayedExtentRange_spec (h := fs.held j) (hfs j) hr
    have hd : fs.Drops (fs.put j r.2) := Fs.drops_put (drops_of_segs hsegs)
    exact ⟨_, by rw [step, heq]; rfl, hfs.put hok, fun i b =>
      ⟨fun _ => hd i b, fun _ => .inr (hd i b)⟩⟩
  | scan nrToScan t =>
    by_cases hz : nrToScan = 0
    · exact ⟨fs, if_pos hz, hfs, fun i b => ⟨fun _ => hsame i b, fun _ => .inr (hsame i b)⟩⟩
    · obtain ⟨r, heq, hok, hd⟩ := Fs.esShrink_spec rb hfs nrToScan none t
      refine ⟨r.2, ?_, hok, fun i b => ⟨fun _ => hd i b, fun _ => .inr (hd i b)⟩⟩
      rw [step, Fs.ext4EsScan, if_neg hz, heq]
      rfl

/-- What an inode records of a block: the type, and the physical block if the type has one. -/
def Inode.recorded (ino : Inode) (b : ℕ) : Option (ℕ × Option ℕ) :=
  (ino.root.toList.find? fun n => n.es.lblk ≤ b ∧ b < n.es.lblk + n.es.len).map fun n =>
    (n.es.type, if hasPblock n.es.type then
      some ((n.es.pblock + (b - n.es.lblk)) % 2 ^ esShift) else none)

theorem lookup_segsOf (l : List Node) (b : ℕ) : lookup (segsOf l) b =
    (l.find? fun n => n.es.lblk ≤ b ∧ b < n.es.lblk + n.es.len).map fun n => n.es.attr := by
  induction l with
  | nil => rfl
  | cons n l ih =>
    rw [segsOf_cons, List.find?_cons]
    by_cases hb : n.es.lblk ≤ b ∧ b < n.es.lblk + n.es.len
    · rw [lookup_cons_of_mem hb, decide_eq_true hb]
      rfl
    · rw [lookup_cons_of_not_mem hb, decide_eq_false hb, ih]

def recordAt (b : ℕ) (a : ℕ × Option ℕ) : ℕ × Option ℕ :=
  (a.1, a.2.map fun s => (s + b) % 2 ^ esShift)

theorem recorded_eq {ino : Inode} (hs : ino.Sound fit) (b : ℕ) :
    ino.recorded b = (lookup ino.segs b).map (recordAt b) := by
  rw [segs, lookup_segsOf, map_map, recorded, ← nodes]
  refine map_congr fun n hn => ?_
  have hb := List.find?_some hn
  have hlt := (hs.good (List.mem_of_find?_eq_some hn)).stop
  rw [decide_eq_true_eq] at hb
  show _ = (n.es.type, _)
  congr 1
  by_cases hp : hasPblock n.es.type = true
  · simp only [ExtentStatus.attr, if_pos hp, map_some, two_pow_esShift, some.injEq]
    omega
  · simp only [ExtentStatus.attr, if_neg hp, map_none]

theorem run_spec (rb : Tree.Balancer Node) (hfs : fs.Ok fit) {ops : List (Op ι)}
    (hr : ∀ op ∈ ops, op.InRange) (hfit : fit → ∀ op ∈ ops, op.Fits) :
    ∃ fs', runList (step rb) fs ops = some fs' ∧ fs'.Ok fit ∧ ∀ i b,
      ((∀ op ∈ ops, ¬op.Touches i b) →
        DropsAt (lookup (fs.inode i).segs b) (lookup (fs'.inode i).segs b)) ∧
      ((∀ op ∈ ops, ¬op.Writes i b) → ∀ a, lookup (fs.inode i).segs b = some a →
        a.1.testBit esDelayedB = true → lookup (fs'.inode i).segs b = some a) := by
  induction ops generalizing fs with
  | nil => exact ⟨fs, rfl, hfs, fun i b => ⟨fun _ => .refl _, fun _ a ha _ => ha⟩⟩
  | cons op ops ih =>
    obtain ⟨fs₁, heq₁, hok₁, hstep⟩ := step_spec rb hfs (hr op (by simp)) fun hf => hfit hf op (by simp)
    obtain ⟨fs', heq, hok, hrun⟩ := ih hok₁ (fun o ho => hr o (by simp [ho]))
      fun hf o ho => hfit hf o (by simp [ho])
    refine ⟨fs', by rw [runList, heq₁, bind_some, heq], hok, fun i b => ⟨fun ht => ?_, ?_⟩⟩
    · exact ((hstep i b).1 (ht op (by simp))).trans ((hrun i b).1 fun o ho => ht o (by simp [ho]))
    · intro hw a ha hd
      refine (hrun i b).2 (fun o ho => hw o (by simp [ho])) a ?_ hd
      rcases (hstep i b).2 (hw op (by simp)) with hnone | hsame | ⟨-, hnot⟩
      · rw [hnone] at ha
        cases ha
      · rw [hsame, ha]
      · rw [hnot a ha] at hd
        cases hd

omit [DecidableEq ι] in
theorem init_ok : (Fs.init : Fs ι).Ok fit := fun _ =>
  ⟨⟨⟨List.nodup_nil, by simp [nodes, Fs.init], by simp [nodes, Fs.init], rfl, rfl⟩, wf_nil,
    by simp [nodes, Fs.init]⟩, fun a ha => by cases ha⟩

/-- A delayed block stays so until a call writes its range, and outside of their ranges calls only
drop blocks that are not delayed, with any failures. -/
theorem delayed_never_lost (rb : Tree.Balancer Node) {ops₁ ops₂ : List (Op ι)}
    (h₁ : ∀ op ∈ ops₁, op.InRange) (h₂ : ∀ op ∈ ops₂, op.InRange) :
    ∃ fs₁ fs₂, runList (step rb) Fs.init ops₁ = some fs₁ ∧
      runList (step rb) fs₁ ops₂ = some fs₂ ∧ ∀ i b,
        ((∀ op ∈ ops₂, ¬op.Writes i b) → ∀ v, (fs₁.inode i).recorded b = some v →
          v.1.testBit esDelayedB = true → (fs₂.inode i).recorded b = some v) ∧
        ((∀ op ∈ ops₂, ¬op.Touches i b) →
          (fs₂.inode i).recorded b = (fs₁.inode i).recorded b ∨
            (fs₂.inode i).recorded b = none ∧ ∀ v, (fs₁.inode i).recorded b = some v →
              v.1.testBit esDelayedB = false) := by
  have hok : (Fs.init : Fs ι).Ok False := init_ok
  obtain ⟨fs₁, heq₁, hok₁, -⟩ := run_spec rb hok h₁ False.elim
  obtain ⟨fs₂, heq₂, hok₂, hrun⟩ := run_spec rb hok₁ h₂ False.elim
  refine ⟨fs₁, fs₂, heq₁, heq₂, fun i b => ?_⟩
  rw [recorded_eq (hok₁ i).toSound, recorded_eq (hok₂ i).toSound]
  refine ⟨fun hw v hv hd => ?_, fun ht => ?_⟩
  · obtain ⟨a, ha, rfl⟩ := map_eq_some_iff.mp hv
    rw [(hrun i b).2 hw a ha hd]
    rfl
  · rcases (hrun i b).1 ht with hsame | ⟨hnone, hnot⟩
    · exact .inl (by rw [hsame])
    · refine .inr ⟨by rw [hnone]; rfl, fun v hv => ?_⟩
      obtain ⟨a, ha, rfl⟩ := map_eq_some_iff.mp hv
      exact hnot a ha

def delayedOps : List (Op Unit) := [.insert () 0 10 (2 ^ 64 - 1) 4 [] []]

def failingOps : List (Op Unit) :=
  [.insert () 12 4 100 1 [] [], .remove () 13 1 [⟨fun _ => false, fun _ _ => false⟩],
    .scan 5 ⟨fun _ => false, fun _ _ => false⟩]

theorem delayed_kept_failingOps : ∃ fs₁ fs₂, runList (step default) Fs.init delayedOps = some fs₁ ∧
    runList (step default) fs₁ failingOps = some fs₂ ∧
    (fs₁.inode ()).recorded 1 = some (4, none) ∧ (fs₂.inode ()).recorded 1 = some (4, none) := by
  have h₁ : ∀ op ∈ delayedOps, op.InRange := by simp [delayedOps, Op.InRange]
  have h₂ : ∀ op ∈ failingOps, op.InRange := by simp [failingOps, Op.InRange]
  have hw : ∀ op ∈ failingOps, ¬op.Writes () 1 := by simp [failingOps, Op.Writes]
  obtain ⟨fs₁, fs₂, heq₁, heq₂, h⟩ := delayed_never_lost default h₁ h₂
  have hrec : (runList (step default) Fs.init delayedOps).map (fun fs => (fs.inode ()).recorded 1) =
      some (some (4, none)) := by decide +kernel
  rw [heq₁] at hrec
  have hrec₁ : (fs₁.inode ()).recorded 1 = some (4, none) := some.inj hrec
  exact ⟨fs₁, fs₂, heq₁, heq₂, hrec₁, (h () 1).1 hw _ hrec₁ (by decide)⟩

/-! ## No failures -/

def specStep (m : ι → ℕ → Option (ℕ × ℕ)) : Op ι → ι → ℕ → Option (ℕ × ℕ)
  | .insert i lblk len pblk status _ _ => fun j b =>
    if j = i ∧ lblk ≤ b ∧ b < lblk + len then
      some (status % 2 ^ esReferencedB, pblk + (b - lblk)) else m j b
  | .cache i lblk len pblk status _ => fun j b =>
    if (∀ b < lblk + len, lblk ≤ b → m i b = none) ∧ j = i ∧ lblk ≤ b ∧ b < lblk + len then
      some (status % 2 ^ esReferencedB, pblk + (b - lblk)) else m j b
  | .remove i lblk len _ => fun j b => if j = i ∧ lblk ≤ b ∧ b < lblk + len then none else m j b
  | _ => m

def spec (ops : List (Op ι)) : ι → ℕ → Option (ℕ × ℕ) := ops.foldl specStep fun _ _ => none

def attrAt (b : ℕ) (v : ℕ × ℕ) : ℕ × Option ℕ :=
  (v.1, if hasPblock v.1 then some ((v.2 + 2 ^ esShift - b) % 2 ^ esShift) else none)

structure Refines (fit : Prop) (fs : Fs ι) (m : ι → ℕ → Option (ℕ × ℕ)) : Prop where
  ok : fs.Ok fit
  same : ∀ i b, lookup (fs.inode i).segs b = (m i b).map (attrAt b)
  bounded : ∀ i b v, m i b = some v → b < 2 ^ 32 ∧ (fit → hasPblock v.1 → v.2 < 2 ^ esShift)

theorem attr_newes {b : ℕ} (hb : lblk ≤ b) (hlt : b < 2 ^ 32) :
    (storePblockStatus lblk len pblk status).attr =
      attrAt b (status % 2 ^ esReferencedB, pblk + (b - lblk)) := by
  rw [ExtentStatus.attr, attrAt, type_storePblockStatus, pblock_storePblockStatus]
  congr 1
  show (if _ then some ((pblk % 2 ^ esShift + 2 ^ esShift - lblk) % 2 ^ esShift) else none) =
    if _ then some ((pblk + (b - lblk) + 2 ^ esShift - b) % 2 ^ esShift) else none
  simp only [two_pow_esShift]
  congr 2
  omega

theorem Refines.write {m m' : ι → ℕ → Option (ℕ × ℕ)} {fs' : Fs ι} (h : Refines fit fs m)
    (hok : fs'.Ok fit) (hstop : lblk + len < 2 ^ 32) {v : ℕ → Option (ℕ × ℕ)}
    (hm : ∀ j b, m' j b = if j = i ∧ lblk ≤ b ∧ b < lblk + len then v b else m j b)
    (hfs : ∀ j b, lookup (fs'.inode j).segs b = if j = i ∧ lblk ≤ b ∧ b < lblk + len then
      (v b).map (attrAt b) else lookup (fs.inode j).segs b)
    (hv : ∀ b w, lblk ≤ b → b < lblk + len → v b = some w → fit → hasPblock w.1 →
      w.2 < 2 ^ esShift) : Refines fit fs' m' := by
  refine ⟨hok, fun j b => ?_, fun j b w hw => ?_⟩
  · rw [hfs j b, hm j b]
    split_ifs
    · rfl
    · exact h.same j b
  · rw [hm j b] at hw
    split_ifs at hw with hb
    · exact ⟨by omega, hv b w hb.2.1 hb.2.2 hw⟩
    · exact h.bounded j b w hw

theorem lookup_put {h : Held ι} {o : ℕ → Option (ℕ × Option ℕ)}
    (hins : ∀ b, lookup h.segs b = if lblk ≤ b ∧ b < lblk + len then o b
      else lookup (fs.inode i).segs b) (j : ι) (b : ℕ) :
    lookup ((fs.put i h).inode j).segs b = if j = i ∧ lblk ≤ b ∧ b < lblk + len then o b
      else lookup (fs.inode j).segs b := by
  by_cases hj : j = i
  · subst hj
    rw [Fs.inode_put_self, hins b]
    simp only [true_and]
  · rw [Fs.inode_put_of_ne fs h hj, if_neg fun hc => hj hc.1]

section

variable (rb : Tree.Balancer Node) (hfs : fs.Ok fit) (hlen : len ≠ 0) (hstop : lblk + len < 2 ^ 32)

include rb hfs hlen hstop

theorem remove_plain :
    ∃ fs', fs.esRemoveExtent rb i lblk (lblk + len - 1) [] = some (.ok, fs') ∧ fs'.Ok fit ∧
      ∀ j b, lookup (fs'.inode j).segs b = if j = i ∧ lblk ≤ b ∧ b < lblk + len then none
        else lookup (fs.inode j).segs b := by
  rcases Held.esRemoveOnce_spec rb i (h := fs.held i) (hfs i)
    (show lblk ≤ lblk + len - 1 by omega) (by omega) true with ⟨h', heq, hok, hcarve⟩ | ⟨hno, -⟩
  · rw [show lblk + len - 1 + 1 = lblk + len by omega] at hcarve
    exact ⟨fs.put i h', by rw [Fs.esRemoveExtent, heq]; rfl, hfs.put hok, lookup_put hcarve⟩
  · cases hno

theorem insert_plain
    (hfit : fit → hasPblock (status % 2 ^ esReferencedB) → pblk + len ≤ 2 ^ esShift) :
    ∃ fs', fs.ext4EsInsertExtent rb i lblk len pblk status [] [] = some (.ok, fs') ∧ fs'.Ok fit ∧
      ∀ j b, lookup (fs'.inode j).segs b = if j = i ∧ lblk ≤ b ∧ b < lblk + len then
        some (storePblockStatus lblk len pblk status).attr else lookup (fs.inode j).segs b := by
  have hg := Fs.good_newes hlen hstop hfit
  obtain ⟨fs₁, heq₁, hok₁, hlook₁⟩ := remove_plain (i := i) rb hfs hlen hstop
  have hfree : Held.Free (storePblockStatus lblk len pblk status) (fs₁.inode i).nodes :=
    Fs.free_of_empty (hok₁ i).toSound hg fun b hb hb' => by
      rw [hlook₁ i b, if_pos ⟨rfl, hb, hb'⟩]
  rw [Fs.ext4EsInsertExtent, if_neg hlen, Fs.last_eq hlen hstop, if_neg (by omega), heq₁,
    bind_some]
  rcases Held.esInsertExtent_spec rb i (h := fs₁.held i) (hok₁ i).toSound hg hfree true with
    ⟨h', heq, hok, hins⟩ | ⟨hno, -⟩
  · refine ⟨fs₁.put i h', ?_, hok₁.put hok, fun j b => ?_⟩
    · dsimp only
      rw [Fs.insertRetry, heq]
      rfl
    · refine (lookup_put hins j b).trans ?_
      show (if j = i ∧ lblk ≤ b ∧ b < lblk + len then _ else _) = _
      split_ifs with hb
      · rfl
      · rw [hlook₁ j b, if_neg hb]
  · cases hno

end

section

variable {m : ι → ℕ → Option (ℕ × ℕ)} (rb : Tree.Balancer Node) (h : Refines fit fs m)

include rb h

theorem plain_step {op : Op ι} (hp : op.Plain) (hr : op.InRange) (hfit : fit → op.Fits) :
    ∃ fs', step rb fs op = some fs' ∧ Refines fit fs' (specStep m op) := by
  cases op with
  | insert i lblk len pblk status ts₁ ts₂ =>
    obtain ⟨rfl, rfl⟩ := hp
    by_cases hlen : len = 0
    · subst hlen
      refine ⟨fs, rfl, h.write h.ok hr (fun _ _ => rfl) (fun j b => ?_) fun b _ _ _ => ?_⟩
      · rw [if_neg (by omega)]
      · omega
    · obtain ⟨fs', heq, hok, hlook⟩ := insert_plain (i := i) rb h.ok hlen hr hfit
      have hr' : lblk + len < 2 ^ 32 := hr
      refine ⟨fs', by rw [step, heq]; rfl, h.write hok hr (fun _ _ => rfl) (fun j b => ?_) ?_⟩
      · rw [hlook j b]
        split_ifs with hb
        · rw [attr_newes hb.2.1 (show b < 2 ^ 32 by omega)]
          rfl
        · rfl
      · intro b w hb hb' hw hf hh
        obtain rfl := some.inj hw
        have := hfit hf hh
        show pblk + (b - lblk) < _
        omega
  | cache i lblk len pblk status ok =>
    obtain rfl : ok = true := hp
    have hr' : lblk + len < 2 ^ 32 := hr
    have hnone : ∀ b, lookup (fs.inode i).segs b = none ↔ m i b = none := fun b => by
      rw [h.same i b, map_eq_none_iff]
    by_cases hempty : ∀ b < lblk + len, lblk ≤ b → m i b = none
    · have hm : ∀ j b, specStep m (.cache i lblk len pblk status true) j b =
          if j = i ∧ lblk ≤ b ∧ b < lblk + len then
            some (status % 2 ^ esReferencedB, pblk + (b - lblk)) else m j b := fun j b => by
        rw [specStep]
        exact if_congr (and_iff_right hempty) rfl rfl
      by_cases hlen : len = 0
      · subst hlen
        refine ⟨fs, rfl, h.write h.ok hr hm (fun j b => ?_) fun b _ _ _ => ?_⟩
        · rw [if_neg (by omega)]
        · omega
      · rcases Fs.ext4EsCacheExtent_spec rb i h.ok hlen hr hfit true with
          ⟨h', heq, -, hok, hins⟩ | ⟨-, hno | hno⟩
        · refine ⟨fs.put i h', heq, h.write (h.ok.put hok) hr hm (fun j b => ?_) ?_⟩
          · refine (lookup_put hins j b).trans ?_
            show (if j = i ∧ lblk ≤ b ∧ b < lblk + len then _ else _) = _
            split_ifs with hb
            · rw [attr_newes hb.2.1 (show b < 2 ^ 32 by omega)]
              rfl
            · rfl
          · intro b w hb hb' hw hf hh
            obtain rfl := some.inj hw
            have := hfit hf hh
            show pblk + (b - lblk) < _
            omega
        · cases hno
        · exact absurd (fun b hb hb' => (hnone b).mpr (hempty b hb' hb)) hno
    · have hm : specStep m (.cache i lblk len pblk status true) = m := by
        funext j b
        rw [specStep]
        exact if_neg fun hc => hempty hc.1
      have hlen : len ≠ 0 := fun hz => hempty fun b hb hb' => by omega
      rw [hm]
      rcases Fs.ext4EsCacheExtent_spec rb i h.ok hlen hr hfit true with ⟨h', -, hall, -⟩ | ⟨heq, -⟩
      · exact absurd (fun b hb hb' => (hnone b).mp (hall b hb' hb)) hempty
      · exact ⟨fs, heq, h⟩
  | remove i lblk len ts =>
    obtain rfl : ts = [] := hp
    by_cases hlen : len = 0
    · subst hlen
      refine ⟨fs, rfl, h.write h.ok hr (fun _ _ => rfl) (fun j b => ?_) fun b _ _ _ => ?_⟩
      · rw [if_neg (by omega)]
      · omega
    · obtain ⟨fs', heq, hok, hlook⟩ := remove_plain (i := i) rb h.ok hlen hr
      have hr' : lblk + len < 2 ^ 32 := hr
      refine ⟨fs', ?_, h.write hok hr (fun _ _ => rfl) (fun j b => hlook j b)
        fun b w _ _ hw => by cases hw⟩
      rw [step, Fs.ext4EsRemoveExtent, if_neg hlen, Fs.last_eq hlen hr', if_neg (by omega), heq]
      rfl
  | lookup i lblk =>
    refine ⟨fs, ?_, h⟩
    rw [step, Held.ext4EsLookupExtent_spec (h := fs.held i) (h.ok i) lblk]
    rfl
  | findDelayed i lblk last =>
    obtain ⟨r, heq, hok, hsegs⟩ :=
      Held.ext4EsFindDelayedExtentRange_spec (h := fs.held i) (h.ok i) hr
    refine ⟨fs.put i r.2, by rw [step, heq]; rfl, h.ok.put hok, fun j b => ?_, h.bounded⟩
    refine Eq.trans ?_ (h.same j b)
    by_cases hj : j = i
    · subst hj
      rw [Fs.inode_put_self, hsegs]
      rfl
    · rw [Fs.inode_put_of_ne fs r.2 hj]
  | scan nrToScan t => exact hp.elim

theorem plain_run {ops : List (Op ι)} (hp : ∀ op ∈ ops, op.Plain) (hr : ∀ op ∈ ops, op.InRange)
    (hfit : fit → ∀ op ∈ ops, op.Fits) :
    ∃ fs', runList (step rb) fs ops = some fs' ∧ Refines fit fs' (ops.foldl specStep m) := by
  induction ops generalizing fs m with
  | nil => exact ⟨fs, rfl, h⟩
  | cons op ops ih =>
    obtain ⟨fs₁, heq₁, h₁⟩ :=
      plain_step rb h (hp op (by simp)) (hr op (by simp)) fun hf => hfit hf op (by simp)
    obtain ⟨fs', heq, h'⟩ := ih h₁ (fun o ho => hp o (by simp [ho])) (fun o ho => hr o (by simp [ho]))
      fun hf o ho => hfit hf o (by simp [ho])
    exact ⟨fs', by rw [runList, heq₁, bind_some, heq], h'⟩

end

/-- A lookup of `b` gives an extent with the block if the map has it, of the type in the map, and at
the physical block in the map if the type has one. -/
def Answers (fit : Prop) (b : ℕ) (o : Option (ℕ × ℕ)) (found : Option ExtentStatus) : Prop :=
  (found = none ↔ o = none) ∧ ∀ es v, found = some es → o = some v →
    (es.lblk ≤ b ∧ b < es.lblk + es.len) ∧ es.type = v.1 ∧ (hasPblock v.1 →
      (es.pblock + (b - es.lblk)) % 2 ^ esShift = v.2 % 2 ^ esShift ∧
        (fit → es.pblock + (b - es.lblk) = v.2))

omit [DecidableEq ι] in
theorem Refines.answers {m : ι → ℕ → Option (ℕ × ℕ)} (h : Refines fit fs m) (i : ι) (b : ℕ) :
    ∃ found, (fs.held i).ext4EsLookupExtent b = some found ∧ Answers fit b (m i b) found := by
  have hsame := h.same i b
  rw [segs, lookup_segsOf] at hsame
  refine ⟨_, Held.ext4EsLookupExtent_spec (h := fs.held i) (h.ok i) b, ?_, ?_⟩
  · rw [map_eq_none_iff, ← map_eq_none_iff (f := fun n : Node => n.es.attr)]
    refine Iff.trans (iff_of_eq (congrArg (· = none) hsame)) map_eq_none_iff
  · intro es v hes hv
    obtain ⟨n, hn, rfl⟩ := map_eq_some_iff.mp hes
    have hmem : n ∈ (fs.inode i).nodes := List.mem_of_find?_eq_some hn
    have hgood := (h.ok i).good hmem
    have hb := List.find?_some hn
    rw [decide_eq_true_eq] at hb
    have hn' : (fs.inode i).nodes.find? (fun n => decide (n.es.lblk ≤ b ∧ b < n.es.lblk + n.es.len)) =
      some n := hn
    rw [hn', hv] at hsame
    have hattr : n.es.attr = attrAt b v := some.inj hsame
    have htype : n.es.type = v.1 := congrArg Prod.fst hattr
    obtain ⟨hlt, hbound⟩ := h.bounded i b v hv
    refine ⟨hb, type_setReferenced.trans htype, fun hh => ?_⟩
    have hshift := congrArg Prod.snd hattr
    simp only [ExtentStatus.attr, attrAt, htype, if_pos hh, some.injEq] at hshift
    rw [pblock_setReferenced]
    show (n.es.pblock + (b - n.es.lblk)) % _ = _ ∧ (fit → n.es.pblock + (b - n.es.lblk) = _)
    have hmod : (n.es.pblock + (b - n.es.lblk)) % 2 ^ esShift = v.2 % 2 ^ esShift := by
      simp only [two_pow_esShift] at hshift ⊢
      omega
    refine ⟨hmod, fun hf => ?_⟩
    have hfits := hgood.fits hf (htype ▸ hh)
    have hv' := hbound hf hh
    rwa [Nat.mod_eq_of_lt (by omega), Nat.mod_eq_of_lt hv'] at hmod

omit [DecidableEq ι] in
theorem init_refines : Refines fit (Fs.init : Fs ι) fun _ _ => none :=
  ⟨init_ok, fun _ _ => rfl, fun _ _ _ hv => by cases hv⟩

/-- Without failed allocations the extents are non-empty, sorted and disjoint, they are counted, and
every lookup gives what the map says. -/
theorem ext4Es_refines_map (rb : Tree.Balancer Node) {ops : List (Op ι)}
    (hp : ∀ op ∈ ops, op.Plain) (hr : ∀ op ∈ ops, op.InRange) :
    ∃ fs, runList (step rb) Fs.init ops = some fs ∧ ∀ i,
      (∀ n ∈ (fs.inode i).nodes, 0 < n.es.len) ∧
      ((fs.inode i).nodes.Pairwise fun n n' => n.es.lblk + n.es.len ≤ n'.es.lblk) ∧
      (fs.inode i).allNr = (fs.inode i).nodes.length ∧
      (fs.inode i).shkNr = ((fs.inode i).nodes.countP fun n => !n.es.isDelayed) ∧
      ∀ b, ∃ found, (fs.held i).ext4EsLookupExtent b = some found ∧
        Answers (∀ op ∈ ops, op.Fits) b (spec ops i b) found := by
  obtain ⟨fs, heq, h⟩ := plain_run rb init_refines hp hr id
  refine ⟨fs, heq, fun i => ⟨fun n hn => ((h.ok i).good hn).pos, ?_, (h.ok i).all, (h.ok i).shk,
    fun b => h.answers i b⟩⟩
  exact List.pairwise_map.mp (h.ok i).wf.sorted

def carveOps : List (Op Unit) :=
  [.insert () 0 10 100 1 [] [], .remove () 3 2 [], .cache () 3 2 50 2 true]

theorem ext4Es_refines_carveOps : ∃ fs es, runList (step default) Fs.init carveOps = some fs ∧
    (fs.held ()).ext4EsLookupExtent 7 = some (some es) ∧ es.type = 1 ∧
    es.pblock + (7 - es.lblk) = 107 := by
  have hp : ∀ op ∈ carveOps, op.Plain := by simp [carveOps, Op.Plain]
  have hr : ∀ op ∈ carveOps, op.InRange := by simp [carveOps, Op.InRange]
  have hfit : ∀ op ∈ carveOps, op.Fits := by simp [carveOps, Op.Fits, two_pow_esShift]
  have hspec : spec carveOps () 7 = some (1, 107) := by decide +kernel
  obtain ⟨fs, heq, h⟩ := ext4Es_refines_map default hp hr
  obtain ⟨found, hfound, hnone, hsome⟩ := (h ()).2.2.2.2 7
  cases found with
  | none =>
    have := hnone.mp rfl
    rw [hspec] at this
    cases this
  | some es =>
    obtain ⟨-, htype, hpblock⟩ := hsome es _ rfl hspec
    exact ⟨fs, es, heq, hfound, htype, (hpblock (by decide)).2 hfit⟩

end Cupcake.Ext4
