import Cupcake.Fs.Ext4.Carve

/-! The shrinker, and the operations that call it when an allocation fails: outside of its own
range an operation only drops blocks, and no delayed ones. -/

namespace Cupcake.Ext4

open Option ExtentStatus Segment Inode

variable {ι : Type*} [DecidableEq ι] {fit : Prop} {lblk last : ℕ}

def DropsAt (o o' : Option (ℕ × Option ℕ)) : Prop :=
  o' = o ∨ o' = none ∧ ∀ a, o = some a → a.1.testBit esDelayedB = false

theorem DropsAt.refl (o : Option (ℕ × Option ℕ)) : DropsAt o o := .inl rfl

theorem DropsAt.trans {o₁ o₂ o₃ : Option (ℕ × Option ℕ)} (h : DropsAt o₁ o₂) (h' : DropsAt o₂ o₃) :
    DropsAt o₁ o₃ := by
  rcases h with rfl | ⟨rfl, hd⟩
  · exact h'
  · rcases h' with rfl | ⟨rfl, -⟩ <;> exact .inr ⟨rfl, hd⟩

def Inode.Drops (ino ino' : Inode) : Prop := ∀ b, DropsAt (lookup ino.segs b) (lookup ino'.segs b)

theorem Inode.Drops.trans {ino₁ ino₂ ino₃ : Inode} (h : ino₁.Drops ino₂) (h' : ino₂.Drops ino₃) :
    ino₁.Drops ino₃ := fun b => (h b).trans (h' b)

theorem Inode.drops_of_segs {ino ino' : Inode} (h : ino'.segs = ino.segs) : ino.Drops ino' :=
  fun b => .inl (by rw [h])

theorem Inode.Sound.drops_of_erase {ino ino' : Inode} {n : Node} {l₁ l₂ : List Node}
    (hs : ino.Sound fit) (hl : ino.nodes = l₁ ++ n :: l₂) (hl' : ino'.nodes = l₁ ++ l₂)
    (hd : n.es.isDelayed = false) : ino.Drops ino' := by
  intro b
  have hwf := hs.wf
  rw [segs, hl, segsOf_append, segsOf_cons] at hwf
  rw [segs, segs, hl, hl', segsOf_append, segsOf_append, segsOf_cons, lookup_erase_mid hwf]
  split_ifs with hb
  · refine .inr ⟨rfl, fun a ha => ?_⟩
    rw [lookup_insert hwf, if_pos hb] at ha
    obtain rfl := Option.some.inj ha
    exact hd
  · exact .refl _

namespace Held

variable {h : Held ι} {n : Node} {l₁ l₂ : List Node}

omit [DecidableEq ι] in
theorem sound_setShrinkLblk (hs : h.toInode.Sound fit) (b : ℕ) :
    (h.setShrinkLblk b).toInode.Sound fit :=
  ⟨⟨hs.nodup, hs.fresh, hs.few, hs.all, hs.shk⟩, hs.wf, hs.fits⟩

theorem seg_clearReferenced (es : ExtentStatus) : es.clearReferenced.seg = es.seg := by
  have hattr : es.clearReferenced.attr = es.attr :=
    attr_eq_of_same type_clearReferenced rfl fun _ => pblock_clearReferenced
  rw [seg, seg, hattr]
  rfl

theorem reclaimLoop_spec (rb : Tree.Balancer Node) (i : ι) (last : ℕ) (hs : h.toInode.Sound fit)
    (hl : h.nodes = l₁ ++ l₂) (nrToScan : ℤ) (nrShrunk : ℕ) :
    ∃ r, h.reclaimLoop rb i last l₂ nrToScan nrShrunk = some r ∧ r.2.1.toInode.Sound fit ∧
      h.toInode.Drops r.2.1.toInode := by
  induction l₂ generalizing h l₁ nrToScan nrShrunk with
  | nil => exact ⟨_, rfl, sound_setShrinkLblk hs 0, drops_of_segs rfl⟩
  | cons n l₂ ih =>
    have hgood := hs.good (show n ∈ h.nodes by simp [hl])
    have hstep : h.nodes = l₁ ++ [n] ++ l₂ := hl.trans (List.append_cons ..)
    rw [reclaimLoop]
    by_cases hscan : nrToScan ≤ 0
    · exact ⟨_, if_pos hscan, sound_setShrinkLblk hs _, drops_of_segs rfl⟩
    rw [if_neg hscan]
    by_cases hlast : last < n.es.lblk
    · exact ⟨_, if_pos hlast, sound_setShrinkLblk hs _, drops_of_segs rfl⟩
    rw [if_neg hlast]
    by_cases hd : n.es.isDelayed = true
    · rw [if_pos hd]
      exact ih hs hstep _ _
    rw [if_neg hd]
    by_cases hr : n.es.isReferenced = true
    · rw [if_pos hr]
      have hseg := seg_clearReferenced n.es
      have hwf := hs.wf
      rw [segs, hl, segsOf_append, segsOf_cons, ← hseg] at hwf
      have hsound : (h.setNode { n with es := n.es.clearReferenced }).toInode.Sound fit := by
        refine hs.setNode hl rfl (isDelayed_congr type_clearReferenced) hwf fun hf hh => ?_
        rw [pblock_clearReferenced]
        exact hgood.fits hf ((@type_clearReferenced n.es) ▸ hh)
      have hnodes : (h.setNode { n with es := n.es.clearReferenced }).nodes = _ :=
        hs.nodes_setNode hl rfl
      obtain ⟨r, heq, hs', hdrop⟩ := ih hsound (hnodes.trans (List.append_cons ..)) _ _
      refine ⟨r, heq, hs', (drops_of_segs ?_).trans hdrop⟩
      rw [segs, hnodes, segs, hl, segsOf_append, segsOf_append, segsOf_cons, segsOf_cons, hseg]
    · rw [if_neg hr]
      obtain ⟨h₁, heq₁, hn₁, hs₁, -, -⟩ := eraseExtent_sound rb i hs hl
      obtain ⟨r, heq, hs', hdrop⟩ := ih hs₁ hn₁ (nrToScan - 1) (nrShrunk + 1)
      refine ⟨r, ?_, hs', (hs.drops_of_erase hl hn₁ (by simpa using hd)).trans hdrop⟩
      rw [heq₁, bind_some, heq]

theorem esDoReclaimExtents_spec (rb : Tree.Balancer Node) (i : ι) (last : ℕ)
    (hs : h.toInode.Sound fit) (nrToScan : ℤ) (nrShrunk : ℕ) :
    ∃ r, h.esDoReclaimExtents rb i last nrToScan nrShrunk = some r ∧ r.2.1.toInode.Sound fit ∧
      h.toInode.Drops r.2.1.toInode := by
  rw [esDoReclaimExtents, esTreeSearch_spec hs, bind_some]
  cases hf : h.nodes.find? fun n => decide (h.shrinkLblk < n.es.lblk + n.es.len) with
  | none => exact ⟨_, rfl, sound_setShrinkLblk hs 0, drops_of_segs rfl⟩
  | some n =>
    obtain ⟨l₁, l₂, hl⟩ := List.append_of_mem (List.mem_of_find?_eq_some hf)
    dsimp only
    rw [show h.root.nodesFrom n = n :: l₂ from Tree.nodesFrom_eq hl (hs.not_mem_left hl)]
    exact reclaimLoop_spec rb i last hs hl nrToScan nrShrunk

omit [DecidableEq ι] in
theorem ok_setCache (hs : h.toInode.Sound fit) : (h.setCache none).toInode.Ok fit :=
  ⟨⟨⟨hs.nodup, hs.fresh, hs.few, hs.all, hs.shk⟩, hs.wf, hs.fits⟩, fun a ha => by cases ha⟩

theorem esReclaimExtents_spec (rb : Tree.Balancer Node) (i : ι) (hs : h.toInode.Ok fit)
    (nrToScan : ℤ) :
    ∃ r, h.esReclaimExtents rb i nrToScan = some r ∧ r.2.1.toInode.Ok fit ∧
      h.toInode.Drops r.2.1.toInode := by
  rw [esReclaimExtents]
  by_cases hz : h.shkNr = 0
  · exact ⟨_, if_pos hz, hs, drops_of_segs rfl⟩
  rw [if_neg hz]
  obtain ⟨r, heq, hs₁, hd₁⟩ := esDoReclaimExtents_spec rb i extMaxBlocks hs.toSound nrToScan 0
  rw [heq, bind_some]
  by_cases hwrap : (!r.1 && decide (h.shrinkLblk ≠ 0)) = true
  · obtain ⟨r', heq', hs₂, hd₂⟩ :=
      esDoReclaimExtents_spec rb i (h.shrinkLblk - 1) hs₁ r.2.2.1 r.2.2.2
    exact ⟨_, by rw [if_pos hwrap, heq']; rfl, ok_setCache hs₂, hd₁.trans hd₂⟩
  · exact ⟨_, if_neg hwrap, ok_setCache hs₁, hd₁⟩

end Held

namespace Fs

variable {fs fs' : Fs ι} {i : ι}

def Ok (fit : Prop) (fs : Fs ι) : Prop := ∀ i, (fs.inode i).Ok fit

def Drops (fs fs' : Fs ι) : Prop := ∀ i, (fs.inode i).Drops (fs'.inode i)

omit [DecidableEq ι] in
theorem Drops.refl (fs : Fs ι) : fs.Drops fs := fun _ _ => .refl _

omit [DecidableEq ι] in
theorem Drops.trans {fs₁ fs₂ fs₃ : Fs ι} (h : fs₁.Drops fs₂) (h' : fs₂.Drops fs₃) :
    fs₁.Drops fs₃ := fun i => (h i).trans (h' i)

@[simp] theorem inode_put_self (fs : Fs ι) (i : ι) (h : Held ι) :
    (fs.put i h).inode i = h.toInode := Function.update_self ..

theorem inode_put_of_ne (fs : Fs ι) {i j : ι} (h : Held ι) (hj : j ≠ i) :
    (fs.put i h).inode j = fs.inode j := Function.update_of_ne hj ..

theorem Ok.put (hfs : fs.Ok fit) {h : Held ι} (hh : h.toInode.Ok fit) : (fs.put i h).Ok fit := by
  intro j
  by_cases hj : j = i
  · rw [hj, inode_put_self]
    exact hh
  · rw [inode_put_of_ne fs h hj]
    exact hfs j

theorem drops_put {h : Held ι} (hd : (fs.inode i).Drops h.toInode) : fs.Drops (fs.put i h) := by
  intro j
  by_cases hj : j = i
  · rw [hj, inode_put_self]
    exact hd
  · rw [inode_put_of_ne fs h hj]
    exact fun _ => .refl _

theorem walk_spec (rb : Tree.Balancer Node) (lockedEi : Option ι) (t : Trial ι) (retried : Bool)
    (n : ℕ) {w : Walk ι} (hw : w.fs.Ok fit) :
    ∃ w', walk rb lockedEi t retried n w = some w' ∧ w'.fs.Ok fit ∧ w.fs.Drops w'.fs := by
  induction n generalizing w with
  | zero => exact ⟨w, rfl, hw, .refl _⟩
  | succ n ih =>
    rw [walk]
    cases hl : w.fs.sb.esList with
    | nil => exact ⟨_, rfl, hw, .refl _⟩
    | cons ei rest =>
      dsimp only
      generalize hfs : (⟨w.fs.inode, ⟨rest ++ [ei], w.fs.sb.esNrInode⟩⟩ : Fs ι) = fs₁
      have hok₁ : fs₁.Ok fit := hfs ▸ hw
      have hd₁ : w.fs.Drops fs₁ := hfs ▸ Drops.refl w.fs
      split_ifs with hskip
      · obtain ⟨w', heq, hok, hd⟩ :=
          ih (w := { w with fs := fs₁, nrSkipped := w.nrSkipped + 1 }) hok₁
        exact ⟨w', heq, hok, hd₁.trans hd⟩
      · obtain ⟨r, heq, hok, hd⟩ :=
          Held.esReclaimExtents_spec rb ei (h := fs₁.held ei) (hok₁ ei) w.nrToScan
        have hput := hok₁.put (i := ei) hok
        have hd₂ := hd₁.trans (drops_put (i := ei) hd)
        rw [heq, bind_some]
        by_cases hout : r.2.2 ≤ 0
        · exact ⟨_, if_pos hout, hput, hd₂⟩
        · rw [if_neg hout]
          obtain ⟨w', heq', hok', hd'⟩ := ih (w := { w with
            fs := fs₁.put ei r.2.1, nrToScan := r.2.2, nrShrunk := w.nrShrunk + r.1 }) hput
          exact ⟨w', heq', hok', hd₂.trans hd'⟩

theorem shrinkLocked_spec (rb : Tree.Balancer Node) (lockedEi : Option ι) {w : Walk ι}
    (hw : w.fs.Ok fit) :
    ∃ r, shrinkLocked rb lockedEi w = some r ∧ r.2.Ok fit ∧ w.fs.Drops r.2 := by
  cases lockedEi with
  | none => exact ⟨_, rfl, hw, .refl _⟩
  | some i =>
    rw [shrinkLocked]
    by_cases hz : w.nrShrunk = 0
    · obtain ⟨r, heq, hok, hd⟩ :=
        Held.esReclaimExtents_spec rb i (h := w.fs.held i) (hw i) w.nrToScan
      exact ⟨(r.1, w.fs.put i r.2.1), by simp only [if_pos hz, heq, map_some], hw.put hok,
        drops_put hd⟩
    · exact ⟨_, if_neg hz, hw, .refl _⟩

theorem esShrink_spec (rb : Tree.Balancer Node) (hfs : fs.Ok fit) (nrToScan : ℤ)
    (lockedEi : Option ι) (t : Trial ι) :
    ∃ r, fs.esShrink rb nrToScan lockedEi t = some r ∧ r.2.Ok fit ∧ fs.Drops r.2 := by
  obtain ⟨w, heq, hok, hd⟩ := walk_spec rb lockedEi t false fs.sb.esNrInode.toNat
    (w := ⟨false, fs, nrToScan, 0, 0⟩) hfs
  rw [esShrink, heq, bind_some]
  by_cases hout : w.out = true
  · exact ⟨_, if_pos hout, hok, hd⟩
  rw [if_neg hout]
  by_cases hagain : w.nrShrunk = 0 ∧ w.nrSkipped ≠ 0
  · obtain ⟨w', heq', hok', hd'⟩ := walk_spec rb lockedEi t true w.fs.sb.esNrInode.toNat hok
    rw [if_pos hagain, heq', bind_some]
    by_cases hout' : w'.out = true
    · exact ⟨_, if_pos hout', hok', hd.trans hd'⟩
    · rw [if_neg hout']
      obtain ⟨r, heq'', hok'', hd''⟩ := shrinkLocked_spec rb lockedEi hok'
      exact ⟨r, heq'', hok'', (hd.trans hd').trans hd''⟩
  · rw [if_neg hagain]
    obtain ⟨r, heq', hok', hd'⟩ := shrinkLocked_spec rb lockedEi hok
    exact ⟨r, heq', hok', hd.trans hd'⟩

/-! ## Operations with failing allocations -/

def DropsOutside (i : ι) (lblk last : ℕ) (fs fs' : Fs ι) : Prop :=
  ∀ j b, ¬(j = i ∧ lblk ≤ b ∧ b < last + 1) →
    DropsAt (lookup (fs.inode j).segs b) (lookup (fs'.inode j).segs b)

omit [DecidableEq ι] in
theorem Drops.outside (h : fs.Drops fs') (i : ι) (lblk last : ℕ) :
    DropsOutside i lblk last fs fs' := fun j b _ => h j b

omit [DecidableEq ι] in
theorem DropsOutside.trans {fs₁ fs₂ fs₃ : Fs ι} (h : DropsOutside i lblk last fs₁ fs₂)
    (h' : DropsOutside i lblk last fs₂ fs₃) : DropsOutside i lblk last fs₁ fs₃ :=
  fun j b hb => (h j b hb).trans (h' j b hb)

theorem dropsOutside_put {h : Held ι}
    (heq : ∀ b, ¬(lblk ≤ b ∧ b < last + 1) → lookup h.segs b = lookup (fs.inode i).segs b) :
    DropsOutside i lblk last fs (fs.put i h) := by
  intro j b hb
  by_cases hj : j = i
  · subst hj
    rw [inode_put_self, heq b fun hr => hb ⟨rfl, hr⟩]
    exact .refl _
  · rw [inode_put_of_ne fs h hj]
    exact .refl _

theorem esRemoveExtent_spec (rb : Tree.Balancer Node) (i : ι) (hle : lblk ≤ last)
    (hlast : last + 1 < 2 ^ 32) (ts : List (Trial ι)) (hfs : fs.Ok fit) :
    ∃ r, fs.esRemoveExtent rb i lblk last ts = some r ∧ r.2.Ok fit ∧
      DropsOutside i lblk last fs r.2 ∧
      (r.1 = .ok → ∀ b, lblk ≤ b → b < last + 1 → lookup (r.2.inode i).segs b = none) ∧
      (r.1 = .enomem → fs.Drops r.2) := by
  induction ts generalizing fs with
  | nil =>
    rcases Held.esRemoveOnce_spec rb i (h := fs.held i) (hfs i) hle hlast true with
      ⟨h', heq, hok, hcarve⟩ | ⟨hno, -⟩
    · refine ⟨(.ok, fs.put i h'), by rw [esRemoveExtent, heq]; rfl, hfs.put hok,
        dropsOutside_put fun b hb => ?_, fun _ b hb hb' => ?_, fun hr => by cases hr⟩
      · rw [hcarve b, if_neg hb]
        rfl
      · rw [inode_put_self, hcarve b, if_pos ⟨hb, hb'⟩]
    · cases hno
  | cons t ts ih =>
    rcases Held.esRemoveOnce_spec rb i (h := fs.held i) (hfs i) hle hlast false with
      ⟨h', heq, hok, hcarve⟩ | ⟨-, h', heq, hok, hnodes⟩
    · refine ⟨(.ok, fs.put i h'), by rw [esRemoveExtent, heq]; rfl, hfs.put hok,
        dropsOutside_put fun b hb => ?_, fun _ b hb hb' => ?_, fun hr => by cases hr⟩
      · rw [hcarve b, if_neg hb]
        rfl
      · rw [inode_put_self, hcarve b, if_pos ⟨hb, hb'⟩]
    · have hput : fs.Drops (fs.put i h') :=
        drops_put (drops_of_segs (by rw [segs, segs, hnodes]; rfl))
      obtain ⟨s, hshrink, hok', hd⟩ := esShrink_spec rb (hfs.put (i := i) hok) 128 (some i) t
      have hd' := hput.trans hd
      rw [esRemoveExtent, heq, bind_some]
      dsimp only
      rw [hshrink, bind_some]
      by_cases hz : s.1 ≠ 0
      · obtain ⟨r, heq', hok'', hout, hempty, hno⟩ := ih hok'
        exact ⟨r, by rw [if_pos hz, heq'], hok'', (hd'.outside i lblk last).trans hout, hempty,
          fun hr => hd'.trans (hno hr)⟩
      · exact ⟨(.enomem, s.2), if_neg hz, hok', hd'.outside i lblk last,
          (fun hr => by cases hr), fun _ => hd'⟩

theorem free_of_empty {ino : Inode} {newes : ExtentStatus} (hs : ino.Sound fit)
    (hg : newes.Good fit)
    (hempty : ∀ b, newes.lblk ≤ b → b < newes.lblk + newes.len → lookup ino.segs b = none) :
    Held.Free newes ino.nodes := by
  intro n hn
  by_contra hov
  have hpos := hg.pos
  have hpos' := (hs.good hn).pos
  have hsome := hs.wf.lookup_of_mem (mem_segsOf hn) (x := max n.es.lblk newes.lblk)
    ⟨le_max_left _ _, show max n.es.lblk newes.lblk < n.es.lblk + n.es.len by omega⟩
  rw [hempty _ (by omega) (by omega)] at hsome
  cases hsome

theorem insertRetry_spec (rb : Tree.Balancer Node) (i : ι) {newes : ExtentStatus}
    (hg : newes.Good fit) (ts : List (Trial ι)) (hfs : fs.Ok fit)
    (hempty : ∀ b, newes.lblk ≤ b → b < newes.lblk + newes.len →
      lookup (fs.inode i).segs b = none) :
    ∃ r, fs.insertRetry rb i newes ts = some r ∧ r.2.Ok fit ∧
      DropsOutside i newes.lblk (newes.lblk + newes.len - 1) fs r.2 ∧
      ∀ b, newes.lblk ≤ b → b < newes.lblk + newes.len →
        lookup (r.2.inode i).segs b = some newes.attr ∨ lookup (r.2.inode i).segs b = none := by
  have hpos := hg.pos
  have hdone : ∀ {fs : Fs ι} {h' : Held ι}, fs.Ok fit → Held.Inserted fit newes (fs.held i) h' →
      (fs.put i h').Ok fit ∧ DropsOutside i newes.lblk (newes.lblk + newes.len - 1) fs (fs.put i h') ∧
      ∀ b, newes.lblk ≤ b → b < newes.lblk + newes.len →
        lookup ((fs.put i h').inode i).segs b = some newes.attr ∨
          lookup ((fs.put i h').inode i).segs b = none := by
    rintro fs h' hfs ⟨hok, hins⟩
    refine ⟨hfs.put hok, dropsOutside_put fun b hb => ?_, fun b hb hb' => .inl ?_⟩
    · rw [hins b, if_neg (by omega)]
      rfl
    · rw [inode_put_self, hins b, if_pos ⟨hb, hb'⟩]
  induction ts generalizing fs with
  | nil =>
    have hfree := free_of_empty (hfs i).toSound hg hempty
    rcases Held.esInsertExtent_spec rb i (h := fs.held i) (hfs i).toSound hg hfree true with
      ⟨h', heq, hins⟩ | ⟨hno, -⟩
    · exact ⟨(.ok, fs.put i h'), by rw [insertRetry, heq]; rfl, hdone hfs hins⟩
    · cases hno
  | cons t ts ih =>
    have hfree := free_of_empty (hfs i).toSound hg hempty
    rcases Held.esInsertExtent_spec rb i (h := fs.held i) (hfs i).toSound hg hfree false with
      ⟨h', heq, hins⟩ | ⟨-, heq⟩
    · exact ⟨(.ok, fs.put i h'), by rw [insertRetry, heq]; rfl, hdone hfs hins⟩
    · have hput : fs.Drops (fs.put i (fs.held i)) := drops_put (drops_of_segs rfl)
      obtain ⟨s, hshrink, hok', hd⟩ :=
        esShrink_spec rb (hfs.put (i := i) (h := fs.held i) (hfs i)) 128 (some i) t
      have hd' := hput.trans hd
      have hempty' : ∀ b, newes.lblk ≤ b → b < newes.lblk + newes.len →
          lookup (s.2.inode i).segs b = none := fun b hb hb' =>
        (hd' i b).elim (fun h => h.trans (hempty b hb hb')) And.left
      rw [insertRetry, heq, bind_some]
      dsimp only
      rw [hshrink, bind_some]
      by_cases hz : s.1 ≠ 0
      · obtain ⟨r, heq', hok'', hout, hnew⟩ := ih hok' hempty'
        exact ⟨r, by rw [if_pos hz, heq'], hok'', (hd'.outside _ _ _).trans hout, hnew⟩
      · exact ⟨_, if_neg hz, hok', hd'.outside _ _ _, fun b hb hb' => .inr (hempty' b hb hb')⟩

end Fs

end Cupcake.Ext4
