import Cupcake.Fs.Ext4.Edit

/-! What the searches in the tree find, and what carving a range out of the tree does to the map
that it stands for. -/

namespace Cupcake.Ext4

open Option ExtentStatus Segment Inode

variable {ι : Type*} [DecidableEq ι] {fit : Prop} {lblk last : ℕ}

/-! ## Searches -/

theorem find?_eq_head? {l : List Node} {p : Node → Bool} (h : ∀ n ∈ l, p n = true) :
    l.find? p = l.head? := by
  cases l with
  | nil => rfl
  | cons n l => rw [List.find?_cons_of_pos (h n (by simp)), List.head?_cons]

theorem find?_append_of_not {l₁ l₂ : List Node} {p : Node → Bool} (h : ∀ n ∈ l₁, ¬p n = true) :
    (l₁ ++ l₂).find? p = l₂.find? p := by
  rw [List.find?_append, List.find?_eq_none.mpr h, none_or]

section Search

variable {root : Tree Node} (hg : ∀ n ∈ root.toList, n.es.Good fit) (hnd : root.toList.Nodup)
  (hs : (segsOf root.toList).Pairwise Segment.Before)

include hg hnd hs

theorem esTreeSearchFrom_spec {t : Tree Node} {es : Option Node} {l₁ l₂ : List Node}
    (hl : root.toList = l₁ ++ (t.toList ++ l₂))
    (h₁ : ∀ n ∈ l₁, n.es.lblk + n.es.len ≤ lblk) (h₂ : ∀ n ∈ l₂, lblk < n.es.lblk)
    (hnone : es = none → l₁ = [] ∧ l₂ = [])
    (hsome : ∀ n, es = some n → l₁.getLast? = some n ∨ l₂.head? = some n) :
    esTreeSearchFrom root lblk t es =
      some ((t.toList ++ l₂).find? fun n => lblk < n.es.lblk + n.es.len) := by
  have hhead : ∀ n ∈ l₂, decide (lblk < n.es.lblk + n.es.len) = true := fun n hn => by
    have := h₂ n hn
    exact decide_eq_true (by omega)
  induction t generalizing es l₁ l₂ with
  | leaf =>
    rw [Tree.toList_leaf, List.nil_append] at hl ⊢
    rw [find?_eq_head? hhead]
    cases es with
    | none => rw [(hnone rfl).2]; rfl
    | some n =>
      rw [esTreeSearchFrom]
      rcases hsome n rfl with hn | hn
      · obtain ⟨l, rfl⟩ := List.getLast?_eq_some_iff.mp hn
        have hle := h₁ n (by simp)
        have hgood := hg n (by rw [hl]; simp)
        have hpos := hgood.pos
        have hl' : root.toList = l ++ n :: l₂ := hl.trans (List.append_cons ..).symm
        have hnot : n ∉ l := by
          rw [hl'] at hnd
          exact fun hm => (List.nodup_append.mp hnd).2.2 n hm n (by simp) rfl
        rw [if_neg (by omega), hgood.esEnd, bind_some, if_pos (by omega),
          Tree.next_eq hl' hnot]
      · have hmem : n ∈ l₂ := List.mem_of_head? hn
        rw [if_pos (h₂ n hmem), hn]
  | node c l n r ihl ihr =>
    rw [Tree.toList_node] at hl ⊢
    have hgood := hg n (by rw [hl]; simp)
    have hpos := hgood.pos
    have hs' := hs
    rw [hl, List.append_assoc, List.cons_append, segsOf_append, segsOf_append, segsOf_cons] at hs'
    obtain ⟨-, hs', -⟩ := List.pairwise_append.mp hs'
    obtain ⟨-, hs', hln⟩ := List.pairwise_append.mp hs'
    have hleft : ∀ m ∈ l.toList, m.es.lblk + m.es.len ≤ n.es.lblk := fun m hm =>
      hln _ (mem_segsOf hm) n.es.seg (by simp)
    have hright : ∀ m ∈ r.toList ++ l₂, n.es.lblk + n.es.len ≤ m.es.lblk := fun m hm =>
      (List.pairwise_cons.mp hs').1 m.es.seg (mem_segsOf hm)
    rw [esTreeSearchFrom, List.append_assoc, List.cons_append]
    by_cases hlt : lblk < n.es.lblk
    · rw [if_pos hlt]
      have hl' : root.toList = l₁ ++ (l.toList ++ n :: (r.toList ++ l₂)) := by simpa using hl
      refine ihl hl' h₁ (fun m hm => ?_) (fun he => by cases he) (fun m hm => .inr hm) fun m hm => ?_
      · rcases List.mem_cons.mp hm with rfl | hm
        · exact hlt
        · have := hright m hm
          omega
      · rcases List.mem_cons.mp hm with rfl | hm
        · exact decide_eq_true (by omega)
        · have := hright m hm
          exact decide_eq_true (by omega)
    · have hpass : ∀ m ∈ l.toList, ¬decide (lblk < m.es.lblk + m.es.len) = true := fun m hm => by
        have := hleft m hm
        rw [decide_eq_true_eq]
        omega
      rw [if_neg hlt, hgood.esEnd, bind_some, find?_append_of_not hpass]
      by_cases hend : n.es.lblk + n.es.len - 1 < lblk
      · rw [if_pos hend, List.find?_cons_of_neg (by simp only [decide_eq_true_eq]; omega)]
        have hl' : root.toList = l₁ ++ l.toList ++ [n] ++ (r.toList ++ l₂) := by simpa using hl
        refine ihr hl' (fun m hm => ?_) h₂ (fun he => by cases he) (fun m hm => .inl ?_) hhead
        · rcases List.mem_append.mp hm with hm | hm
          · rcases List.mem_append.mp hm with hm | hm
            · exact h₁ m hm
            · have := hleft m hm
              omega
          · rw [List.mem_singleton.mp hm]
            omega
        · rw [List.getLast?_concat, ← hm]
      · rw [if_neg hend, List.find?_cons_of_pos (by simp only [decide_eq_true_eq]; omega)]

end Search

theorem Stored.nodup_nodes {ino : Inode} (h : ino.Stored) : ino.nodes.Nodup :=
  List.Nodup.of_map _ h.nodup

theorem esTreeSearch_spec {ino : Inode} (h : ino.Sound fit) (lblk : ℕ) :
    esTreeSearch ino.root lblk = some (ino.nodes.find? fun n => lblk < n.es.lblk + n.es.len) := by
  have hsearch : esTreeSearchFrom ino.root lblk ino.root none =
      some ((ino.root.toList ++ []).find? fun n => lblk < n.es.lblk + n.es.len) :=
    esTreeSearchFrom_spec (fun n hn => h.good hn) (Stored.nodup_nodes h.toStored) h.wf.sorted
      ((List.append_nil _).symm : _ = [] ++ (ino.root.toList ++ [])) (by simp) (by simp)
      (fun _ => ⟨rfl, rfl⟩) (fun n hn => by cases hn)
  rwa [List.append_nil] at hsearch

theorem lookupFrom_spec {t : Tree Node} (hg : ∀ n ∈ t.toList, n.es.Good fit)
    (hs : (segsOf t.toList).Pairwise Segment.Before) (lblk : ℕ) :
    Held.lookupFrom lblk t =
      some (t.toList.find? fun n => n.es.lblk ≤ lblk ∧ lblk < n.es.lblk + n.es.len) := by
  induction t with
  | leaf => rfl
  | node c l n r ihl ihr =>
    have hgood := hg n (by simp)
    have hpos := hgood.pos
    rw [Tree.toList_node, segsOf_append, segsOf_cons] at hs
    obtain ⟨hsl, hs', hln⟩ := List.pairwise_append.mp hs
    obtain ⟨hnr, hsr⟩ := List.pairwise_cons.mp hs'
    rw [Held.lookupFrom, Tree.toList_node]
    by_cases hlt : lblk < n.es.lblk
    · have hpass : ∀ m ∈ n :: r.toList,
          ¬decide (m.es.lblk ≤ lblk ∧ lblk < m.es.lblk + m.es.len) = true := fun m hm => by
        rw [decide_eq_true_eq]
        rcases List.mem_cons.mp hm with rfl | hm
        · omega
        · have hb : n.es.lblk + n.es.len ≤ m.es.lblk := hnr _ (mem_segsOf hm)
          omega
      rw [if_pos hlt, ihl (fun m hm => hg m (by simp [hm])) hsl, List.find?_append,
        List.find?_eq_none.mpr hpass, or_none]
    · have hpass : ∀ m ∈ l.toList,
          ¬decide (m.es.lblk ≤ lblk ∧ lblk < m.es.lblk + m.es.len) = true := fun m hm => by
        have hb : m.es.lblk + m.es.len ≤ n.es.lblk := hln _ (mem_segsOf hm) n.es.seg (by simp)
        rw [decide_eq_true_eq]
        omega
      rw [if_neg hlt, hgood.esEnd, bind_some, find?_append_of_not hpass]
      by_cases hend : n.es.lblk + n.es.len - 1 < lblk
      · rw [if_pos hend, ihr (fun m hm => hg m (by simp [hm])) hsr,
          List.find?_cons_of_neg (by simp only [decide_eq_true_eq]; omega)]
      · rw [if_neg hend, List.find?_cons_of_pos (by simp only [decide_eq_true_eq]; omega)]

theorem Sound.eq_of_covers {ino : Inode} {n m : Node} {b : ℕ} (h : ino.Sound fit)
    (hn : n ∈ ino.nodes) (hm : m ∈ ino.nodes) (hnb : n.es.lblk ≤ b ∧ b < n.es.lblk + n.es.len)
    (hmb : m.es.lblk ≤ b ∧ b < m.es.lblk + m.es.len) : m = n := by
  obtain ⟨l₁, l₂, hl⟩ := List.append_of_mem hn
  have hs := h.wf.sorted
  rw [segs, hl, segsOf_append, segsOf_cons] at hs
  obtain ⟨-, hs, h₁⟩ := List.pairwise_append.mp hs
  rw [hl] at hm
  rcases List.mem_append.mp hm with hm | hm
  · have hle : m.es.lblk + m.es.len ≤ n.es.lblk := h₁ _ (mem_segsOf hm) n.es.seg (by simp)
    omega
  · rcases List.mem_cons.mp hm with rfl | hm
    · rfl
    · have hle : n.es.lblk + n.es.len ≤ m.es.lblk :=
        (List.pairwise_cons.mp hs).1 _ (mem_segsOf hm)
      omega

namespace Held

variable {h : Held ι} {n m : Node} {l₁ l₂ : List Node}

omit [DecidableEq ι] in
theorem cached_spec (hs : h.toInode.Ok fit) :
    ∃ c, h.cached = some c ∧ ∀ n, c = some n → n ∈ h.nodes := by
  rw [cached]
  cases hc : h.cacheEs with
  | none => exact ⟨none, rfl, fun n hn => by cases hn⟩
  | some a =>
    obtain ⟨n, hn, ha⟩ := hs.cache a hc
    have hfound : (h.deref a).isSome :=
      List.find?_isSome.mpr ⟨n, hn, decide_eq_true ha⟩
    obtain ⟨m, hm⟩ := isSome_iff_exists.mp hfound
    refine ⟨some m, congrArg (Option.map some) hm, fun x hx => ?_⟩
    obtain rfl := Option.some.inj hx
    exact List.mem_of_find?_eq_some hm

omit [DecidableEq ι] in
theorem ext4EsLookupExtent_spec (hs : h.toInode.Ok fit) (lblk : ℕ) :
    h.ext4EsLookupExtent lblk = some ((h.nodes.find? fun n =>
      n.es.lblk ≤ lblk ∧ lblk < n.es.lblk + n.es.len).map fun n => n.es.setReferenced) := by
  obtain ⟨c, hc, hmem⟩ := cached_spec hs
  rw [ext4EsLookupExtent, hc, bind_some]
  cases hf : c.filter fun n : Node => n.es.inRange lblk with
  | none =>
    dsimp only
    rw [lookupFrom_spec (fun n hn => hs.good hn) hs.wf.sorted]
    rfl
  | some n =>
    dsimp only
    obtain ⟨rfl, hin⟩ := filter_eq_some_iff.mp hf
    have hn := hmem n rfl
    rw [(hs.good hn).inRange, decide_eq_true_eq] at hin
    have hfound : (h.nodes.find? fun n =>
        n.es.lblk ≤ lblk ∧ lblk < n.es.lblk + n.es.len).isSome :=
      List.find?_isSome.mpr ⟨n, hn, decide_eq_true hin⟩
    obtain ⟨m, hm⟩ := isSome_iff_exists.mp hfound
    have hmb := List.find?_some hm
    rw [decide_eq_true_eq] at hmb
    rw [hm, Sound.eq_of_covers hs.toSound hn (List.mem_of_find?_eq_some hm) hin hmb]
    rfl

/-! ## Carving -/

def Carved (fit : Prop) (lblk last : ℕ) (h h' : Held ι) : Prop :=
  h'.toInode.Ok fit ∧ ∀ b, lookup h'.segs b =
    if lblk ≤ b ∧ b < last + 1 then none else lookup h.segs b

theorem eraseExtent_sound (rb : Tree.Balancer Node) (i : ι) (hs : h.toInode.Sound fit)
    (hn : h.nodes = l₁ ++ n :: l₂) :
    ∃ h', h.eraseExtent rb i n = some h' ∧ h'.nodes = l₁ ++ l₂ ∧ h'.toInode.Sound fit ∧
      h'.cacheEs = h.cacheEs ∧ h'.shrinkLblk = h.shrinkLblk := by
  obtain ⟨h', heq, hnodes, hst, hc, hb⟩ := eraseExtent_spec rb i hs.toStored hn
  have hsub : h'.nodes.Sublist h.nodes := by
    rw [hnodes, hn]
    exact (List.sublist_cons_self n l₂).append_left l₁
  exact ⟨h', heq, hnodes, ⟨hst, hs.wf.sublist (hsub.map _), fun x hx => hs.fits x (hsub.subset hx)⟩,
    hc, hb⟩

theorem eraseUpTo_spec (rb : Tree.Balancer Node) (i : ι) (last : ℕ) (hs : h.toInode.Sound fit)
    (hn : h.nodes = l₁ ++ l₂) :
    ∃ d r h', h.eraseUpTo rb i last l₂ = some (r.head?, h') ∧ l₂ = d ++ r ∧
      (∀ n ∈ d, n.es.lblk + n.es.len ≤ last + 1) ∧
      (∀ n, r.head? = some n → last + 1 < n.es.lblk + n.es.len) ∧ h'.nodes = l₁ ++ r ∧
      h'.toInode.Sound fit ∧ h'.cacheEs = h.cacheEs := by
  induction l₂ generalizing h with
  | nil => exact ⟨[], [], h, rfl, rfl, by simp, by simp, hn, hs, rfl⟩
  | cons n l₂ ih =>
    have hgood := hs.good (show n ∈ h.nodes by simp [hn])
    have hpos := hgood.pos
    rw [eraseUpTo, hgood.esEnd, bind_some]
    by_cases hle : n.es.lblk + n.es.len - 1 ≤ last
    · obtain ⟨h₁, heq₁, hn₁, hs₁, hc₁, -⟩ := eraseExtent_sound rb i hs hn
      obtain ⟨d, r, h', heq, rfl, hd, hr, hnodes, hs', hc⟩ := ih hs₁ hn₁
      refine ⟨n :: d, r, h', ?_, rfl, fun m hm => ?_, hr, hnodes, hs', hc.trans hc₁⟩
      · rw [if_pos hle, heq₁, bind_some, heq]
      · rcases List.mem_cons.mp hm with rfl | hm
        · omega
        · exact hd m hm
    · refine ⟨[], n :: l₂, h, if_neg hle, rfl, by simp, fun m hm => ?_, hn, hs, rfl⟩
      obtain rfl := Option.some.inj hm
      omega

omit [DecidableEq ι] in
theorem carved_of_clear (hs : h.toInode.Ok fit)
    (hclear : ∀ n ∈ h.nodes, n.es.lblk + n.es.len ≤ lblk ∨ last < n.es.lblk) :
    Carved fit lblk last h h := by
  refine ⟨hs, fun b => ?_⟩
  split_ifs with hb
  · refine lookup_eq_none (forall_segsOf fun n hn hc => ?_)
    have hc' : n.es.lblk ≤ b ∧ b < n.es.lblk + n.es.len := hc
    have := hclear n hn
    omega
  · rfl

omit [DecidableEq ι] in
theorem sound_part (hs : h.toInode.Sound fit) (hl : h.nodes = l₁ ++ n :: l₂) {es : ExtentStatus}
    {base size : ℕ} (hp : Part fit n.es base size es) (hpos : 0 < size) (hb : n.es.lblk ≤ base)
    (he : base + size ≤ n.es.lblk + n.es.len) :
    (h.setNode { n with es := es }).nodes = l₁ ++ { n with es := es } :: l₂ ∧
      (h.setNode { n with es := es }).toInode.Sound fit ∧
      ∀ b, lookup (h.setNode { n with es := es }).segs b =
        if (n.es.lblk ≤ b ∧ b < n.es.lblk + n.es.len) ∧ ¬(base ≤ b ∧ b < base + size) then none
        else lookup h.segs b := by
  have haddr : ({ n with es := es } : Node).addr = n.addr := rfl
  have hwf := hs.wf
  rw [segs, hl, segsOf_append, segsOf_cons] at hwf
  obtain ⟨hwf', hlook⟩ := shrink_mid (s := es.seg) hwf (by rw [hp.seg]; exact hpos)
    (by rw [hp.seg]; exact hb) (by rw [hp.seg]; exact he) (by rw [hp.seg])
  have hnodes : (h.setNode { n with es := es }).nodes = _ := hs.nodes_setNode hl haddr
  refine ⟨hnodes, hs.setNode hl haddr (isDelayed_congr hp.type) hwf' hp.fits, fun b => ?_⟩
  have hlook' := hlook b
  rw [hp.seg] at hlook'
  rw [segs, hnodes, segsOf_append, segsOf_cons, hp.seg, hlook', segs, hl, segsOf_append, segsOf_cons]
  rfl

omit [DecidableEq ι] in
theorem Ok.setCache_none (hs : h.toInode.Ok fit) : (h.setCache none).toInode.Sound fit :=
  ⟨⟨hs.nodup, hs.fresh, hs.few, hs.all, hs.shk⟩, hs.wf, hs.fits⟩

theorem removeRest_spec (rb : Tree.Balancer Node) (i : ι) (hs : h.toInode.Sound fit)
    (hl : h.nodes = l₁ ++ l₂) (hc : h.cacheEs = none) (hlast : last + 1 < 2 ^ 32) :
    ∃ h', h.removeRest rb i last l₂ = some (.ok, h') ∧ h'.toInode.Ok fit ∧
      h'.segs = segsOf l₁ ++ above (last + 1) (segsOf l₂) := by
  obtain ⟨d, r, h', heq, rfl, hd, hr, hnodes, hs', hc'⟩ := eraseUpTo_spec rb i last hs hl
  have hd' : above (last + 1) (segsOf d) = [] := above_of_stop_le (forall_segsOf hd)
  have hnone : h'.cacheEs = none := hc'.trans hc
  have hok : h'.toInode.Ok fit := ⟨hs', fun a ha => by rw [hnone] at ha; cases ha⟩
  rw [removeRest, heq, bind_some, segsOf_append, above_append, hd', List.nil_append]
  cases r with
  | nil =>
    refine ⟨h', rfl, hok, ?_⟩
    rw [segs, hnodes, segsOf_append]
    rfl
  | cons m r =>
    have hgood := hs'.good (show m ∈ h'.nodes by simp [hnodes])
    have hpos := hgood.pos
    have hstop := hgood.stop
    have hend := hr m rfl
    have hwf := hs'.wf
    rw [segs, hnodes, segsOf_append, segsOf_cons] at hwf
    obtain ⟨-, hlt, hwr⟩ := wf_cons.mp (wf_append.mp hwf).2.1
    have habove : above (last + 1) (segsOf r) = segsOf r := by
      refine above_of_le hwr fun s hs => ?_
      have hm : m.es.lblk + m.es.len ≤ s.base := hlt s hs
      omega
    simp only [List.head?_cons]
    rw [wadd_of_lt hlast, hgood.esEnd, map_some, wsub_of_le (by omega) (by omega)]
    by_cases hcut : m.es.lblk < last + 1
    · have hpart : Part fit m.es (last + 1) (m.es.lblk + m.es.len - 1 - last) _ :=
        Node.part_cutFront hgood (by omega) (by omega) (by omega)
      obtain ⟨hnodes', hs'', -⟩ :=
        sound_part hs' hnodes hpart (by omega) (by omega) (by omega)
      refine ⟨_, if_pos hcut, ⟨hs'', fun a ha => ?_⟩, ?_⟩
      · have : h'.cacheEs = some a := ha
        rw [hnone] at this
        cases this
      · rw [segsOf_cons, above_cons_of_lt (show last + 1 < m.es.lblk + m.es.len from hend), habove]
        have hseg : (m.cutFront last (m.es.lblk + m.es.len - 1 - last)).es.seg =
            ⟨max m.es.lblk (last + 1), m.es.lblk + m.es.len - max m.es.lblk (last + 1),
              m.es.attr⟩ := by
          rw [hpart.seg, Nat.max_eq_right (by omega)]
          show Segment.mk _ _ _ = _
          congr 1
          omega
        exact (congrArg segsOf hnodes').trans
          ((segsOf_append ..).trans (congrArg (segsOf l₁ ++ · :: segsOf r) hseg))
    · refine ⟨h', if_neg hcut, hok, ?_⟩
      rw [segsOf_cons, above_cons_of_le_base (show last + 1 ≤ m.es.lblk by omega) hpos, habove,
        segs, hnodes, segsOf_append, segsOf_cons]

/-! The first extent `n` that reaches into the range, and those before it. -/

section Reaching

variable (hs : h.toInode.Ok fit) (hl : h.nodes = l₁ ++ n :: l₂)
  (h₁ : ∀ m ∈ l₁, m.es.lblk + m.es.len ≤ lblk) (hin : lblk < n.es.lblk + n.es.len)

include hs hl

omit [DecidableEq ι] in
theorem le_of_after (hm : m ∈ l₂) : n.es.lblk + n.es.len ≤ m.es.lblk := by
  have hwf := hs.wf
  rw [segs, hl, segsOf_append, segsOf_cons] at hwf
  exact (wf_cons.mp (wf_append.mp hwf).2.1).2.1 _ (mem_segsOf hm)

include h₁ hin

theorem remove_split (rb : Tree.Balancer Node) (i : ι) (hle : lblk ≤ last) (hlt : n.es.lblk < lblk)
    (hlt' : last < n.es.lblk + n.es.len - 1) (ok : Bool) :
    (∃ h', ((h.setCache none).setNode
        { n with es := { n.es with len := lblk - n.es.lblk } }).esInsertExtent rb i
        (splitTail n.es last (n.es.lblk + n.es.len - 1 - last)) ok = some (.ok, h') ∧
        Carved fit lblk last h h') ∨
      ok = false ∧ ∃ h', ((h.setCache none).setNode
        { n with es := { n.es with len := lblk - n.es.lblk } }).esInsertExtent rb i
        (splitTail n.es last (n.es.lblk + n.es.len - 1 - last)) ok = some (.enomem, h') ∧
        (h'.setNode n).toInode.Ok fit ∧ (h'.setNode n).nodes = h.nodes := by
  have hmem : n ∈ h.nodes := by simp [hl]
  have hgood := hs.good hmem
  have hstop := hgood.stop
  have hpart : Part fit n.es n.es.lblk (lblk - n.es.lblk) _ := part_front hgood (by omega)
  have htail : Part fit n.es (last + 1) (n.es.lblk + n.es.len - 1 - last) _ :=
    part_splitTail hgood (by omega) (by omega) (by omega)
  generalize splitTail n.es last (n.es.lblk + n.es.len - 1 - last) = tail at htail ⊢
  obtain ⟨hnodes, hsound, hlook⟩ := sound_part (Ok.setCache_none hs) hl hpart (by omega) le_rfl
    (by omega)
  generalize hh : (h.setCache none).setNode
    { n with es := { n.es with len := lblk - n.es.lblk } } = h' at hnodes hsound hlook ⊢
  have htl : tail.lblk = last + 1 := congrArg Segment.base htail.seg
  have htn : tail.len = n.es.lblk + n.es.len - 1 - last := congrArg Segment.size htail.seg
  have hta : tail.attr = n.es.attr := congrArg Segment.attr htail.seg
  have hgtail : tail.Good fit := ⟨by omega, by omega, htail.fits⟩
  have hfree : Free tail h'.nodes := by
    intro m hm
    rw [hnodes] at hm
    rcases List.mem_append.mp hm with hm | hm
    · have := h₁ m hm
      omega
    · rcases List.mem_cons.mp hm with rfl | hm
      · show tail.lblk + tail.len ≤ n.es.lblk ∨ n.es.lblk + (lblk - n.es.lblk) ≤ tail.lblk
        omega
      · have := le_of_after hs hl hm
        omega
  rcases esInsertExtent_spec rb i hsound hgtail hfree ok with ⟨h'', heq, hok, hins⟩ | ⟨hno, heq⟩
  · refine .inl ⟨h'', heq, hok, fun b => ?_⟩
    have hcover : n.es.lblk ≤ b ∧ b < n.es.lblk + n.es.len → lookup h.segs b = some n.es.attr :=
      hs.wf.lookup_of_mem (mem_segsOf hmem)
    rw [hins b, hlook b, htl, htn, hta]
    split_ifs with hb hb' hb' hb' <;> first | rfl | omega | exact (hcover (by omega)).symm
  · have haddr : n.addr = ({ n with es := { n.es with len := lblk - n.es.lblk } } : Node).addr := rfl
    have hback := hsound.nodes_setNode hnodes haddr
    refine .inr ⟨hno, h', heq, ⟨?_, fun a ha => ?_⟩, hback.trans hl.symm⟩
    · have hwf := hs.wf
      rw [segs, hl, segsOf_append, segsOf_cons] at hwf
      exact hsound.setNode hnodes haddr rfl hwf hgood.fits
    · rw [← hh] at ha
      cases ha

omit [DecidableEq ι] in
theorem remove_front (hn : n.es.lblk ≤ last) (hlt : ¬n.es.lblk < lblk)
    (hlt' : last < n.es.lblk + n.es.len - 1) :
    Carved fit lblk last h ((h.setCache none).setNode
      (n.cutFront last (n.es.lblk + n.es.len - 1 - last))) := by
  have hmem : n ∈ h.nodes := by simp [hl]
  have hgood := hs.good hmem
  have hpart : Part fit n.es (last + 1) (n.es.lblk + n.es.len - 1 - last) _ :=
    Node.part_cutFront hgood (by omega) (by omega) (by omega)
  obtain ⟨-, hsound, hlook⟩ := sound_part (Ok.setCache_none hs) hl hpart (by omega) (by omega)
    (by omega)
  refine ⟨⟨hsound, fun a ha => by cases ha⟩, fun b => ?_⟩
  refine (hlook b).trans ?_
  have hgap : lblk ≤ b → b < n.es.lblk → lookup h.segs b = none := by
    intro hb hb'
    refine lookup_eq_none (forall_segsOf fun m hm hc => ?_)
    have hc' : m.es.lblk ≤ b ∧ b < m.es.lblk + m.es.len := hc
    rw [hl] at hm
    rcases List.mem_append.mp hm with hm | hm
    · have := h₁ m hm
      omega
    · rcases List.mem_cons.mp hm with rfl | hm
      · omega
      · have := le_of_after hs hl hm
        omega
  split_ifs with hb hb' hb' <;> first | rfl | omega | exact hgap (by omega) (by omega)

omit [DecidableEq ι] hs in
theorem above_segs (hend : n.es.lblk + n.es.len ≤ last + 1) :
    above (last + 1) h.segs = above (last + 1) (segsOf l₂) := by
  have h₁' : above (last + 1) (segsOf l₁) = [] := above_of_stop_le (forall_segsOf fun m hm => by
    have := h₁ m hm
    show m.es.lblk + m.es.len ≤ last + 1
    omega)
  rw [segs, hl, segsOf_append, segsOf_cons, above_append, h₁', List.nil_append,
    above_cons_of_le (show n.es.seg.base + n.es.seg.size ≤ last + 1 from hend)]

omit [DecidableEq ι] in
theorem below_segs : below lblk h.segs = segsOf l₁ ++
    if n.es.lblk < lblk then [{ n.es.seg with size := lblk - n.es.lblk }] else [] := by
  have hwf := hs.wf
  rw [segs, hl, segsOf_append, segsOf_cons] at hwf
  have hbelow : below lblk (segsOf l₂) = [] := below_of_le (forall_segsOf fun m hm => by
    have := le_of_after hs hl hm
    show lblk ≤ m.es.lblk
    omega)
  rw [segs, hl, segsOf_append, segsOf_cons, below_append,
    below_of_stop_le (wf_append.mp hwf).1 (forall_segsOf h₁)]
  congr 1
  split_ifs with hlt
  · rw [below_cons_of_lt (show n.es.seg.base < lblk from hlt), hbelow]
    show [Segment.mk _ (min n.es.len (lblk - n.es.lblk)) _] = _
    rw [Nat.min_eq_right (by omega)]
  · refine below_of_le fun r hr => ?_
    rcases List.mem_cons.mp hr with rfl | hr
    · exact not_lt.mp hlt
    · exact forall_segsOf (p := fun r => lblk ≤ r.base) (fun m hm => by
        have := le_of_after hs hl hm
        show lblk ≤ m.es.lblk
        omega) r hr

theorem remove_rest (rb : Tree.Balancer Node) (i : ι) (hle : lblk ≤ last)
    (hend : n.es.lblk + n.es.len ≤ last + 1) (hlast : last + 1 < 2 ^ 32) :
    ∃ h', ((h.setCache none).setNode
        (if n.es.lblk < lblk then { n with es := { n.es with len := lblk - n.es.lblk } }
          else n)).removeRest rb i last (if n.es.lblk < lblk then l₂ else n :: l₂) =
        some (.ok, h') ∧ Carved fit lblk last h h' := by
  have hgood := hs.good (show n ∈ h.nodes by simp [hl])
  have hs₀ := Ok.setCache_none hs
  have hcarve : ∀ {h' : Held ι}, h'.toInode.Ok fit →
      h'.segs = below lblk h.segs ++ above (last + 1) h.segs → Carved fit lblk last h h' :=
    fun hok hsegs => ⟨hok, fun b => by rw [hsegs, lookup_outside (by omega)]⟩
  have hbelow := below_segs hs hl h₁ hin
  by_cases hlt : n.es.lblk < lblk
  · rw [if_pos hlt] at hbelow
    rw [if_pos hlt, if_pos hlt]
    have hpart : Part fit n.es n.es.lblk (lblk - n.es.lblk) _ := part_front hgood (by omega)
    obtain ⟨hnodes, hsound, -⟩ := sound_part hs₀ hl hpart (by omega) le_rfl (by omega)
    obtain ⟨h', heq, hok, hsegs⟩ :=
      removeRest_spec rb i hsound (hnodes.trans (List.append_cons ..)) rfl hlast
    refine ⟨h', heq, hcarve hok ?_⟩
    rw [hsegs, hbelow, above_segs hl h₁ hin hend, segsOf_append]
    rfl
  · rw [if_neg hlt, List.append_nil] at hbelow
    rw [if_neg hlt, if_neg hlt]
    have hnodes : ((h.setCache none).setNode n).nodes = l₁ ++ n :: l₂ := hs₀.nodes_setNode hl rfl
    have hwf := hs.wf
    rw [segs, hl, segsOf_append, segsOf_cons] at hwf
    have hsound : ((h.setCache none).setNode n).toInode.Sound fit :=
      hs₀.setNode hl rfl rfl hwf hgood.fits
    obtain ⟨h', heq, hok, hsegs⟩ := removeRest_spec rb i hsound hnodes rfl hlast
    refine ⟨h', heq, hcarve hok ?_⟩
    rw [hsegs, hbelow, above_segs hl h₁ hin hend, segsOf_cons,
      above_cons_of_le (show n.es.seg.base + n.es.seg.size ≤ last + 1 from hend)]

end Reaching

theorem esRemoveOnce_spec (rb : Tree.Balancer Node) (i : ι) (hs : h.toInode.Ok fit)
    (hle : lblk ≤ last) (hlast : last + 1 < 2 ^ 32) (ok : Bool) :
    (∃ h', h.esRemoveOnce rb i lblk last ok = some (.ok, h') ∧ Carved fit lblk last h h') ∨
      ok = false ∧ ∃ h', h.esRemoveOnce rb i lblk last ok = some (.enomem, h') ∧
        h'.toInode.Ok fit ∧ h'.nodes = h.nodes := by
  rw [esRemoveOnce, esTreeSearch_spec hs.toSound, bind_some]
  cases hf : h.nodes.find? fun n => decide (lblk < n.es.lblk + n.es.len) with
  | none =>
    refine .inl ⟨h, rfl, carved_of_clear hs fun n hn => .inl ?_⟩
    have := List.find?_eq_none.mp hf n hn
    rw [decide_eq_true_eq] at this
    omega
  | some n =>
    obtain ⟨hin, l₁, l₂, hl, h₁⟩ := List.find?_eq_some_iff_append.mp hf
    rw [decide_eq_true_eq] at hin
    have h₁' : ∀ m ∈ l₁, m.es.lblk + m.es.len ≤ lblk := fun m hm => by
      have := h₁ m hm
      rw [Bool.not_eq_true', decide_eq_false_iff_not] at this
      omega
    have hgood := hs.good (show n ∈ h.nodes by simp [hl])
    have hpos := hgood.pos
    have hstop := hgood.stop
    dsimp only
    by_cases hout : last < n.es.lblk
    · refine .inl ⟨h, if_pos hout, carved_of_clear hs fun m hm => ?_⟩
      rw [hl] at hm
      rcases List.mem_append.mp hm with hm | hm
      · exact .inl (h₁' m hm)
      · rcases List.mem_cons.mp hm with rfl | hm
        · exact .inr hout
        · have := le_of_after hs hl hm
          exact .inr (by omega)
    · rw [if_neg hout, hgood.esEnd, bind_some]
      have hfrom : h.root.nodesFrom n = n :: l₂ := Tree.nodesFrom_eq hl (hs.not_mem_left hl)
      by_cases hlt' : last < n.es.lblk + n.es.len - 1
      · have hlen₂ : wsub 32 (n.es.lblk + n.es.len - 1) last = n.es.lblk + n.es.len - 1 - last :=
          wsub_of_le (by omega) (by omega)
        simp only [if_pos hlt', hlen₂]
        rw [if_pos (by omega)]
        by_cases hlt : n.es.lblk < lblk
        · simp only [if_pos hlt, wsub_of_le hlt.le (show lblk < 2 ^ 32 by omega)]
          rw [if_pos (by omega), if_pos (by omega)]
          rcases remove_split hs hl h₁' hin rb i hle hlt hlt' ok with
            ⟨h', heq, hcarved⟩ | ⟨hno, h', heq, hok, hnodes⟩
          · exact .inl ⟨h', by rw [heq]; rfl, hcarved⟩
          · exact .inr ⟨hno, _, by rw [heq]; rfl, hok, hnodes⟩
        · simp only [if_neg hlt]
          rw [if_neg (by omega)]
          exact .inl ⟨_, rfl, remove_front hs hl h₁' hin (by omega) hlt hlt'⟩
      · obtain ⟨h', heq, hcarved⟩ :=
          remove_rest hs hl h₁' hin rb i hle (by omega) hlast
        refine .inl ⟨h', ?_, hcarved⟩
        simp only [if_neg hlt']
        rw [if_neg (by omega)]
        by_cases hlt : n.es.lblk < lblk
        · rw [if_pos hlt, if_pos hlt] at heq
          simp only [if_pos hlt, wsub_of_le hlt.le (show lblk < 2 ^ 32 by omega)]
          rw [if_pos (by omega), if_pos (by omega)]
          rw [show (h.setCache none).root.nodesFrom n = n :: l₂ from hfrom, List.tail_cons]
          exact heq
        · rw [if_neg hlt, if_neg hlt] at heq
          simp only [if_neg hlt]
          rw [if_neg (by omega), if_neg (by omega)]
          rw [show (h.setCache none).root.nodesFrom n = n :: l₂ from hfrom]
          exact heq

end Held

end Cupcake.Ext4
