import Cupcake.Fs.Locks.Walk

/-! What a request without a conflict does to the locks of its owner. -/

namespace Cupcake.Fs.Locks

open Option List Segment

variable {O : Type*} {fl l : FileLock O} {fls fs rest post P m new : List (FileLock O)}
  {w : Walk O} {request R : FileLock O} {left right : Option (FileLock O)} {n : ℕ}
  {newFl newFl2 : Option ℕ} {flExists : Bool} {deleted : List ℕ}

def cutLeft (left : Option (FileLock O)) (start : ℕ) (fls : List (FileLock O)) : List (FileLock O) :=
  writeTo (left.map (·.id)) (fun l => { l with stop := start - 1 }) fls

def cutRight (right : Option (FileLock O)) (stop : ℕ) (fls : List (FileLock O)) :
    List (FileLock O) :=
  writeTo (right.map (·.id)) (fun r => { r with start := stop + 1 }) fls

theorem owner_cutRight {o : O} {stop : ℕ} (h : ∀ l ∈ fls, l.owner = o) :
    ∀ l ∈ cutRight right stop fls, l.owner = o := by
  intro l hl
  obtain ⟨l', hl', rfl⟩ := mem_map.mp hl
  split_ifs
  · exact h l' hl'
  · exact h l' hl'

theorem cutLeft_concat {start : ℕ} (hnd : (ids (P ++ [fl] ++ fls)).Nodup) :
    cutLeft (some fl) start (P ++ [fl]) = P ++ [{ fl with stop := start - 1 }] := by
  have hfl : fl.id ∉ ids P := by
    simp only [ids_append, nodup_append] at hnd
    exact fun h => hnd.1.2.2 _ h _ (by simp) rfl
  rw [cutLeft, map_some, writeTo_append, writeTo_of_notMem P (by simpa using hfl),
    writeTo_cons_self rfl (by simp)]

theorem nodup_ids_mid (hnd : (ids (P ++ (fs ++ post))).Nodup) : (ids fs).Nodup := by
  simp only [ids_append, nodup_append] at hnd
  exact hnd.2.1.1

theorem seg_cut {start : ℕ} (h : fl.start < start) :
    seg { fl with stop := start - 1 } = ⟨fl.start, start - fl.start, fl.type⟩ := by
  rw [seg, show start - 1 + 1 - fl.start = start - fl.start by omega]

section Trim

variable (hnd : (ids (P ++ (m ++ (fs ++ post)))).Nodup) (hleft : ∀ l ∈ w.left, l ∈ P)
  (hright : ∀ r ∈ w.right, r ∈ rest) (hsub : rest <:+ fs)

include hnd hleft hright hsub

theorem splits_eq_false : w.splits = false := by
  unfold Walk.splits
  cases hr : w.right with
  | none => rfl
  | some r =>
    cases hl : w.left with
    | none => rfl
    | some l =>
      have hlP : l.id ∈ ids P := mem_map_of_mem (hleft l hl)
      have hrF : r.id ∈ ids (m ++ (fs ++ post)) :=
        mem_map_of_mem (by simp [hsub.subset (hright r hr)])
      rw [ids_append] at hnd
      have hne : l.id ≠ r.id := (nodup_append.mp hnd).2.2 l.id hlP r.id hrF
      simpa using hne

theorem trim_eq (hpassed : w.passed ++ new = P ++ m) (newFl2 : Option ℕ) :
    (trim w newFl2 new (rest ++ post)).ret = .zero ∧
    (trim w newFl2 new (rest ++ post)).posix =
      cutLeft w.left w.request.start P ++
        (m ++ (cutRight w.right w.request.stop rest ++ post)) := by
  have hns := splits_eq_false hnd hleft hright hsub
  refine ⟨rfl, ?_⟩
  simp only [trim, hns, Bool.false_eq_true, if_false, toList_none, append_nil]
  rw [← append_assoc, hpassed]
  have hrP : ∀ id ∈ w.right.map (·.id), id ∉ ids P ∧ id ∉ ids m ∧ id ∉ ids post := by
    intro id hid
    obtain ⟨r, hr, rfl⟩ := map_eq_some_iff.mp hid
    have hrfs : r.id ∈ ids fs := mem_map_of_mem (hsub.subset (hright r hr))
    simp only [ids_append, nodup_append, mem_append] at hnd
    obtain ⟨-, ⟨-, ⟨-, -, h₃⟩, h₂⟩, h₁⟩ := hnd
    exact ⟨fun h => h₁ _ h _ (.inr (.inl hrfs)) rfl, fun h => h₂ _ h _ (.inl hrfs) rfl,
      fun h => h₃ _ hrfs _ h rfl⟩
  have hlP : ∀ id ∈ w.left.map (·.id), id ∉ ids m ∧ id ∉ ids rest ∧ id ∉ ids post := by
    intro id hid
    obtain ⟨l, hl, rfl⟩ := map_eq_some_iff.mp hid
    have hlP : l.id ∈ ids P := mem_map_of_mem (hleft l hl)
    simp only [ids_append, nodup_append, mem_append] at hnd
    obtain ⟨-, -, h₁⟩ := hnd
    refine ⟨fun h => h₁ _ hlP _ (.inl h) rfl, fun h => ?_, fun h => h₁ _ hlP _ (.inr (.inr h)) rfl⟩
    exact h₁ _ hlP _ (.inr (.inl ((hsub.map _).subset h))) rfl
  have hcut : ∀ id ∈ w.left.map (·.id), id ∉ ids (cutRight w.right w.request.stop rest) := by
    intro id hid
    rw [cutRight, ids_writeTo]
    · exact (hlP id hid).2.1
    · intro r
      rfl
  simp only [writeTo_append, append_assoc]
  rw [writeTo_of_notMem (p := w.right.map _) P fun id hid => (hrP id hid).1,
    writeTo_of_notMem (p := w.right.map _) m fun id hid => (hrP id hid).2.1,
    writeTo_of_notMem (p := w.right.map _) post fun id hid => (hrP id hid).2.2,
    writeTo_of_notMem (p := w.left.map _) m fun id hid => (hlP id hid).1,
    writeTo_of_notMem (p := w.left.map _) post fun id hid => (hlP id hid).2.2,
    ← cutRight, writeTo_of_notMem _ hcut]
  rfl

end Trim

theorem trim_split {id2 : ℕ} (hleft : w.left = some fl) (hright : w.right = some fl)
    (hfl : fl.id ∉ ids (w.passed ++ (new ++ fls))) (hid2 : id2 ∉ ids (w.passed ++ (new ++ fl :: fls))) :
    (trim w (some id2) new (fl :: fls)).posix =
      w.passed ++ ({ fl with id := id2, stop := w.request.start - 1 } ::
        (new ++ { fl with start := w.request.stop + 1 } :: fls)) := by
  have hsplits : w.splits = true := by
    simp [Walk.splits, hleft, hright]
  simp only [ids_append, ids_cons, mem_append, mem_cons, not_or] at hfl hid2
  simp only [trim, hsplits, hright, if_true, bind_some, map_some, toList_some,
    writeTo_append, append_assoc]
  rw [writeTo_of_notMem w.passed (by simpa using hfl.1),
    writeTo_of_notMem w.passed (by simpa using hid2.1),
    writeTo_of_notMem [{ fl with id := id2 }] (by simpa using Ne.symm hid2.2.2.1),
    writeTo_of_notMem new (by simpa using hfl.2.1), writeTo_of_notMem new (by simpa using hid2.2.1),
    writeTo_cons_self (by rfl) (by simp), writeTo_cons_self rfl hfl.2.2,
    writeTo_of_notMem _ (by simpa using hid2.2.2)]
  rfl

structure Locked (request : FileLock O) (fs : List (FileLock O)) (lo n : ℕ)
    (out : List (FileLock O)) : Prop where
  reaches : Reaches request.type (request.stop + 1) (n + 1) (fs.map seg)
  segs : out.map seg = ⟨lo, n + 1 - lo, request.type⟩ :: above (n + 1) (fs.map seg)
  owner : ∀ l ∈ out, l.owner = request.owner

theorem Extended.locked (h : Extended request fs rest right n) (hR : R.type = request.type)
    (ho : R.owner = request.owner) (hown : ∀ l ∈ fs, l.owner = request.owner) :
    Locked request fs R.start n ({ R with stop := n } :: cutRight right n rest) := by
  refine ⟨h.reaches, ?_, ?_⟩
  · rw [map_cons, cutRight, h.cut, seg, hR]
  · exact forall_mem_cons.mpr ⟨ho, owner_cutRight fun l hl => hown l (h.suffix.subset hl)⟩

theorem finish_added (h : Extended request fs rest right n)
    (hnd : (ids (P ++ ([{ R with stop := n }] ++ (fs ++ post)))).Nodup)
    (hleft : ∀ l ∈ left, l ∈ P) (flExists : Bool) (newFl newFl2 : Option ℕ) (deleted : List ℕ) :
    let out := finish ⟨P ++ [{ R with stop := n }], { R with stop := n }, left, right, true, newFl,
      deleted⟩ flExists newFl2 (rest ++ post)
    out.ret = .zero ∧ out.posix = cutLeft left R.start P ++
      ({ R with stop := n } :: cutRight right n rest ++ post) := by
  have hns := splits_eq_false (w := ⟨P ++ [{ R with stop := n }], { R with stop := n }, left, right,
    true, newFl, deleted⟩) hnd hleft h.mem h.suffix
  rw [finish, hns]
  exact trim_eq (w := ⟨P ++ [{ R with stop := n }], { R with stop := n }, left, right, true, newFl,
    deleted⟩) hnd hleft h.mem h.suffix (append_nil _) newFl2

theorem finish_insert (h : Extended request fs rest right request.stop) {id : ℕ}
    (hnd : (ids (P ++ ([{ request with id := id }] ++ (fs ++ post)))).Nodup)
    (hleft : ∀ l ∈ left, l ∈ P) (ht : request.type ≠ .unlck) (flExists : Bool) (newFl2 : Option ℕ)
    (deleted : List ℕ) :
    let out := finish ⟨P, request, left, right, false, some id, deleted⟩ flExists newFl2 (rest ++ post)
    out.ret = .zero ∧ out.posix = cutLeft left request.start P ++
      ({ request with id := id } :: cutRight right request.stop rest ++ post) := by
  have hns := splits_eq_false (w := ⟨P, request, left, right, false, some id, deleted⟩) hnd hleft h.mem
    h.suffix
  rw [finish, hns, if_neg (by simp), if_neg (by simp), if_neg ht]
  exact trim_eq (w := ⟨P, request, left, right, false, some id, deleted⟩) hnd hleft h.mem h.suffix rfl
    newFl2

theorem nodup_insert (hnd : (ids (P ++ fls)).Nodup) (hid : fl.id ∉ ids (P ++ fls)) :
    (ids (P ++ ([fl] ++ fls))).Nodup := by
  rw [ids_append] at hnd hid ⊢
  exact nodup_middle.mpr (nodup_cons.mpr ⟨hid, hnd⟩)

def Spliced (request : FileLock O) (fs own : List (FileLock O)) : Prop :=
  (∀ l ∈ own, l.owner = request.owner) ∧ ∃ lo hi,
    Splice request.type request.start (request.stop + 1) lo hi (fs.map seg) ∧
      own.map seg = splice request.type lo hi (fs.map seg)

theorem OwnOk.le_start (hok : OwnOk (fl :: fs)) : ∀ l ∈ fl :: fs, fl.start ≤ l.start :=
  forall_mem_cons.mpr ⟨le_rfl, fun _ hl => (hok.le (mem_cons_self ..)).trans (hok.lt hl).le⟩

namespace Locked

variable {own : List (FileLock O)}

theorem spliced (h : Locked request fs request.start n own)
    (hstart : ∀ l ∈ fs, request.start ≤ l.start) : Spliced request fs own := by
  have hb : ∀ r ∈ fs.map seg, request.start ≤ r.base := forall_mem_map.mpr hstart
  refine ⟨h.owner, request.start, n + 1, h.reaches.splice hb, ?_⟩
  rw [splice_of_le hb, h.segs]

theorem spliced_join (h : Extended { request with stop := max fl.stop request.stop } fs rest right n)
    (hown : ∀ l ∈ fs, l.owner = request.owner) (hok : OwnOk (fl :: fs))
    (ho : fl.owner = request.owner) (ht : request.type = fl.type) (hlt : fl.start < request.start)
    (hend : request.start ≤ fl.stop + 1) (hle : request.start ≤ request.stop) :
    Spliced request (fl :: fs) ({ fl with stop := n } :: cutRight right n rest) := by
  have hend' := hok.seg_end (mem_cons_self ..)
  have hr := h.reaches.le
  simp only at hr
  have hlocked := Extended.locked (R := fl) h ht.symm ho hown
  refine ⟨hlocked.owner, fl.start, n + 1, ?_, ?_⟩
  · refine Reaches.splice_join hok.wf hlt (by omega) ht.symm ?_ (show fl.start ≤ _ by omega)
    rw [hend', show max (request.stop + 1) (fl.stop + 1) = max fl.stop request.stop + 1 by omega]
    exact h.reaches
  · rw [splice_of_le (forall_mem_map.mpr hok.le_start), hlocked.segs, map_cons,
      above_cons_of_le (by omega)]

theorem spliced_cut (h : Locked request fs request.start n own) (hok : OwnOk (fl :: fs))
    (ho : fl.owner = request.owner) (ht : request.type ≠ fl.type) (hlt : fl.start < request.start)
    (hend : request.start ≤ fl.stop) (hend' : fl.stop ≤ request.stop) :
    Spliced request (fl :: fs) ({ fl with stop := request.start - 1 } :: own) := by
  have hseg := hok.seg_end (mem_cons_self ..)
  have hr := h.reaches.le
  refine ⟨?_, request.start, n + 1, ?_, ?_⟩
  · exact forall_mem_cons.mpr ⟨ho, h.owner⟩
  · exact (h.reaches.cover (by omega)).splice_cut hlt (by omega) ht.symm
  · rw [map_cons, map_cons, splice_cut hok.wf hlt (by omega), h.segs,
      above_cons_of_le (by omega), seg_cut hlt]
    rfl

end Locked

theorem spliced_split (hok : OwnOk (fl :: fs)) (hown : ∀ l ∈ fl :: fs, l.owner = request.owner)
    (hnd : (ids (fl :: fs)).Nodup) (ht : request.type ≠ fl.type) (hlt : fl.start < request.start)
    (hle : request.start ≤ request.stop) (hend : request.stop < fl.stop) (id id2 : ℕ) :
    Spliced request (fl :: fs) ({ fl with id := id2, stop := request.start - 1 } ::
      { request with id := id } :: { fl with start := request.stop + 1 } :: fs) := by
  have hseg := hok.seg_end (mem_cons_self ..)
  refine ⟨?_, request.start, request.stop + 1, ?_, ?_⟩
  · have ho := hown fl (mem_cons_self ..)
    simp only [mem_cons, forall_eq_or_imp]
    exact ⟨ho, trivial, ho, fun l hl => hown l (.tail _ hl)⟩
  · exact (Reaches.cut (by simp only [seg]; omega) (by omega) ht.symm).splice_cut hlt (by omega)
      ht.symm
  · have hcut := (Extended.intoRight (R := request) hok hnd ht (by omega) hend).cut
    rw [map_some, writeTo_cons_self rfl (nodup_cons.mp hnd).1] at hcut
    rw [map_cons, map_cons, hcut, map_cons, splice_cut hok.wf hlt (by omega)]
    exact congrArg (· :: _) (seg_cut hlt)

theorem Spliced.pass {own : List (FileLock O)} (h : Spliced request fs own) (hok : OwnOk (fl :: fs))
    (ho : fl.owner = request.owner) (hle : request.start ≤ request.stop)
    (hlt : fl.stop < request.start) (hlt' : request.type = fl.type → fl.stop + 1 < request.start) :
    Spliced request (fl :: fs) (fl :: own) := by
  have hseg := hok.seg_end (mem_cons_self ..)
  obtain ⟨howner, lo, hi, hsplice, hsegs⟩ := h
  obtain ⟨hlo, hsplice'⟩ := hsplice.pass (r := seg fl) hok.wf hok.apart (by omega) (by omega)
    fun hv => by have := hlt' hv.symm; omega
  have hle := hsplice.lo_le
  have hle' := hsplice.le_hi
  refine ⟨?_, lo, hi, hsplice', ?_⟩
  · exact forall_mem_cons.mpr ⟨ho, howner⟩
  · rw [map_cons, map_cons, splice_pass hlo (wf_cons.mp hok.wf).1.1 (by omega), hsegs]

def Late (P fs post : List (FileLock O)) (request : FileLock O) (left : Option (FileLock O))
    (newFl : Option ℕ) (out : Outcome O) : Prop :=
  (out.ret = .zero ∧ ∃ n own, out.posix = cutLeft left request.start P ++ (own ++ post) ∧
    Locked request fs request.start n own) ∨
  (out.ret = .enolck ∧ newFl = none ∧ out.posix = P ++ (fs ++ post))

def LockOutcome (P fs post : List (FileLock O)) (request : FileLock O) (newFl newFl2 : Option ℕ)
    (out : Outcome O) : Prop :=
  (out.ret = .zero ∧ ∃ own, out.posix = P ++ (own ++ post) ∧ Spliced request fs own) ∨
  (out.ret = .enolck ∧ (newFl = none ∨ newFl2 = none) ∧ out.posix = P ++ (fs ++ post))

theorem Late.lockOutcome {out : Outcome O} (h : Late P fs post request none newFl out)
    (hstart : ∀ l ∈ fs, request.start ≤ l.start) (newFl2 : Option ℕ) :
    LockOutcome P fs post request newFl newFl2 out := by
  obtain ⟨hret, n, own, hposix, hlocked⟩ | ⟨hret, hnone, hposix⟩ := h
  · exact .inl ⟨hret, own, hposix.trans (by simp [cutLeft]), hlocked.spliced hstart⟩
  · exact .inr ⟨hret, .inl hnone, hposix⟩

variable [DecidableEq O]

def run (P fs post : List (FileLock O)) (request : FileLock O) (left : Option (FileLock O))
    (added flExists : Bool) (newFl newFl2 : Option ℕ) (deleted : List ℕ) : Outcome O :=
  match walk (fs ++ post) ⟨P, request, left, none, added, newFl, deleted⟩ with
  | (w, fls, true) => finish w flExists newFl2 fls
  | (w, fls, false) => ⟨.enolck, w.passed ++ fls, w.deleted⟩

theorem run_added (hok : OwnOk fs) (hown : ∀ l ∈ fs, l.owner = R.owner)
    (hpost : ∀ l ∈ post, l.owner ≠ R.owner) (hnd : (ids (P ++ ([R] ++ (fs ++ post)))).Nodup)
    (hleft : ∀ l ∈ left, l ∈ P) (ht : R.type ≠ .unlck) (hstart : ∀ l ∈ fs, R.start ≤ l.start)
    (flExists : Bool) (newFl newFl2 : Option ℕ) (deleted : List ℕ) :
    let out := run (P ++ [R]) fs post R left true flExists newFl newFl2 deleted
    ∃ n rest right, Extended R fs rest right n ∧ out.ret = .zero ∧
      out.posix = cutLeft left R.start P ++
        ({ R with stop := n } :: cutRight right n rest ++ post) := by
  have hnd' := hnd
  simp only [ids_append, nodup_append, ids_cons, ids_nil] at hnd'
  have hP : R.id ∉ ids P := fun h => hnd'.2.2 _ h _ (by simp) rfl
  obtain ⟨n, rest, right, deleted', hwalk, hext⟩ :=
    walk_added hok hown hpost hnd'.2.1.2.1.1 ht hP hstart left newFl deleted
  refine ⟨n, rest, right, hext, ?_⟩
  rw [run, hwalk]
  exact finish_added hext (by simpa [ids] using hnd) hleft flExists newFl newFl2 deleted'

section Late

variable (hok : OwnOk fs) (hown : ∀ l ∈ fs, l.owner = request.owner)
  (hpost : ∀ l ∈ post, l.owner ≠ request.owner) (hnd : (ids (P ++ (fs ++ post))).Nodup)
  (hnew : ∀ id ∈ newFl, id ∉ ids (P ++ (fs ++ post))) (hleft : ∀ l ∈ left, l ∈ P)
  (ht : request.type ≠ .unlck)

include hown hnd hnew hleft ht

theorem late_insert (hext : Extended request fs fs right request.stop)
    (hwalk : walk (fs ++ post) ⟨P, request, left, none, false, newFl, deleted⟩ =
      (⟨P, request, left, right, false, newFl, deleted⟩, fs ++ post, true)) :
    Late P fs post request left newFl
      (run P fs post request left false flExists newFl newFl2 deleted) := by
  rw [run, hwalk]
  cases newFl with
  | none =>
    right
    have hns := splits_eq_false (w := ⟨P, request, left, right, false, none, deleted⟩) (m := []) hnd
      hleft hext.mem hext.suffix
    simp only
    rw [finish, hns, if_neg (by simp), if_neg (by simp), if_neg ht]
    exact ⟨rfl, trivial, rfl⟩
  | some id =>
    left
    have hnd' : (ids (P ++ ([{ request with id := id }] ++ (fs ++ post)))).Nodup :=
      nodup_insert hnd (hnew id rfl)
    have hfin := finish_insert hext hnd' hleft ht flExists newFl2 deleted
    exact ⟨hfin.1, request.stop, _, hfin.2, hext.locked (R := { request with id := id }) rfl rfl hown⟩

include hok hpost

theorem run_late (hstart : ∀ l ∈ fs, request.start ≤ l.start) :
    Late P fs post request left newFl
      (run P fs post request left false flExists newFl newFl2 deleted) := by
  cases fs with
  | nil => exact late_insert hown hnd hnew hleft ht (.nil request) (walk_other hpost)
  | cons fl fs =>
    have hself := mem_cons_self (a := fl) (l := fs)
    obtain ⟨ho, hown'⟩ := forall_mem_cons.mp hown
    have hfl := hok.le hself
    obtain ⟨hs, hstart'⟩ := forall_mem_cons.mp hstart
    have hndfs := nodup_ids_mid hnd
    have hlow : request.start ≤ fl.stop := hs.trans hfl
    by_cases hbeyond : request.stop < fl.start ∧ (request.type = fl.type → request.stop + 1 < fl.start)
    · exact late_insert hown hnd hnew hleft ht (.stop hok hbeyond.1 hbeyond.2)
        (walk_stop ho hlow hbeyond.1 hbeyond.2)
    by_cases htype : request.type = fl.type
    · have hjoin : fl.start ≤ request.stop + 1 := by
        by_contra hlt
        exact hbeyond ⟨by omega, fun _ => by omega⟩
      have hrun : run P (fl :: fs) post request left false flExists newFl newFl2 deleted =
          run (P ++ [{ fl with start := request.start, stop := max fl.stop request.stop }]) fs post
            { fl with start := request.start, stop := max fl.stop request.stop } left true flExists
            newFl newFl2 deleted := by
        rw [run, run, cons_append, walk_join ho htype (by simp only; omega) hjoin rfl]
        simp only [Nat.min_eq_right hs]
      obtain ⟨n, rest, right, hext, hret, hposix⟩ := run_added
        (R := { fl with start := request.start, stop := max fl.stop request.stop }) hok.tail
        (fun l hl => (hown' l hl).trans ho.symm) (fun l hl => ho ▸ hpost l hl)
        (by simpa [ids] using hnd) hleft (htype ▸ ht) hstart' flExists newFl newFl2
        deleted
      rw [hrun]
      have hext' : Extended request (fl :: fs) rest right n :=
        .join hok htype hjoin (hext.congr htype rfl)
      exact .inl ⟨hret, n, _, hposix, hext'.locked (R := { fl with start := request.start })
        htype.symm ho hown⟩
    · have hover : fl.start ≤ request.stop := by
        by_contra hlt
        exact hbeyond ⟨by omega, fun h => absurd h htype⟩
      by_cases hend : request.stop < fl.stop
      · apply late_insert hown hnd hnew hleft ht (.intoRight hok hndfs htype hover hend)
        rw [cons_append, walk_right ho htype hlow hover hend]
        simp only [if_neg (not_lt.mpr hs), if_neg ht]
      · have hend := not_lt.mp hend
        cases newFl with
        | none =>
          right
          rw [run, cons_append, walk_replace ho htype hlow hover hend hs ht rfl]
          exact ⟨rfl, rfl, rfl⟩
        | some id =>
          have hrun : run P (fl :: fs) post request left false flExists (some id) newFl2 deleted =
              run (P ++ [{ request with id := id }]) fs post { request with id := id } left true
                flExists none newFl2 (fl.id :: deleted) := by
            rw [run, run, cons_append, walk_replace ho htype hlow hover hend hs ht rfl]
          have hid := hnew id rfl
          have hnd' : (ids (P ++ (fs ++ post))).Nodup ∧ id ∉ ids (P ++ (fs ++ post)) := by
            simp only [ids_append, ids_cons, cons_append] at hnd hid ⊢
            refine ⟨(nodup_cons.mp (nodup_middle.mp hnd)).2, fun h => hid ?_⟩
            simp only [mem_append, mem_cons] at h ⊢
            tauto
          obtain ⟨n, rest, right, hext, hret, hposix⟩ := run_added
            (R := { request with id := id }) hok.tail hown' hpost (nodup_insert hnd'.1 hnd'.2) hleft ht
            hstart' flExists none newFl2 (fl.id :: deleted)
          rw [hrun]
          have hext' : Extended request (fl :: fs) rest right n :=
            .cover hok hend (hext.congr rfl rfl)
          exact .inl ⟨hret, n, _, hposix, hext'.locked (R := { request with id := id }) rfl rfl hown⟩

end Late

theorem run_pass {added : Bool} (ho : fl.owner = request.owner) (hlt : fl.stop < request.start)
    (hlt' : request.type = fl.type → fl.stop + 1 < request.start) :
    run P (fl :: fs) post request left added flExists newFl newFl2 deleted =
      run (P ++ [fl]) fs post request left added flExists newFl newFl2 deleted := by
  rw [run, run, cons_append, walk_pass ho hlt hlt']

section Lock

variable (hok : OwnOk (fl :: fs)) (hown : ∀ l ∈ fl :: fs, l.owner = request.owner)
  (hnd : (ids (P ++ (fl :: fs ++ post))).Nodup) (ht : request.type ≠ .unlck)
  (hlt : fl.start < request.start)

include hok hown hnd ht hlt

theorem run_join (hpost : ∀ l ∈ post, l.owner ≠ request.owner) (hle : request.start ≤ request.stop)
    (htype : request.type = fl.type) (hend : request.start ≤ fl.stop + 1) :
    LockOutcome P (fl :: fs) post request newFl newFl2
      (run P (fl :: fs) post request none false flExists newFl newFl2 deleted) := by
  obtain ⟨ho, hown'⟩ := forall_mem_cons.mp hown
  have hfl := hok.le (mem_cons_self ..)
  have hrun : run P (fl :: fs) post request none false flExists newFl newFl2 deleted =
      run (P ++ [{ fl with stop := max fl.stop request.stop }]) fs post
        { fl with stop := max fl.stop request.stop } none true flExists newFl newFl2 deleted := by
    rw [run, run, cons_append, walk_join ho htype hend (by simp only; omega) rfl]
    simp only [Nat.min_eq_left hlt.le]
  obtain ⟨n, rest, right, hext, hret, hposix⟩ := run_added
    (R := { fl with stop := max fl.stop request.stop }) hok.tail
    (fun l hl => (hown' l hl).trans ho.symm) (fun l hl => ho ▸ hpost l hl) (by simpa [ids] using hnd)
    (show ∀ l ∈ none, l ∈ P by simp) (htype ▸ ht)
    (fun l hl => (hfl.trans (hok.lt hl).le : fl.start ≤ l.start)) flExists newFl
    newFl2 deleted
  rw [hrun]
  refine .inl ⟨hret, _, hposix.trans (by rw [cutLeft, map_none, writeTo_none]), ?_⟩
  exact Locked.spliced_join (hext.congr htype rfl) hown' hok ho htype hlt hend hle

theorem run_left (hpost : ∀ l ∈ post, l.owner ≠ request.owner)
    (hnew : ∀ id ∈ newFl, id ∉ ids (P ++ (fl :: fs ++ post))) (hle : request.start ≤ request.stop)
    (htype : request.type ≠ fl.type) (hend : request.start ≤ fl.stop)
    (hend' : fl.stop ≤ request.stop) :
    LockOutcome P (fl :: fs) post request newFl newFl2
      (run P (fl :: fs) post request none false flExists newFl newFl2 deleted) := by
  obtain ⟨ho, hown'⟩ := forall_mem_cons.mp hown
  have hrun : run P (fl :: fs) post request none false flExists newFl newFl2 deleted =
      run (P ++ [fl]) fs post request (some fl) false flExists newFl newFl2 deleted := by
    rw [run, run, cons_append, walk_left ho htype hend (by simp only; omega) hend' hlt]
    simp only [if_neg ht]
  have happ : P ++ (fl :: fs ++ post) = P ++ [fl] ++ (fs ++ post) := by simp
  rw [happ] at hnd hnew
  rw [hrun]
  have hlate : Late (P ++ [fl]) fs post request (some fl) newFl
      (run (P ++ [fl]) fs post request (some fl) false flExists newFl newFl2 deleted) :=
    run_late hok.tail hown' hpost hnd hnew (by simp) ht fun l hl => hend.trans (hok.lt hl).le
  obtain ⟨hret, n, own, hposix, hlocked⟩ | ⟨hret, hnone, hposix⟩ := hlate
  · refine .inl ⟨hret, { fl with stop := request.start - 1 } :: own, ?_,
      hlocked.spliced_cut hok ho htype hlt hend hend'⟩
    rw [hposix, cutLeft_concat hnd]
    simp
  · exact .inr ⟨hret, .inl hnone, hposix.trans happ.symm⟩

theorem run_split (hnew : ∀ id ∈ newFl, id ∉ ids (P ++ (fl :: fs ++ post)))
    (hnew2 : ∀ id ∈ newFl2, id ∉ ids (P ++ (fl :: fs ++ post)) ∧ newFl ≠ some id)
    (hle : request.start ≤ request.stop) (htype : request.type ≠ fl.type)
    (hend : request.stop < fl.stop) :
    LockOutcome P (fl :: fs) post request newFl newFl2
      (run P (fl :: fs) post request none false flExists newFl newFl2 deleted) := by
  have ho := hown fl (mem_cons_self ..)
  have hndfs := nodup_ids_mid hnd
  rw [run, cons_append, walk_right ho htype (by simp only; omega) (by simp only; omega) hend]
  simp only [if_pos hlt, if_neg ht]
  have hsplits : Walk.splits ⟨P, request, some fl, some fl, false, newFl, deleted⟩ = true := by
    simp [Walk.splits]
  rw [finish, hsplits, if_neg (show ¬ false = true by simp), if_neg ht]
  cases newFl2 with
  | none => exact .inr ⟨rfl, .inr rfl, rfl⟩
  | some id2 =>
    rw [if_neg (by simp)]
    cases newFl with
    | none => exact .inr ⟨rfl, .inl rfl, rfl⟩
    | some id =>
      refine .inl ⟨rfl, _, ?_, spliced_split hok hown hndfs htype hlt hle hend id id2⟩
      have hid := hnew id rfl
      obtain ⟨hid2, hne⟩ := hnew2 id2 rfl
      have hne : id2 ≠ id := fun h => hne (congrArg some h.symm)
      simp only [ids_append, ids_cons, cons_append] at hnd hid hid2
      have hfl := (nodup_cons.mp (nodup_middle.mp hnd)).1
      simp only [mem_append, mem_cons, not_or] at hid hid2 hfl
      rw [trim_split rfl rfl]
      · simp
      · simpa using ⟨hfl.1, Ne.symm hid.2.1, hfl.2⟩
      · simpa using ⟨hid2.1, hne, hid2.2⟩

end Lock

theorem run_lock (hok : OwnOk fs) (hown : ∀ l ∈ fs, l.owner = request.owner)
    (hpost : ∀ l ∈ post, l.owner ≠ request.owner) (hnd : (ids (P ++ (fs ++ post))).Nodup)
    (hnew : ∀ id ∈ newFl, id ∉ ids (P ++ (fs ++ post)))
    (hnew2 : ∀ id ∈ newFl2, id ∉ ids (P ++ (fs ++ post)) ∧ newFl ≠ some id)
    (ht : request.type ≠ .unlck) (hle : request.start ≤ request.stop) :
    LockOutcome P fs post request newFl newFl2
      (run P fs post request none false flExists newFl newFl2 deleted) := by
  induction fs generalizing P with
  | nil => exact (run_late hok hown hpost hnd hnew (by simp) ht (by simp)).lockOutcome (by simp) newFl2
  | cons fl fs ih =>
    obtain ⟨ho, hown'⟩ := forall_mem_cons.mp hown
    by_cases hlt : request.start ≤ fl.start
    · have hstart : ∀ l ∈ fl :: fs, request.start ≤ l.start := fun l hl =>
        hlt.trans (hok.le_start l hl)
      exact (run_late hok hown hpost hnd hnew (by simp) ht hstart).lockOutcome hstart newFl2
    have hlt := not_le.mp hlt
    by_cases hpass : fl.stop < request.start ∧ (request.type = fl.type → fl.stop + 1 < request.start)
    · have happ : P ++ (fl :: fs ++ post) = P ++ [fl] ++ (fs ++ post) := by simp
      rw [run_pass ho hpass.1 hpass.2]
      rw [happ] at hnd hnew hnew2
      obtain ⟨hret, own, hposix, hsp⟩ | ⟨hret, hnone, hposix⟩ := ih hok.tail hown' hnd hnew hnew2
      · exact .inl ⟨hret, fl :: own, by rw [hposix]; simp, hsp.pass hok ho hle hpass.1 hpass.2⟩
      · exact .inr ⟨hret, hnone, hposix.trans happ.symm⟩
    by_cases htype : request.type = fl.type
    · exact run_join hok hown hnd ht hlt hpost hle htype
        (by by_contra; exact hpass ⟨by omega, by omega⟩)
    · have hend : request.start ≤ fl.stop := by
        by_contra hgt
        exact hpass ⟨by omega, fun h => absurd h htype⟩
      by_cases hend' : fl.stop ≤ request.stop
      · exact run_left hok hown hnd ht hlt hpost hnew hle htype hend hend'
      · exact run_split hok hown hnd ht hlt hnew hnew2 hle htype (not_le.mp hend')

/-! ## Unlocking -/

def Erased (request : FileLock O) (fs own : List (FileLock O)) : Prop :=
  (∀ l ∈ own, l.owner = request.owner) ∧
    own.map seg = below request.start (fs.map seg) ++ above (request.stop + 1) (fs.map seg)

def UnlockOutcome (P fs post : List (FileLock O)) (request : FileLock O) (flExists : Bool)
    (newFl2 : Option ℕ) (out : Outcome O) : Prop :=
  (out.ret = .zero ∧ ∃ own, out.posix = P ++ (own ++ post) ∧ Erased request fs own) ∨
  (out.ret = .enoent ∧ flExists = true ∧ out.posix = P ++ (fs ++ post)) ∨
  (out.ret = .enolck ∧ newFl2 = none ∧ 0 < request.start ∧ out.posix = P ++ (fs ++ post))

def LateUnlock (P fs post : List (FileLock O)) (request : FileLock O) (left : Option (FileLock O))
    (added flExists : Bool) (out : Outcome O) : Prop :=
  (out.ret = .zero ∧ ∃ own, out.posix = cutLeft left request.start P ++ (own ++ post) ∧
    (∀ l ∈ own, l.owner = request.owner) ∧ own.map seg = above (request.stop + 1) (fs.map seg)) ∨
  (out.ret = .enoent ∧ flExists = true ∧ added = false ∧ out.posix = P ++ (fs ++ post))

omit [DecidableEq O] in
theorem LateUnlock.unlockOutcome {out : Outcome O}
    (h : LateUnlock P fs post request none false flExists out)
    (hstart : ∀ l ∈ fs, request.start ≤ l.start) (newFl2 : Option ℕ) :
    UnlockOutcome P fs post request flExists newFl2 out := by
  obtain ⟨hret, own, hposix, howner, hsegs⟩ | ⟨hret, hex, -, hposix⟩ := h
  · refine .inl ⟨hret, own, by simpa [cutLeft] using hposix, howner, ?_⟩
    rw [below_of_le (forall_mem_map.mpr hstart), nil_append, hsegs]
  · exact .inr (.inl ⟨hret, hex, hposix⟩)

section Unlock

variable (hok : OwnOk fs) (hown : ∀ l ∈ fs, l.owner = request.owner)
  (hpost : ∀ l ∈ post, l.owner ≠ request.owner) (hu : request.type = .unlck)

include hok hown hpost hu

theorem walk_unlck (hnd : (ids fs).Nodup) (hstart : ∀ l ∈ fs, request.start ≤ l.start)
    (P : List (FileLock O)) (left : Option (FileLock O)) (added : Bool) (newFl : Option ℕ)
    (deleted : List ℕ) :
    ∃ rest right added' deleted',
      walk (fs ++ post) ⟨P, request, left, none, added, newFl, deleted⟩ =
        (⟨P, request, left, right, added', newFl, deleted'⟩, rest ++ post, true) ∧
      Extended request fs rest right request.stop ∧
      (added' = false → added = false ∧ rest = fs ∧ right = none) := by
  induction fs generalizing added deleted with
  | nil => exact ⟨[], none, added, deleted, walk_other hpost, .nil request, fun h => ⟨h, rfl, rfl⟩⟩
  | cons fl fs ih =>
    have hself := mem_cons_self (a := fl) (l := fs)
    obtain ⟨ho, hown'⟩ := forall_mem_cons.mp hown
    have hfl := hok.le hself
    obtain ⟨hs, hstart'⟩ := forall_mem_cons.mp hstart
    have htype : request.type ≠ fl.type := hu ▸ (hok.held fl hself).symm
    have hlow : request.start ≤ fl.stop := hs.trans hfl
    by_cases hbeyond : request.stop < fl.start
    · exact ⟨fl :: fs, none, added, deleted, walk_stop ho hlow hbeyond fun h => absurd h htype,
        .stop hok hbeyond fun h => absurd h htype, fun h => ⟨h, rfl, rfl⟩⟩
    have hover := not_lt.mp hbeyond
    rw [cons_append]
    by_cases hend : request.stop < fl.stop
    · refine ⟨fl :: fs, some fl, true, deleted, ?_, .intoRight hok hnd htype hover hend, by simp⟩
      rw [walk_right ho htype hlow hover hend]
      simp only [if_neg (not_lt.mpr hs), if_pos hu]
      rfl
    · have hend := not_lt.mp hend
      rw [walk_delete ho htype hlow hover hend hs (.inl hu)]
      obtain ⟨rest, right, added', deleted', hwalk, hext, hadded⟩ :=
        ih hok.tail hown' (nodup_cons.mp hnd).2 hstart' true (fl.id :: deleted)
      exact ⟨rest, right, added', deleted', hwalk, hext.cover hok hend, fun h =>
        absurd (hadded h).1 (by simp)⟩

theorem run_unlck_late (hnd : (ids (P ++ (fs ++ post))).Nodup)
    (hstart : ∀ l ∈ fs, request.start ≤ l.start) (hleft : ∀ l ∈ left, l ∈ P) {added : Bool}
    (hadded : added = false → left = none) :
    LateUnlock P fs post request left added flExists
      (run P fs post request left added flExists newFl newFl2 deleted) := by
  obtain ⟨rest, right, added', deleted', hwalk, hext, hnone⟩ :=
    walk_unlck hok hown hpost hu (nodup_ids_mid hnd) hstart P left added newFl deleted
  have hns := splits_eq_false (w := ⟨P, request, left, right, added', newFl, deleted'⟩) (m := []) hnd
    hleft hext.mem hext.suffix
  rw [run, hwalk]
  simp only
  rw [finish, hns, if_neg (by simp)]
  cases added' with
  | true =>
    have htrim := trim_eq (w := ⟨P, request, left, right, true, newFl, deleted'⟩) (m := [])
      hnd hleft hext.mem hext.suffix (show P ++ [] = P ++ [] from rfl) newFl2
    refine .inl ⟨htrim.1, cutRight right request.stop rest, htrim.2, ?_, hext.cut⟩
    exact owner_cutRight fun l hl => hown l (hext.suffix.subset hl)
  | false =>
    obtain ⟨hadd, rfl, rfl⟩ := hnone rfl
    obtain rfl := hadded hadd
    rw [if_neg (by simp), if_pos hu]
    cases flExists with
    | true => exact .inr ⟨rfl, rfl, hadd, rfl⟩
    | false =>
      refine .inl ⟨rfl, rest, ?_, hown, ?_⟩
      · simp [cutLeft]
      · simpa using hext.cut

theorem run_unlck (hnd : (ids (P ++ (fs ++ post))).Nodup)
    (hnew2 : ∀ id ∈ newFl2, id ∉ ids (P ++ (fs ++ post))) (hle : request.start ≤ request.stop) :
    UnlockOutcome P fs post request flExists newFl2
      (run P fs post request none false flExists newFl newFl2 deleted) := by
  induction fs generalizing P with
  | nil =>
    exact (run_unlck_late hok hown hpost hu hnd (by simp) (by simp) (by simp)).unlockOutcome (by simp) _
  | cons fl fs ih =>
    have hself := mem_cons_self (a := fl) (l := fs)
    obtain ⟨ho, hown'⟩ := forall_mem_cons.mp hown
    have htype : request.type ≠ fl.type := hu ▸ (hok.held fl hself).symm
    have hseg := hok.seg_end hself
    have happ : P ++ (fl :: fs ++ post) = P ++ [fl] ++ (fs ++ post) := by simp
    by_cases hlt : request.start ≤ fl.start
    · have hstart : ∀ l ∈ fl :: fs, request.start ≤ l.start := fun l hl =>
        hlt.trans (hok.le_start l hl)
      exact (run_unlck_late hok hown hpost hu hnd hstart (by simp) (by simp)).unlockOutcome hstart _
    have hlt := not_le.mp hlt
    by_cases hpass : fl.stop < request.start
    · rw [run_pass ho hpass fun h => absurd h htype]
      rw [happ] at hnd hnew2
      obtain ⟨hret, own, hposix, hown₁, hsegs⟩ | h := ih hok.tail hown' hnd hnew2
      · refine .inl ⟨hret, fl :: own, by rw [hposix]; simp, ?_, ?_⟩
        · exact forall_mem_cons.mpr ⟨ho, hown₁⟩
        · rw [map_cons, map_cons, below_cons_of_le (by omega) (wf_cons.mp hok.wf).1.1,
            above_cons_of_le (by omega), hsegs, cons_append]
      · rw [← happ] at h
        exact .inr h
    have hpass := not_lt.mp hpass
    have hbelow : below request.start ((fl :: fs).map seg) =
        [seg { fl with stop := request.start - 1 }] := by
      rw [map_cons, below_cons_of_lt hlt, below_of_le, seg_cut hlt,
        Nat.min_eq_right (by simp only [seg]; omega)]
      · rfl
      · exact forall_mem_map.mpr fun l hl => hpass.trans (hok.lt hl).le
    by_cases hend : fl.stop ≤ request.stop
    · -- the end of the lock is cut off
      have hrun : run P (fl :: fs) post request none false flExists newFl newFl2 deleted =
          run (P ++ [fl]) fs post request (some fl) true flExists newFl newFl2 deleted := by
        rw [run, run, cons_append, walk_left ho htype hpass (by simp only; omega) hend hlt]
        simp only [if_pos hu]
      rw [happ] at hnd
      have hlate : LateUnlock (P ++ [fl]) fs post request (some fl) true flExists
          (run (P ++ [fl]) fs post request (some fl) true flExists newFl newFl2 deleted) :=
        run_unlck_late hok.tail hown' hpost hu hnd (fun l hl => hpass.trans (hok.lt hl).le) (by simp)
          (by simp)
      rw [hrun]
      obtain ⟨hret, own, hposix, hown₁, hsegs⟩ | ⟨-, -, hadded, -⟩ := hlate
      · refine .inl ⟨hret, { fl with stop := request.start - 1 } :: own, ?_, ?_, ?_⟩
        · rw [hposix, cutLeft_concat hnd]
          simp
        · exact forall_mem_cons.mpr ⟨ho, hown₁⟩
        · rw [hbelow, map_cons, map_cons, hsegs, above_cons_of_le (by omega)]
          rfl
      · cases hadded
    · -- the request lies inside of the lock
      have hend := not_le.mp hend
      have hndfs := nodup_ids_mid hnd
      have hcut := (Extended.intoRight (R := request) hok hndfs htype (by omega) hend).cut
      rw [map_some, writeTo_cons_self rfl (nodup_cons.mp hndfs).1] at hcut
      rw [run, cons_append, walk_right ho htype hpass (by simp only; omega) hend]
      simp only [if_pos hlt, if_pos hu]
      have hsplits : Walk.splits ⟨P, request, some fl, some fl, true, newFl, deleted⟩ = true := by
        simp [Walk.splits]
      rw [finish, hsplits, if_pos (show true = true from rfl)]
      cases newFl2 with
      | none => exact .inr (.inr ⟨rfl, rfl, Nat.zero_lt_of_lt hlt, rfl⟩)
      | some id2 =>
        have hid2 := hnew2 id2 rfl
        simp only [ids_append, ids_cons, cons_append] at hnd hid2
        have hfl := (nodup_cons.mp (nodup_middle.mp hnd)).1
        rw [if_neg (by simp)]
        refine .inl ⟨rfl, { fl with id := id2, stop := request.start - 1 } ::
          { fl with start := request.stop + 1 } :: fs, ?_, ?_, ?_⟩
        · rw [trim_split rfl rfl]
          · simp
          · simpa using hfl
          · simpa using hid2
        · simp only [mem_cons, forall_eq_or_imp]
          exact ⟨ho, ho, hown'⟩
        · rw [hbelow, map_cons, hcut]
          rfl

end Unlock

end Cupcake.Fs.Locks
