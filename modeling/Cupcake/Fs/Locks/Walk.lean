import Cupcake.Lib.Splice
import Cupcake.Fs.Locks.Defs

/-! What the loop of `__posix_lock_file` does to the locks of one owner, as segments of the file
with a type: it splices the request in, or cuts its range out. -/

namespace Cupcake.Fs.Locks

open List Segment

variable {O : Type*} {fl l : FileLock O} {fls fs rest post P : List (FileLock O)}
  {w : Walk O} {request R : FileLock O} {p : Option ℕ} {f : FileLock O → FileLock O}

/-! ## Writing through pointers -/

def ids (fls : List (FileLock O)) : List ℕ := fls.map FileLock.id

@[simp] theorem ids_append (fls fls' : List (FileLock O)) : ids (fls ++ fls') = ids fls ++ ids fls' :=
  map_append

@[simp] theorem ids_cons (fl : FileLock O) (fls : List (FileLock O)) :
    ids (fl :: fls) = fl.id :: ids fls := rfl

@[simp] theorem ids_nil : ids ([] : List (FileLock O)) = [] := rfl

@[simp] theorem writeTo_append (fls fls' : List (FileLock O)) :
    writeTo p f (fls ++ fls') = writeTo p f fls ++ writeTo p f fls' :=
  map_append

@[simp] theorem writeTo_none : writeTo none f fls = fls := by
  simp [writeTo]

theorem writeTo_of_notMem (fls : List (FileLock O)) (h : ∀ id ∈ p, id ∉ ids fls) :
    writeTo p f fls = fls := by
  conv_rhs => rw [← map_id fls]
  apply map_congr_left
  intro fl hfl
  exact if_neg fun hp => h fl.id hp (mem_map_of_mem hfl)

theorem ids_writeTo (hf : ∀ l, (f l).id = l.id) : ids (writeTo p f fls) = ids fls := by
  unfold ids writeTo
  rw [map_map]
  apply map_congr_left
  intro fl _
  simp only [Function.comp_apply]
  split_ifs
  · exact hf fl
  · rfl

theorem writeTo_cons_self {id : ℕ} (hid : fl.id = id) (h : id ∉ ids fls) :
    writeTo (some id) f (fl :: fls) = f fl :: fls := by
  have htail := writeTo_of_notMem (p := some id) (f := f) fls (by simpa using h)
  unfold writeTo at htail ⊢
  rw [map_cons, if_pos (congrArg some hid.symm), htail]

/-! ## Segments -/

def seg (fl : FileLock O) : Segment Ltype := ⟨fl.start, fl.stop + 1 - fl.start, fl.type⟩

structure OwnOk (fls : List (FileLock O)) : Prop where
  wf : Wf (offsetMax + 1) (fls.map seg)
  apart : (fls.map seg).Pairwise Apart
  held : ∀ fl ∈ fls, fl.type ≠ .unlck

namespace OwnOk

theorem tail (h : OwnOk (fl :: fls)) : OwnOk fls :=
  ⟨(wf_cons.mp h.wf).2.2, (pairwise_cons.mp h.apart).2, fun l hl => h.held l (.tail _ hl)⟩

section

variable (h : OwnOk fls) (hfl : fl ∈ fls)

include h hfl

theorem le : fl.start ≤ fl.stop := by
  have := (h.wf.good (seg fl) (mem_map_of_mem hfl)).1
  simp only [seg] at this
  omega

theorem seg_end : (seg fl).base + (seg fl).size = fl.stop + 1 := by
  have := h.le hfl
  simp only [seg]
  omega

theorem stop_le : fl.stop ≤ offsetMax := by
  have := (h.wf.good (seg fl) (mem_map_of_mem hfl)).2
  rw [h.seg_end hfl] at this
  exact Nat.le_of_succ_le_succ this

end

theorem lt (h : OwnOk (fl :: fls)) (hl : l ∈ fls) : fl.stop < l.start := by
  have := (wf_cons.mp h.wf).2.1 (seg l) (mem_map_of_mem hl)
  rw [h.seg_end (mem_cons_self ..)] at this
  exact this

end OwnOk

/-- How the loop ends once the request is in the list as `R`: it has grown to `n`, and `rest` is
what is left of `fs`, of which `right` has to be cut. -/
structure Extended (R : FileLock O) (fs rest : List (FileLock O)) (right : Option (FileLock O))
    (n : ℕ) : Prop where
  reaches : Reaches R.type (R.stop + 1) (n + 1) (fs.map seg)
  suffix : rest <:+ fs
  mem : ∀ r ∈ right, r ∈ rest
  cut : (writeTo (right.map (·.id)) (fun r => { r with start := n + 1 }) rest).map seg =
    above (n + 1) (fs.map seg)

namespace Extended

variable {right : Option (FileLock O)} {n : ℕ}

theorem congr {R' : FileLock O} (h : Extended R fs rest right n) (ht : R'.type = R.type)
    (hs : R'.stop = R.stop) : Extended R' fs rest right n :=
  ⟨ht ▸ hs ▸ h.reaches, h.suffix, h.mem, h.cut⟩

theorem nil (R : FileLock O) : Extended R [] [] none R.stop :=
  ⟨.nil .., suffix_rfl, by simp, rfl⟩

section

variable (hok : OwnOk (fl :: fs))

include hok

theorem stop (h : R.stop < fl.start) (ht : R.type = fl.type → R.stop + 1 < fl.start) :
    Extended R (fl :: fs) (fl :: fs) none R.stop := by
  refine ⟨.beyond hok.wf h fun hv => ht hv.symm, suffix_rfl, by simp, ?_⟩
  rw [Option.map_none, writeTo_none]
  refine (above_of_le hok.wf fun r hr => ?_).symm
  obtain ⟨l, hl, rfl⟩ := mem_map.mp hr
  obtain rfl | hl := mem_cons.mp hl
  · exact h
  · have := hok.lt hl
    have := hok.le (mem_cons_self ..)
    simp only [seg]
    omega

theorem intoRight (hnd : (ids (fl :: fs)).Nodup) (ht : R.type ≠ fl.type)
    (h : fl.start ≤ R.stop) (h' : R.stop < fl.stop) :
    Extended R (fl :: fs) (fl :: fs) (some fl) R.stop := by
  have hend := hok.seg_end (mem_cons_self ..)
  refine ⟨.cut (by simp only [seg]; omega) (by omega) ht.symm, suffix_rfl, by simp, ?_⟩
  rw [Option.map_some, writeTo_cons_self rfl (nodup_cons.mp hnd).1, map_cons, map_cons,
    above_cons_of_lt (by omega), hend, above_of_le hok.tail.wf fun r hr => ?_]
  · have hbase : max (seg fl).base (R.stop + 1) = R.stop + 1 := by
      simp only [seg]
      omega
    rw [hbase]
    rfl
  · obtain ⟨l, hl, rfl⟩ := mem_map.mp hr
    have := hok.lt hl
    simp only [seg]
    omega

theorem join (ht : R.type = fl.type) (h : fl.start ≤ R.stop + 1)
    (hext : Extended { R with stop := max fl.stop R.stop } fs rest right n) :
    Extended R (fl :: fs) rest right n := by
  have hend := hok.seg_end (mem_cons_self ..)
  have hle := hext.reaches.le
  simp only at hle
  refine ⟨.join h ht.symm ?_, hext.suffix.trans (suffix_cons ..), hext.mem, ?_⟩
  · rw [hend, show max (R.stop + 1) (fl.stop + 1) = max fl.stop R.stop + 1 by omega]
    exact hext.reaches
  · rw [hext.cut, map_cons, above_cons_of_le (by omega)]

theorem cover (h : fl.stop ≤ R.stop) (hext : Extended R fs rest right n) :
    Extended R (fl :: fs) rest right n := by
  have hend := hok.seg_end (mem_cons_self ..)
  have hle := hext.reaches.le
  refine ⟨.cover (by omega) hext.reaches, hext.suffix.trans (suffix_cons ..), hext.mem, ?_⟩
  rw [hext.cut, map_cons, above_cons_of_le (by omega)]

end

end Extended

/-! ## The loop -/

variable [DecidableEq O]

theorem walk_other (h : ∀ fl ∈ fls, fl.owner ≠ w.request.owner) : walk fls w = (w, fls, true) := by
  cases fls with
  | nil => exact walk_nil w
  | cons fl fls =>
    have := h fl (mem_cons_self ..)
    rw [walk, if_pos (by simpa [posixSameOwner] using this.symm)]

section Branches

variable (ho : fl.owner = w.request.owner)

include ho

theorem walk_pass (h : fl.stop < w.request.start)
    (h' : w.request.type = fl.type → fl.stop + 1 < w.request.start) :
    walk (fl :: fls) w = walk fls { w with passed := w.passed ++ [fl] } := by
  rw [walk, if_neg (by simp [posixSameOwner, ho])]
  by_cases ht : w.request.type = fl.type
  · have := h' ht
    rw [if_pos ht, if_pos (by omega)]
  · rw [if_neg ht, if_pos h]

theorem walk_stop (h : w.request.start ≤ fl.stop) (h' : w.request.stop < fl.start)
    (ht : w.request.type = fl.type → w.request.stop + 1 < fl.start) :
    walk (fl :: fls) w = (w, fl :: fls, true) := by
  rw [walk, if_neg (by simp [posixSameOwner, ho])]
  by_cases htype : w.request.type = fl.type
  · have := ht htype
    rw [if_pos htype, if_neg (by omega), if_pos (by omega)]
  · rw [if_neg htype, if_neg (by omega), if_pos h']

section

variable (ht : w.request.type = fl.type) (h : w.request.start ≤ fl.stop + 1)
  (h' : fl.start ≤ w.request.stop + 1)

include ht h h'

theorem walk_join (hadded : w.added = false) : walk (fl :: fls) w = walk fls { w with
      passed := w.passed ++ [{ fl with
        start := min fl.start w.request.start, stop := max fl.stop w.request.stop }]
      request := { fl with
        start := min fl.start w.request.start, stop := max fl.stop w.request.stop }
      added := true } := by
  rw [walk, if_neg (by simp [posixSameOwner, ho]), if_pos ht, if_neg (by omega), if_neg (by omega)]
  simp only [hadded]
  rfl

theorem walk_join_added (hadded : w.added = true) : walk (fl :: fls) w = walk fls { w with
      passed := writeTo (some w.request.id) (fun l => { l with
        start := min fl.start w.request.start, stop := max fl.stop w.request.stop }) w.passed
      request := { w.request with
        start := min fl.start w.request.start, stop := max fl.stop w.request.stop }
      deleted := fl.id :: w.deleted } := by
  rw [walk, if_neg (by simp [posixSameOwner, ho]), if_pos ht, if_neg (by omega), if_neg (by omega)]
  simp only [hadded]
  rfl

end

section Overlap

variable (ht : w.request.type ≠ fl.type) (h : w.request.start ≤ fl.stop)
  (h' : fl.start ≤ w.request.stop)

include ht h h'

theorem walk_right (hend : w.request.stop < fl.stop) :
    walk (fl :: fls) w =
      ({ w with
          left := if fl.start < w.request.start then some fl else w.left
          right := some fl
          added := if w.request.type = .unlck then true else w.added }, fl :: fls, true) := by
  rw [walk, if_neg (by simp [posixSameOwner, ho]), if_neg ht, if_neg (by omega), if_neg (by omega)]
  rw [if_pos hend]

section

variable (hend : fl.stop ≤ w.request.stop)

include hend

theorem walk_left (hlt : fl.start < w.request.start) : walk (fl :: fls) w = walk fls { w with
      passed := w.passed ++ [fl]
      left := some fl
      added := if w.request.type = .unlck then true else w.added } := by
  rw [walk, if_neg (by simp [posixSameOwner, ho]), if_neg ht, if_neg (by omega), if_neg (by omega)]
  rw [if_neg (by omega), if_neg (by omega), if_pos hlt]

theorem walk_delete (hle : w.request.start ≤ fl.start)
    (hadded : w.request.type = .unlck ∨ w.added = true) :
    walk (fl :: fls) w = walk fls { w with added := true, deleted := fl.id :: w.deleted } := by
  have hadd : (if w.request.type = .unlck then true else w.added) = true := by
    split_ifs with hu
    · rfl
    · exact hadded.resolve_left hu
  rw [walk, if_neg (by simp [posixSameOwner, ho]), if_neg ht, if_neg (by omega), if_neg (by omega)]
  simp only [hadd]
  rw [if_neg (by omega), if_pos hle, if_pos trivial, if_neg (by omega)]

theorem walk_replace (hle : w.request.start ≤ fl.start)
    (hu : w.request.type ≠ .unlck) (hadded : w.added = false) :
    walk (fl :: fls) w =
      match w.newFl with
      | none => (w, fl :: fls, false)
      | some id => walk fls { w with
          passed := w.passed ++ [{ w.request with id := id }]
          request := { w.request with id := id }
          added := true
          newFl := none
          deleted := fl.id :: w.deleted } := by
  rw [walk, if_neg (by simp [posixSameOwner, ho]), if_neg ht, if_neg (by omega), if_neg (by omega)]
  simp only [if_neg hu]
  have hleft : ¬ fl.start < w.request.start := by omega
  rw [if_neg (by omega), if_pos hle, if_neg (by simp [hadded])]
  cases w with
  | mk _ _ _ _ _ newFl _ => cases newFl <;> simp only [if_neg hleft]

end

end Overlap

end Branches

theorem walk_added (hok : OwnOk fs) (hown : ∀ l ∈ fs, l.owner = R.owner)
    (hpost : ∀ l ∈ post, l.owner ≠ R.owner) (hnd : (ids fs).Nodup) (ht : R.type ≠ .unlck)
    (hP : R.id ∉ ids P) (hstart : ∀ l ∈ fs, R.start ≤ l.start) (left : Option (FileLock O))
    (newFl : Option ℕ) (deleted : List ℕ) :
    ∃ n rest right deleted',
      walk (fs ++ post) ⟨P ++ [R], R, left, none, true, newFl, deleted⟩ =
        (⟨P ++ [{ R with stop := n }], { R with stop := n }, left, right, true, newFl, deleted'⟩,
          rest ++ post, true) ∧
      Extended R fs rest right n := by
  induction fs generalizing R deleted with
  | nil => exact ⟨R.stop, [], none, deleted, walk_other hpost, .nil R⟩
  | cons fl fs ih =>
    have hself := mem_cons_self (a := fl) (l := fs)
    have ho := hown fl hself
    have hfl := hok.le hself
    have hs := hstart fl hself
    have hnd' := (nodup_cons.mp hnd).2
    have hown' : ∀ l ∈ fs, l.owner = R.owner := fun l hl => hown l (.tail _ hl)
    have hstart' : ∀ l ∈ fs, R.start ≤ l.start := fun l hl => hstart l (.tail _ hl)
    by_cases hbeyond : R.stop < fl.start ∧ (R.type = fl.type → R.stop + 1 < fl.start)
    · exact ⟨R.stop, fl :: fs, none, deleted, walk_stop ho (by simp only; omega) hbeyond.1 hbeyond.2,
        .stop hok hbeyond.1 hbeyond.2⟩
    by_cases htype : R.type = fl.type
    · have hjoin : fl.start ≤ R.stop + 1 := by
        by_contra hlt
        exact hbeyond ⟨by omega, fun _ => by omega⟩
      obtain ⟨n, rest, right, deleted', hwalk, hext⟩ := ih (R := { R with stop := max fl.stop R.stop })
        hok.tail hown' hpost hnd' ht hP hstart' (fl.id :: deleted)
      refine ⟨n, rest, right, deleted', ?_, hext.join hok htype hjoin⟩
      rw [cons_append, walk_join_added ho htype (by simp only; omega) hjoin rfl, ← hwalk]
      simp only [writeTo_append, Nat.min_eq_right hs]
      rw [writeTo_of_notMem P (by simpa using hP), writeTo_cons_self rfl (by simp)]
    · have hover : fl.start ≤ R.stop := by
        by_contra hlt
        exact hbeyond ⟨by omega, fun h => absurd h htype⟩
      have hlow : R.start ≤ fl.stop := hs.trans hfl
      rw [cons_append]
      by_cases hend : R.stop < fl.stop
      · refine ⟨R.stop, fl :: fs, some fl, deleted, ?_, .intoRight hok hnd htype hover hend⟩
        rw [walk_right ho htype hlow hover hend]
        simp only [if_neg (not_lt.mpr hs), ite_self]
        rfl
      · rw [walk_delete ho htype hlow hover (not_lt.mp hend) hs (.inr rfl)]
        obtain ⟨n, rest, right, deleted', hwalk, hext⟩ :=
          ih hok.tail hown' hpost hnd' ht hP hstart' (fl.id :: deleted)
        exact ⟨n, rest, right, deleted', hwalk, hext.cover hok (not_lt.mp hend)⟩

end Cupcake.Fs.Locks
