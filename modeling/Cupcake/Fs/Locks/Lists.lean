import Cupcake.Fs.Locks.Apply
import Cupcake.Fs.Locks.Identity

/-! The lists of the inodes as maps from owners and offsets to lock types, over whole runs. -/

namespace Cupcake.Fs.Locks

open Segment Function

variable {I O : Type*} [DecidableEq I] [DecidableEq O] {fl l : FileLock O}
  {posix fs own' post P : List (FileLock O)} {request : FileLock O} {o : O} {x : ℕ}

def own (posix : List (FileLock O)) (o : O) : List (FileLock O) := posix.filter fun fl => fl.owner = o

def held (posix : List (FileLock O)) (o : O) (x : ℕ) : Option Ltype := lookup ((own posix o).map seg) x

structure ListOk (posix : List (FileLock O)) : Prop where
  grouped : ∀ o, own posix o <:+: posix
  ownOk : ∀ o, OwnOk (own posix o)
  compatible : ∀ fl ∈ posix, ∀ fl' ∈ posix, posixLocksConflict fl fl' = false
  nodup : (ids posix).Nodup

theorem mem_own : fl ∈ own posix o ↔ fl ∈ posix ∧ fl.owner = o := by
  simp [own]

theorem own_append (A B : List (FileLock O)) : own (A ++ B) o = own A o ++ own B o :=
  List.filter_append ..

theorem own_of_forall (h : ∀ l ∈ posix, l.owner = o) : own posix o = posix :=
  List.filter_eq_self.mpr fun l hl => by simp [h l hl]

theorem own_of_forall_ne (h : ∀ l ∈ posix, l.owner ≠ o) : own posix o = [] :=
  List.filter_eq_nil_iff.mpr fun l hl => by simp [h l hl]

/-! ## Conflicts -/

theorem posixLocksConflict_eq_false {fl fl' : FileLock O} : posixLocksConflict fl fl' = false ↔
    fl.owner = fl'.owner ∨ fl.stop < fl'.start ∨ fl'.stop < fl.start ∨
      (fl.type ≠ .wrlck ∧ fl'.type ≠ .wrlck) := by
  unfold posixLocksConflict posixSameOwner locksOverlap locksConflict
  by_cases ho : fl.owner = fl'.owner
  · simp [ho]
  · simp only [ho, decide_false, Bool.false_eq_true, if_false, false_or, Bool.not_eq_true',
      Bool.and_eq_false_iff, decide_eq_false_iff_not, not_le, ge_iff_le]
    split_ifs with h₁ h₂ h₃
    · simp only [true_iff]
      exact or_assoc.mp (.inl h₁)
    · simp_all
    · simp_all
    · simp_all

theorem held_eq_some (hown : OwnOk (own posix o)) {t : Ltype} : held posix o x = some t ↔
    ∃ fl ∈ posix, fl.owner = o ∧ fl.start ≤ x ∧ x ≤ fl.stop ∧ fl.type = t := by
  constructor
  · intro h
    obtain ⟨r, hr, hx, rfl⟩ := exists_of_lookup h
    obtain ⟨fl, hfl, rfl⟩ := List.mem_map.mp hr
    rw [hown.seg_end hfl] at hx
    obtain ⟨hmem, ho⟩ := mem_own.mp hfl
    exact ⟨fl, hmem, ho, hx.1, Nat.lt_succ_iff.mp hx.2, rfl⟩
  · rintro ⟨fl, hmem, ho, hstart, hstop, rfl⟩
    have hfl := mem_own.mpr ⟨hmem, ho⟩
    apply hown.wf.lookup_of_mem (List.mem_map_of_mem hfl)
    rw [hown.seg_end hfl]
    exact ⟨hstart, Nat.lt_succ_iff.mpr hstop⟩

def Compatible (h : O → ℕ → Option Ltype) : Prop :=
  ∀ o o' x t t', o ≠ o' → h o x = some t → h o' x = some t' → t ≠ .wrlck ∧ t' ≠ .wrlck

theorem compatible_iff (hown : ∀ o, OwnOk (own posix o)) :
    (∀ fl ∈ posix, ∀ fl' ∈ posix, posixLocksConflict fl fl' = false) ↔ Compatible (held posix) := by
  constructor
  · intro h o o' x t t' hne ht ht'
    obtain ⟨fl, hfl, rfl, hs, he, rfl⟩ := (held_eq_some (hown o)).mp ht
    obtain ⟨fl', hfl', rfl, hs', he', rfl⟩ := (held_eq_some (hown o')).mp ht'
    rcases posixLocksConflict_eq_false.mp (h fl hfl fl' hfl') with heq | hlt | hlt | hread
    · exact absurd heq hne
    · omega
    · omega
    · exact hread
  · intro h fl hfl fl' hfl'
    by_contra hcon
    have hcon := mt posixLocksConflict_eq_false.mpr hcon
    simp only [not_or, not_lt] at hcon
    obtain ⟨hne, hle, hle', hread⟩ := hcon
    have hself := (hown fl.owner).le (mem_own.mpr ⟨hfl, rfl⟩)
    have hself' := (hown fl'.owner).le (mem_own.mpr ⟨hfl', rfl⟩)
    -- both hold the later of the two starts
    apply hread
    apply h fl.owner fl'.owner (max fl.start fl'.start) fl.type fl'.type hne
    · exact (held_eq_some (hown _)).mpr ⟨fl, hfl, rfl, le_max_left .., max_le hself hle, rfl⟩
    · exact (held_eq_some (hown _)).mpr ⟨fl', hfl', rfl, le_max_right .., max_le hle' hself', rfl⟩

/-! ## Replacing the locks of one owner -/

theorem infix_of_between {α : Type*} {A B C L : List α} {p : α → Prop} (hB : B ≠ [])
    (hnot : ∀ b ∈ B, ¬ p b) (hL : ∀ a ∈ L, p a) (h : L <:+: A ++ (B ++ C)) :
    L <:+: A ∨ L <:+: C := by
  by_cases hnil : L = []
  · rw [hnil]
    exact .inl List.nil_infix
  have hpos := List.length_pos_iff.mpr hnil
  obtain ⟨s, t, hst⟩ := h
  by_cases hA : (s ++ L).length ≤ A.length
  · left
    have hpre : s ++ L <+: A :=
      List.prefix_of_prefix_length_le (hst ▸ List.prefix_append ..) (List.prefix_append ..) hA
    exact (List.suffix_append s L).isInfix.trans hpre.isInfix
  by_cases hC : (L ++ t).length ≤ C.length
  · right
    have hsuf : L ++ t <:+ C := by
      have hwhole : L ++ t <:+ A ++ (B ++ C) := by
        rw [← hst, List.append_assoc]
        exact List.suffix_append ..
      apply List.suffix_of_suffix_length_le hwhole _ hC
      rw [← List.append_assoc]
      exact List.suffix_append ..
    exact (List.prefix_append L t).isInfix.trans hsuf.isInfix
  -- otherwise the two overlap
  exfalso
  have hlen := congrArg List.length hst
  have hBpos := List.length_pos_iff.mpr hB
  simp only [List.length_append] at hlen hA hC
  obtain ⟨k, hk₁, hk₂, hk₃, hk₄⟩ : ∃ k, s.length ≤ k ∧ k < s.length + L.length ∧ A.length ≤ k ∧
      k < A.length + B.length := ⟨max s.length A.length, by omega⟩
  have hget : (s ++ L ++ t)[k]? = (A ++ (B ++ C))[k]? := by rw [hst]
  rw [List.append_assoc, List.getElem?_append_right hk₁, List.getElem?_append_left (by omega),
    List.getElem?_append_right hk₃, List.getElem?_append_left (by omega),
    List.getElem?_eq_getElem (by omega), List.getElem?_eq_getElem (by omega)] at hget
  have hmem := List.getElem_mem (l := B) (n := k - A.length) (by omega)
  rw [← Option.some.inj hget] at hmem
  exact hnot _ hmem (hL _ (List.getElem_mem _))

structure Around (posix : List (FileLock O)) (o : O) (P post : List (FileLock O)) : Prop where
  eq : posix = P ++ (own posix o ++ post)
  before : ∀ l ∈ P, l.owner ≠ o
  after : ∀ l ∈ post, l.owner ≠ o
  nil : own posix o = [] → post = []

theorem ListOk.around (h : ListOk posix) (o : O) :
    ∃ post, Around posix o (posix.takeWhile fun fl => fl.owner ≠ o) post ∧
      posix.dropWhile (fun fl => fl.owner ≠ o) = own posix o ++ post := by
  obtain ⟨P, post, hst⟩ := h.grouped o
  rw [List.append_assoc] at hst
  -- the owner has no other lock
  have hown : own P o ++ (own posix o ++ own post o) = own posix o := by
    conv_rhs => rw [← hst, own_append, own_append]
    rw [own_of_forall fun l (hl : l ∈ own posix o) => (mem_own.mp hl).2]
  have hlen := congrArg List.length hown
  simp only [List.length_append] at hlen
  have hP : ∀ l ∈ P, l.owner ≠ o := by
    intro l hl ho
    have : 0 < (own P o).length := List.length_pos_of_mem (mem_own.mpr ⟨hl, ho⟩)
    omega
  have hpost : ∀ l ∈ post, l.owner ≠ o := by
    intro l hl ho
    have : 0 < (own post o).length := List.length_pos_of_mem (mem_own.mpr ⟨hl, ho⟩)
    omega
  cases hnil : own posix o with
  | nil =>
    have hall : ∀ l ∈ posix, l.owner ≠ o := by
      intro l hl ho
      have := mem_own.mpr ⟨hl, ho⟩
      rw [hnil] at this
      cases this
    have hdec : ∀ l ∈ posix, decide (l.owner ≠ o) = true := fun l hl => decide_eq_true (hall l hl)
    have htake : (posix ++ []).takeWhile (fun fl : FileLock O => decide (fl.owner ≠ o)) = posix ++ [] :=
      List.takeWhile_append_of_pos hdec
    have hdrop : (posix ++ []).dropWhile (fun fl : FileLock O => decide (fl.owner ≠ o)) = [] :=
      List.dropWhile_append_of_pos hdec
    rw [List.append_nil] at htake hdrop
    refine ⟨[], ⟨?_, ?_, by simp, fun _ => rfl⟩, hdrop⟩
    · rw [htake, hnil]
      simp
    · rw [htake]
      exact hall
  | cons fl fls =>
    have hfl : fl.owner = o := (mem_own.mp (hnil ▸ List.mem_cons_self ..)).2
    have hdec : ∀ l ∈ P, decide (l.owner ≠ o) = true := fun l hl => decide_eq_true (hP l hl)
    have htake : (P ++ (own posix o ++ post)).takeWhile
      (fun fl : FileLock O => decide (fl.owner ≠ o)) = _ :=
      List.takeWhile_append_of_pos hdec
    have hdrop : (P ++ (own posix o ++ post)).dropWhile
      (fun fl : FileLock O => decide (fl.owner ≠ o)) = _ :=
      List.dropWhile_append_of_pos hdec
    rw [hst, hnil, List.cons_append, List.takeWhile_cons_of_neg (by simp [hfl]),
      List.append_nil] at htake
    rw [hst, hnil, List.cons_append, List.dropWhile_cons_of_neg (by simp [hfl])] at hdrop
    rw [hnil] at hst
    refine ⟨post, ⟨?_, ?_, hpost, ?_⟩, hdrop⟩
    · rw [htake, hnil, hst]
    · rw [htake]
      exact hP
    · rw [hnil]
      intro h
      cases h

section Replace

variable (h : ListOk posix) (ha : Around posix o P post) (hown : ∀ l ∈ own', l.owner = o)

include ha hown

theorem own_replace_self : own (P ++ (own' ++ post)) o = own' := by
  rw [own_append, own_append, own_of_forall_ne ha.before, own_of_forall_ne ha.after,
    own_of_forall hown]
  simp

theorem own_replace {o' : O} (ho : o' ≠ o) : own (P ++ (own' ++ post)) o' = own posix o' := by
  have hself : ∀ l ∈ own posix o, l.owner ≠ o' := fun l hl => (mem_own.mp hl).2 ▸ ho.symm
  have hself' : ∀ l ∈ own', l.owner ≠ o' := fun l hl => hown l hl ▸ ho.symm
  conv_rhs => rw [ha.eq]
  rw [own_append, own_append, own_append, own_append, own_of_forall_ne hself,
    own_of_forall_ne hself']

theorem held_replace {f : ℕ → Option Ltype} (hf : ∀ x, lookup (own'.map seg) x = f x) (o' : O)
    (x : ℕ) : held (P ++ (own' ++ post)) o' x = if o' = o then f x else held posix o' x := by
  unfold held
  by_cases ho : o' = o
  · rw [if_pos ho, ho, own_replace_self ha hown]
    exact hf x
  · rw [if_neg ho, own_replace ha hown ho]

include h

theorem grouped_replace (o' : O) : own (P ++ (own' ++ post)) o' <:+: P ++ (own' ++ post) := by
  by_cases ho : o' = o
  · rw [ho, own_replace_self ha hown]
    exact ⟨P, post, by simp⟩
  · rw [own_replace ha hown ho]
    have hinf : own posix o' <:+: P ++ (own posix o ++ post) :=
      (h.grouped o').trans (by rw [← ha.eq])
    have hcases : own posix o' <:+: P ∨ own posix o' <:+: post := by
      by_cases hnil : own posix o = []
      · rw [hnil, ha.nil hnil, List.append_nil, List.append_nil] at hinf
        exact .inl hinf
      · exact infix_of_between (p := fun l => l.owner = o') hnil
          (fun l hl => (mem_own.mp hl).2 ▸ Ne.symm ho) (fun l hl => (mem_own.mp hl).2) hinf
    obtain hinf | hinf := hcases
    · exact hinf.trans (List.prefix_append ..).isInfix
    · exact hinf.trans ((List.suffix_append ..).trans (List.suffix_append ..)).isInfix

theorem ListOk.replace (hok : OwnOk own') (hcomp : Compatible (held (P ++ (own' ++ post))))
    (hnd : (ids (P ++ (own' ++ post))).Nodup) : ListOk (P ++ (own' ++ post)) := by
  have hall : ∀ o', OwnOk (own (P ++ (own' ++ post)) o') := by
    intro o'
    by_cases ho : o' = o
    · rw [ho, own_replace_self ha hown]
      exact hok
    · rw [own_replace ha hown ho]
      exact h.ownOk o'
  exact ⟨grouped_replace h ha hown, hall, (compatible_iff hall).mpr hcomp, hnd⟩

end Replace

/-! ## Requests -/

structure Valid (request : FileLock O) : Prop where
  le : request.start ≤ request.stop
  top : request.stop ≤ offsetMax

def Ltype.granted : Ltype → Option Ltype
  | .unlck => none
  | t => some t

def Overwritten (request : FileLock O) (h h' : O → ℕ → Option Ltype) : Prop :=
  ∀ o x, h' o x = if o = request.owner ∧ request.start ≤ x ∧ x ≤ request.stop
    then request.type.granted else h o x

theorem granted_eq_some {t t' : Ltype} (h : t.granted = some t') : t ≠ .unlck ∧ t' = t := by
  cases t with
  | unlck => cases h
  | rdlck =>
    cases h
    exact ⟨by simp, rfl⟩
  | wrlck =>
    cases h
    exact ⟨by simp, rfl⟩

theorem Overwritten.compatible {h h' : O → ℕ → Option Ltype} (hover : Overwritten request h h')
    (hc : Compatible h) (hnc : request.type ≠ .unlck → ∀ o x t, request.owner ≠ o →
      request.start ≤ x → x ≤ request.stop → h o x = some t →
      request.type ≠ .wrlck ∧ t ≠ .wrlck) : Compatible h' := by
  intro o o' x t t' hne ht ht'
  rw [hover] at ht ht'
  split_ifs at ht ht' with h₁ h₂ h₂
  · exact absurd (h₁.1.trans h₂.1.symm) hne
  · obtain ⟨hu, rfl⟩ := granted_eq_some ht
    exact hnc hu o' x t' (h₁.1 ▸ hne) h₁.2.1 h₁.2.2 ht'
  · obtain ⟨hu, rfl⟩ := granted_eq_some ht'
    exact (hnc hu o x t (h₂.1 ▸ hne.symm) h₂.2.1 h₂.2.2 ht).symm
  · exact hc o o' x t t' hne ht ht'

omit [DecidableEq O] in
theorem Spliced.ownOk (h : Spliced request fs own') (hok : OwnOk fs) (hv : Valid request)
    (ht : request.type ≠ .unlck) : OwnOk own' ∧ ∀ x, lookup (own'.map seg) x =
      if request.start ≤ x ∧ x ≤ request.stop then request.type.granted
      else lookup (fs.map seg) x := by
  obtain ⟨-, lo, hi, hsplice, hsegs⟩ := h
  have hlt : request.start < request.stop + 1 := Nat.lt_succ_of_le hv.le
  refine ⟨⟨?_, ?_, ?_⟩, fun x => ?_⟩
  · rw [hsegs]
    exact hsplice.wf_splice hok.wf hlt (Nat.succ_le_succ hv.top)
  · rw [hsegs]
    exact hsplice.splice_apart hok.wf hok.apart hlt
  · intro fl hfl
    have hmem := List.mem_map_of_mem (f := seg) hfl
    rw [hsegs] at hmem
    rcases attr_of_mem_splice hmem with heq | ⟨r, hr, heq⟩
    · exact fun h => ht (heq ▸ h)
    · obtain ⟨l, hl, rfl⟩ := List.mem_map.mp hr
      exact fun h => hok.held l hl (heq.symm.trans h)
  · rw [hsegs, hsplice.lookup_splice hlt]
    have hgrant : request.type.granted = some request.type := by
      cases h : request.type <;> simp_all [Ltype.granted]
    rw [hgrant]
    simp only [Nat.lt_succ_iff]

omit [DecidableEq O] in
theorem Erased.ownOk (h : Erased request fs own') (hok : OwnOk fs) (hv : Valid request)
    (hu : request.type = .unlck) : OwnOk own' ∧ ∀ x, lookup (own'.map seg) x =
      if request.start ≤ x ∧ x ≤ request.stop then request.type.granted
      else lookup (fs.map seg) x := by
  obtain ⟨-, hsegs⟩ := h
  have hlt : request.start < request.stop + 1 := Nat.lt_succ_of_le hv.le
  refine ⟨⟨?_, ?_, ?_⟩, fun x => ?_⟩
  · rw [hsegs]
    exact hok.wf.outside hlt.le
  · rw [hsegs]
    exact outside_apart hok.apart hlt
  · intro fl hfl
    have hmem := List.mem_map_of_mem (f := seg) hfl
    rw [hsegs] at hmem
    have hattr : ∃ r ∈ fs.map seg, (seg fl).attr = r.attr := by
      rcases List.mem_append.mp hmem with hb | ha
      · obtain ⟨r, hr, -, heq⟩ := mem_below hb
        exact ⟨r, hr, by rw [heq]⟩
      · obtain ⟨r, hr, -, heq⟩ := mem_above ha
        exact ⟨r, hr, by rw [heq]⟩
    obtain ⟨r, hr, heq⟩ := hattr
    obtain ⟨l, hl, rfl⟩ := List.mem_map.mp hr
    exact fun h => hok.held l hl (heq.symm.trans h)
  · rw [hsegs, lookup_outside hlt.le, hu]
    simp only [Nat.lt_succ_iff]
    rfl

theorem applyRequest_eq (posix : List (FileLock O)) (request : FileLock O) (flExists : Bool)
    (newFl newFl2 : Option ℕ) {post : List (FileLock O)}
    (hdrop : posix.dropWhile (fun fl => fl.owner ≠ request.owner) = own posix request.owner ++ post) :
    applyRequest posix request flExists newFl newFl2 =
      run (posix.takeWhile fun fl => fl.owner ≠ request.owner) (own posix request.owner) post request
        none false flExists newFl newFl2 [] := by
  have hfun : (fun fl : FileLock O => !posixSameOwner request fl) =
      fun fl => decide (fl.owner ≠ request.owner) := by
    funext fl
    simp [posixSameOwner, eq_comm]
  rw [applyRequest, hfun, hdrop]
  rfl

def Fails (request : FileLock O) (flExists : Bool) (newFl newFl2 : Option ℕ) (ret : Ret) : Prop :=
  (ret = .enolck ∧ (request.type ≠ .unlck ∨ 0 < request.start) ∧ (newFl = none ∨ newFl2 = none)) ∨
  (ret = .enoent ∧ request.type = .unlck ∧ flExists = true)

theorem applyRequest_spec (h : ListOk posix) (hv : Valid request) (flExists : Bool)
    {newFl newFl2 : Option ℕ}
    (hnc : request.type ≠ .unlck → ∀ fl ∈ posix, posixLocksConflict request fl = false)
    (hnew : ∀ id ∈ newFl, id ∉ ids posix)
    (hnew2 : ∀ id ∈ newFl2, id ∉ ids posix ∧ newFl ≠ some id) :
    let out := applyRequest posix request flExists newFl newFl2
    (out.ret = .zero ∧ ListOk out.posix ∧ Overwritten request (held posix) (held out.posix)) ∨
    (Fails request flExists newFl newFl2 out.ret ∧ out.posix = posix) := by
  intro out
  have hkept : (ids out.posix).Nodup := by
    rw [← keys_fst]
    exact (applyRequest_kept posix request flExists h.nodup hnew hnew2).nodup
  obtain ⟨post, ha, hdrop⟩ := h.around request.owner
  have heq := applyRequest_eq posix request flExists newFl newFl2 hdrop
  generalize posix.takeWhile (fun fl => fl.owner ≠ request.owner) = P at ha heq
  have hown : ∀ l ∈ own posix request.owner, l.owner = request.owner := fun l hl => (mem_own.mp hl).2
  have hnd := h.nodup
  rw [ha.eq] at hnd hnew hnew2
  -- a new list of locks of the owner
  have hreplace : ∀ own', out.posix = P ++ (own' ++ post) → (∀ l ∈ own', l.owner = request.owner) →
      (OwnOk own' ∧ ∀ x, lookup (own'.map seg) x =
        if request.start ≤ x ∧ x ≤ request.stop then request.type.granted
        else lookup ((own posix request.owner).map seg) x) →
      ListOk out.posix ∧ Overwritten request (held posix) (held out.posix) := by
    intro own' hposix hown' hok'
    have hover : Overwritten request (held posix) (held out.posix) := by
      intro o x
      rw [hposix, held_replace ha hown' hok'.2]
      by_cases ho : o = request.owner
      · subst ho
        simp [held]
      · simp [ho]
    refine ⟨?_, hover⟩
    have hcomp := hover.compatible ((compatible_iff h.ownOk).mp h.compatible) ?_
    · rw [hposix] at hcomp hkept ⊢
      exact h.replace ha hown' hok'.1 hcomp hkept
    · intro hu o x t hne hs he ht
      obtain ⟨fl, hfl, rfl, hs', he', rfl⟩ := (held_eq_some (h.ownOk o)).mp ht
      rcases posixLocksConflict_eq_false.mp (hnc hu fl hfl) with heq | hlt | hlt | hread
      · exact absurd heq hne
      · omega
      · omega
      · exact hread
  have hposix₀ : P ++ (own posix request.owner ++ post) = posix := ha.eq.symm
  by_cases hu : request.type = .unlck
  · have hout : UnlockOutcome P (own posix request.owner) post request flExists newFl2 out := by
      rw [show out = _ from heq]
      exact run_unlck (h.ownOk request.owner) hown ha.after hu hnd (fun id hid => (hnew2 id hid).1)
        hv.le
    obtain ⟨hret, own', hposix, her⟩ | ⟨hret, hex, hposix⟩ | ⟨hret, hnone, hpos, hposix⟩ := hout
    · exact .inl ⟨hret, hreplace own' hposix her.1 (her.ownOk (h.ownOk _) hv hu)⟩
    · exact .inr ⟨.inr ⟨hret, hu, hex⟩, hposix.trans hposix₀⟩
    · exact .inr ⟨.inl ⟨hret, .inr hpos, .inr hnone⟩, hposix.trans hposix₀⟩
  · have hout : LockOutcome P (own posix request.owner) post request newFl newFl2 out := by
      rw [show out = _ from heq]
      exact run_lock (h.ownOk request.owner) hown ha.after hnd hnew hnew2 hu hv.le
    obtain ⟨hret, own', hposix, hsp⟩ | ⟨hret, hnone, hposix⟩ := hout
    · exact .inl ⟨hret, hreplace own' hposix hsp.1 (hsp.ownOk (h.ownOk _) hv hu)⟩
    · exact .inr ⟨.inl ⟨hret, .inl hu, hnone⟩, hposix.trans hposix₀⟩

/-! ## Runs -/

/-- Every list is in order, and no lock has an identity that is still to come. -/
structure StateOk (s : State I O) : Prop where
  list : ∀ i, ListOk (s.posix i)
  fresh : ∀ i, ∀ fl ∈ s.posix i, fl.id < s.next

def validAction (_ : State I O) : Action I O → Prop
  | .lock _ request _ _ => Valid request
  | .unblock _ => True

theorem listOk_nil : ListOk ([] : List (FileLock O)) :=
  ⟨fun _ => List.nil_infix, fun _ => ⟨wf_nil, .nil, by simp [own]⟩, by simp, List.nodup_nil⟩

omit [DecidableEq I] in
theorem stateOk_empty : StateOk (State.empty : State I O) :=
  ⟨fun _ => listOk_nil, fun _ fl hfl => by cases hfl⟩

omit [DecidableEq O] in
theorem posix_update (s : State I O) (i j : I) (posix : List (FileLock O)) (blocked : List (Waiter O))
    (next : ℕ) : (⟨update s.flctx i (some posix), blocked, next⟩ : State I O).posix j =
      if j = i then posix else s.posix j := by
  unfold State.posix
  by_cases hj : j = i
  · subst hj
    simp
  · simp [hj]

/-- What a call returns and does to the maps of the inode. -/
structure CallOk (s : State I O) (i : I) (request : FileLock O) (flags : Flags) (alloc : Alloc)
    (ret : Ret) (s' : State I O) : Prop where
  state : StateOk s'
  other : ∀ j, j ≠ i → s'.posix j = s.posix j
  success : ret = .zero → flags.access = false →
    Overwritten request (held (s.posix i)) (held (s'.posix i))
  failure : ret ≠ .zero → s'.posix i = s.posix i
  succeeds : alloc.ctx = true → alloc.newFl = true → alloc.newFl2 = true → flags.exist = false →
    (request.type ≠ .unlck → ∀ fl ∈ s.posix i, posixLocksConflict request fl = false) → ret = .zero

variable {s : State I O} {i : I} {flags : Flags} {alloc : Alloc}

theorem StateOk.update (h : StateOk s) (i : I) (hok : ListOk posix) (blocked : List (Waiter O))
    {next : ℕ} (hle : s.next ≤ next) (hfresh : ∀ fl ∈ posix, fl.id < next) :
    StateOk ⟨update s.flctx i (some posix), blocked, next⟩ := by
  refine ⟨fun j => ?_, fun j fl hfl => ?_⟩
  · rw [posix_update]
    split_ifs
    · exact hok
    · exact h.list j
  · rw [posix_update] at hfl
    split_ifs at hfl
    · exact hfresh fl hfl
    · exact (h.fresh j fl hfl).trans_le hle

def firstConflict (posix : List (FileLock O)) (request : FileLock O) : Option (FileLock O) :=
  if request.type = .unlck then none else posix.find? (posixLocksConflict request)

theorem firstConflict_eq_none (h : firstConflict posix request = none) (hu : request.type ≠ .unlck) :
    ∀ fl ∈ posix, posixLocksConflict request fl = false := by
  rw [firstConflict, if_neg hu] at h
  intro fl hfl
  simpa using List.find?_eq_none.mp h fl hfl

theorem firstConflict_eq_some (h : firstConflict posix request = some fl) :
    request.type ≠ .unlck ∧ fl ∈ posix ∧ posixLocksConflict request fl = true := by
  unfold firstConflict at h
  split_ifs at h with hu
  exact ⟨hu, List.mem_of_find?_eq_some h, List.find?_some h⟩

def needed (request : FileLock O) : Bool :=
  request.type ≠ .unlck ∨ request.start ≠ 0 ∨ request.stop ≠ offsetMax

theorem lockCtx_conflict (s : State I O) (i : I) (flags : Flags) (alloc : Alloc)
    (hc : firstConflict posix request = some fl) :
    ∃ ret blocked, lockCtx s i posix request flags alloc =
      (ret, ⟨update s.flctx i (some posix), blocked, s.next + 3⟩) ∧ ret ≠ .zero ∧
      (blocked = s.blocked ∨ posixLocksDeadlock s.blocked request fl = false ∧
        blocked = ⟨s.next, request.owner, fl.id, fl.owner, !fl.ofdlck⟩ :: s.blocked) := by
  rw [lockCtx, ← firstConflict, hc]
  simp only
  split_ifs with hsleep hdead
  · exact ⟨_, _, rfl, by simp, .inl rfl⟩
  · exact ⟨_, _, rfl, by simp, .inl rfl⟩
  · exact ⟨_, _, rfl, by simp, .inr ⟨by simpa using hdead, rfl⟩⟩

theorem lockCtx_access (hc : firstConflict posix request = none) (ha : flags.access = true) :
    lockCtx s i posix request flags alloc =
      (.zero, ⟨update s.flctx i (some posix), s.blocked, s.next + 3⟩) := by
  rw [lockCtx, ← firstConflict, hc]
  simp only
  rw [if_pos ha]

theorem lockCtx_apply (hc : firstConflict posix request = none) (ha : flags.access = false) :
    lockCtx s i posix request flags alloc =
      let out := applyRequest posix request flags.exist
        (if needed request && alloc.newFl then some (s.next + 1) else none)
        (if needed request && alloc.newFl2 then some (s.next + 2) else none)
      (out.ret, ⟨update s.flctx i (some out.posix),
        s.blocked.filter fun w => w.blocker ∉ out.woken, s.next + 3⟩) := by
  rw [lockCtx, ← firstConflict, hc]
  simp only
  rw [if_neg (by simp [ha])]
  rfl

theorem CallOk.unchanged (h : StateOk s) (hposix : s.posix i = posix) {ret : Ret}
    (blocked : List (Waiter O)) (haccess : ret = .zero → flags.access = true)
    (hsucc : (request.type ≠ .unlck → ∀ fl ∈ posix, posixLocksConflict request fl = false) →
      ret = .zero) :
    CallOk s i request flags alloc ret
      ⟨update s.flctx i (some posix), blocked, s.next + 3⟩ := by
  refine ⟨?_, fun j hj => ?_, fun hret ha => ?_, fun _ => ?_, fun _ _ _ _ hnc => hsucc (hposix ▸ hnc)⟩
  · refine h.update i (hposix ▸ h.list i) blocked (Nat.le_add_right ..) fun fl hfl => ?_
    exact (h.fresh i fl (hposix ▸ hfl)).trans_le (Nat.le_add_right ..)
  · rw [posix_update, if_neg hj]
  · exact absurd (haccess hret) (by simp [ha])
  · rw [posix_update, if_pos rfl, hposix]

/-- The identities of `new_fl` and `new_fl2`. -/
structure NewIds (s : State I O) (newFl newFl2 : Option ℕ) : Prop where
  newFl : ∀ id ∈ newFl, id = s.next + 1
  newFl2 : ∀ id ∈ newFl2, id = s.next + 2

section Apply

variable {newFl newFl2 : Option ℕ} (hfresh : ∀ fl ∈ posix, fl.id < s.next)
  (hn : NewIds s newFl newFl2)

include hfresh hn

omit [DecidableEq I] [DecidableEq O] in
theorem NewIds.fresh : (∀ id ∈ newFl, id ∉ ids posix) ∧
    ∀ id ∈ newFl2, id ∉ ids posix ∧ newFl ≠ some id := by
  have hids : ∀ id, s.next ≤ id → id ∉ ids posix := by
    intro id hid hmem
    obtain ⟨fl, hfl, rfl⟩ := List.mem_map.mp hmem
    exact absurd (hfresh fl hfl) (not_lt.mpr hid)
  refine ⟨fun id hid => hids id ?_, fun id hid => ⟨hids id ?_, fun heq => ?_⟩⟩
  · rw [hn.newFl id hid]
    exact Nat.le_add_right ..
  · rw [hn.newFl2 id hid]
    exact Nat.le_add_right ..
  · have h₁ := hn.newFl id heq
    have h₂ := hn.newFl2 id hid
    omega

omit [DecidableEq I] in
theorem applyRequest_ids (hnd : (ids posix).Nodup) (flExists : Bool) :
    ∀ fl ∈ (applyRequest posix request flExists newFl newFl2).posix, fl.id < s.next + 3 := by
  have hkept := applyRequest_kept posix request flExists hnd (hn.fresh hfresh).1 (hn.fresh hfresh).2
  intro fl hfl
  rcases hkept.sub (key fl) (List.mem_map_of_mem hfl) with hold | hadd
  · obtain ⟨l, hl, hkey⟩ := List.mem_map.mp hold
    have hid : l.id = fl.id := congrArg Prod.fst hkey
    have := hfresh l hl
    omega
  · rcases id_of_mem_newKeys hadd with hid | hid
    · have : fl.id = s.next + 1 := hn.newFl _ hid
      omega
    · have : fl.id = s.next + 2 := hn.newFl2 _ hid
      omega

end Apply

theorem CallOk.apply (h : StateOk s) (hposix : s.posix i = posix) {newFl newFl2 : Option ℕ}
    {out : Outcome O} (blocked : List (Waiter O)) (hids : ∀ fl ∈ out.posix, fl.id < s.next + 3)
    (hout : (out.ret = .zero ∧ ListOk out.posix ∧
        Overwritten request (held posix) (held out.posix)) ∨
      (Fails request flags.exist newFl newFl2 out.ret ∧ out.posix = posix))
    (hsucc : (request.type ≠ .unlck ∨ 0 < request.start) → alloc.newFl = true →
      alloc.newFl2 = true → newFl ≠ none ∧ newFl2 ≠ none) :
    CallOk s i request flags alloc out.ret
      ⟨update s.flctx i (some out.posix), blocked, s.next + 3⟩ := by
  have hlist : ListOk out.posix := by
    obtain ⟨-, hlist, -⟩ | ⟨-, hsame⟩ := hout
    · exact hlist
    · exact hsame ▸ hposix ▸ h.list i
  refine ⟨h.update i hlist blocked (Nat.le_add_right ..) hids, fun j hj => ?_, fun hret _ => ?_,
    fun hret => ?_, fun _ ha ha2 hex _ => ?_⟩
  · rw [posix_update, if_neg hj]
  · rw [posix_update, if_pos rfl, hposix]
    obtain ⟨-, -, hover⟩ | ⟨⟨hr, -⟩ | ⟨hr, -⟩, -⟩ := hout
    · exact hover
    · rw [hr] at hret
      cases hret
    · rw [hr] at hret
      cases hret
  · rw [posix_update, if_pos rfl, hposix]
    obtain ⟨hz, -⟩ | ⟨-, hsame⟩ := hout
    · exact absurd hz hret
    · exact hsame
  · obtain ⟨hz, -⟩ | ⟨⟨-, hneed, hnone⟩ | ⟨-, -, hex'⟩, -⟩ := hout
    · exact hz
    · obtain ⟨h₁, h₂⟩ := hsucc hneed ha ha2
      exact absurd hnone (not_or.mpr ⟨h₁, h₂⟩)
    · rw [hex] at hex'
      cases hex'

theorem lockCtx_ok (h : StateOk s) (hv : Valid request) (hposix : s.posix i = posix) (flags : Flags)
    (alloc : Alloc) : CallOk s i request flags alloc (lockCtx s i posix request flags alloc).1
      (lockCtx s i posix request flags alloc).2 := by
  have hok : ListOk posix := hposix ▸ h.list i
  have hfresh : ∀ fl ∈ posix, fl.id < s.next := hposix ▸ h.fresh i
  cases hc : firstConflict posix request with
  | some fl =>
    obtain ⟨hu, hfl, hcon⟩ := firstConflict_eq_some hc
    obtain ⟨ret, blocked, heq, hret, -⟩ := lockCtx_conflict s i flags alloc hc
    rw [heq]
    exact .unchanged h hposix blocked (fun hz => absurd hz hret) fun hnc =>
      absurd (hnc hu fl hfl) (by simp [hcon])
  | none =>
    have hnc := firstConflict_eq_none hc
    cases ha : flags.access with
    | true =>
      rw [lockCtx_access hc ha]
      exact .unchanged h hposix s.blocked (fun _ => ha) fun _ => rfl
    | false =>
      have hn : NewIds s (if needed request && alloc.newFl then some (s.next + 1) else none)
          (if needed request && alloc.newFl2 then some (s.next + 2) else none) := by
        constructor <;> simp
      rw [lockCtx_apply hc ha]
      refine .apply h hposix _ (applyRequest_ids hfresh hn hok.nodup flags.exist)
        (applyRequest_spec hok hv flags.exist hnc (hn.fresh hfresh).1 (hn.fresh hfresh).2) ?_
      intro hneed ha₁ ha₂
      have hneeded : needed request = true := by
        rcases hneed with hu | hpos
        · simp [needed, hu]
        · simp [needed, hpos.ne']
      simp [hneeded, ha₁, ha₂]

theorem posixLockFile_ok (h : StateOk s) (hv : Valid request) (i : I) (flags : Flags) (alloc : Alloc) :
    CallOk s i request flags alloc (posixLockFile s i request flags alloc).1
      (posixLockFile s i request flags alloc).2 := by
  rw [posixLockFile]
  cases hctx : s.flctx i with
  | some posix => exact lockCtx_ok h hv (by rw [State.posix, hctx]; rfl) flags alloc
  | none =>
    have hnil : s.posix i = [] := by
      rw [State.posix, hctx]
      rfl
    simp only
    split_ifs with hu hctx'
    · refine ⟨h, fun _ _ => rfl, fun _ _ => ?_, fun _ => rfl, fun _ _ _ _ _ => rfl⟩
      intro o x
      rw [hnil, hu]
      exact (ite_self _).symm
    · refine ⟨h, fun _ _ => rfl, fun hz => ?_, fun _ => rfl, fun hc => ?_⟩
      · cases hz
      · simp [hc] at hctx'
    · exact lockCtx_ok h hv hnil flags alloc

theorem step_ok {s' : State I O} {a : Action I O} (h : StateOk s) (hv : validAction s a)
    (hs : step s a = some s') : StateOk s' := by
  cases a with
  | lock i request flags alloc =>
    obtain rfl := Option.some.inj hs
    exact (posixLockFile_ok h hv i flags alloc).state
  | unblock id =>
    obtain rfl := Option.some.inj hs
    exact ⟨h.list, h.fresh⟩

/-- Every request keeps the lists in order, overwrites the map of its owner or fails and changes
nothing, and succeeds without a conflict if it gets the memory it needs. -/
theorem posixLockFile_of_reach (hs : Reach step validAction State.empty s) (hv : Valid request) (i : I)
    (flags : Flags) (alloc : Alloc) :
    StateOk s ∧ CallOk s i request flags alloc (posixLockFile s i request flags alloc).1
      (posixLockFile s i request flags alloc).2 := by
  have hok : StateOk s := hs.invariant stateOk_empty fun s s' a h hv hs => step_ok h hv hs
  exact ⟨hok, posixLockFile_ok hok hv i flags alloc⟩

def readLock : FileLock ℕ := ⟨0, 0, .rdlck, 0, 99, false⟩

def splitLock : FileLock ℕ := ⟨0, 0, .wrlck, 10, 19, false⟩

theorem posixLockFile_split :
    let s := (posixLockFile (State.empty : State ℕ ℕ) 0 readLock ⟨false, true, false⟩
      ⟨true, true, true⟩).2
    StateOk s ∧ CallOk s 0 splitLock ⟨false, true, false⟩ ⟨true, true, true⟩
      (posixLockFile s 0 splitLock ⟨false, true, false⟩ ⟨true, true, true⟩).1
      (posixLockFile s 0 splitLock ⟨false, true, false⟩ ⟨true, true, true⟩).2 :=
  posixLockFile_of_reach
    (.step (i := .lock 0 readLock ⟨false, true, false⟩ ⟨true, true, true⟩) .init
      ⟨by decide, by decide⟩ rfl)
    ⟨by decide, by decide⟩ 0 ⟨false, true, false⟩ ⟨true, true, true⟩

end Cupcake.Fs.Locks
