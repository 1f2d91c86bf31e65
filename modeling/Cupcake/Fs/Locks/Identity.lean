import Cupcake.Fs.Locks.Walk

/-! Which locks are in the list after a call: those that were there before, unless their waiters
were woken up, and new ones of the owner of the request. -/

namespace Cupcake.Fs.Locks

open List

variable {O : Type*} {fl l : FileLock O} {fls rest : List (FileLock O)} {w w' : Walk O}
  {request : FileLock O} {K₀ K new : List (ℕ × O × Bool)} {woken : List ℕ} {flExists : Bool}
  {newFl newFl2 : Option ℕ}

def key (fl : FileLock O) : ℕ × O × Bool := (fl.id, fl.owner, fl.ofdlck)

def keys (fls : List (FileLock O)) : List (ℕ × O × Bool) := fls.map key

theorem keys_append (fls fls' : List (FileLock O)) : keys (fls ++ fls') = keys fls ++ keys fls' :=
  map_append

theorem keys_cons (fl : FileLock O) (fls : List (FileLock O)) :
    keys (fl :: fls) = key fl :: keys fls := rfl

theorem keys_fst (fls : List (FileLock O)) : (keys fls).map Prod.fst = ids fls := by
  rw [keys, ids, map_map]
  rfl

theorem keys_writeTo {p : Option ℕ} {f : FileLock O → FileLock O} (hf : ∀ l, key (f l) = key l) :
    keys (writeTo p f fls) = keys fls := by
  unfold keys writeTo
  rw [map_map]
  apply map_congr_left
  intro fl _
  simp only [Function.comp_apply]
  split_ifs
  · exact hf fl
  · rfl

structure Kept (K₀ K new : List (ℕ × O × Bool)) (woken : List ℕ) : Prop where
  nodup : (K.map Prod.fst).Nodup
  sub : ∀ k ∈ K, k ∈ K₀ ∨ k ∈ new
  kept : ∀ k ∈ K₀, k.1 ∈ woken ∨ k ∈ K

namespace Kept

theorem refl (h : (K.map Prod.fst).Nodup) (new : List (ℕ × O × Bool)) (woken : List ℕ) :
    Kept K K new woken :=
  ⟨h, fun _ hk => .inl hk, fun _ hk => .inr hk⟩

theorem mono {woken' : List ℕ} (h : Kept K₀ K new woken) (hw : ∀ id ∈ woken, id ∈ woken') :
    Kept K₀ K new woken' :=
  ⟨h.nodup, h.sub, fun k hk => (h.kept k hk).imp_left (hw k.1)⟩

theorem mono_new {new' : List (ℕ × O × Bool)} (h : Kept K₀ K new woken) (hn : ∀ k ∈ new, k ∈ new') :
    Kept K₀ K new' woken :=
  ⟨h.nodup, fun k hk => (h.sub k hk).imp_right (hn k), h.kept⟩

theorem delete {A B : List (ℕ × O × Bool)} {k : ℕ × O × Bool} (h : Kept K₀ (A ++ k :: B) new woken) :
    Kept K₀ (A ++ B) new (k.1 :: woken) := by
  refine ⟨h.nodup.sublist (List.Sublist.map _ (by simp)), fun a ha => h.sub a ?_, fun a ha => ?_⟩
  · simp only [mem_append, mem_cons] at ha ⊢
    tauto
  · rcases h.kept a ha with hw | hm
    · exact .inl (mem_cons_of_mem _ hw)
    · simp only [mem_append, mem_cons] at hm ⊢
      rcases hm with hA | rfl | hB
      · exact .inr (.inl hA)
      · exact .inl (.inl rfl)
      · exact .inr (.inr hB)

theorem insert {A B : List (ℕ × O × Bool)} {k : ℕ × O × Bool} (h : Kept K₀ (A ++ B) new woken)
    (hk : k ∈ new) (hid : k.1 ∉ (A ++ B).map Prod.fst) : Kept K₀ (A ++ k :: B) new woken := by
  refine ⟨?_, fun a ha => ?_, fun a ha => (h.kept a ha).imp_right fun hm => ?_⟩
  · rw [map_append, map_cons, nodup_middle, nodup_cons, ← map_append]
    exact ⟨hid, h.nodup⟩
  · simp only [mem_append, mem_cons] at ha
    rcases ha with hA | rfl | hB
    · exact h.sub a (mem_append_left _ hA)
    · exact .inr hk
    · exact h.sub a (mem_append_right _ hB)
  · simp only [mem_append, mem_cons] at hm ⊢
    tauto

end Kept

structure WalkKept (K₀ new : List (ℕ × O × Bool)) (w : Walk O) (fls : List (FileLock O)) : Prop where
  kept : Kept K₀ (keys (w.passed ++ fls)) new w.deleted
  newFl : w.added = false → ∀ id ∈ w.newFl,
    (id, w.request.owner, w.request.ofdlck) ∈ new ∧ id ∉ ids (w.passed ++ fls)
  orig : ∀ l ∈ fls, key l ∈ K₀
  right : ∀ r ∈ w.right, key r ∈ K₀

namespace WalkKept

variable (h : WalkKept K₀ new w (fl :: fls))

include h

theorem pass (left : Option (FileLock O)) {added : Bool} (hadded : added = false → w.added = false)
    (hright : w.right = none) :
    WalkKept K₀ new { w with passed := w.passed ++ [fl], left := left, added := added } fls := by
  have happ : w.passed ++ fl :: fls = w.passed ++ [fl] ++ fls := by simp
  have hkept := h.kept
  have hnew := h.newFl
  rw [happ] at hkept hnew
  exact ⟨hkept, fun hf => hnew (hadded hf), fun l hl => h.orig l (.tail _ hl), by simp [hright]⟩

theorem delete (left : Option (FileLock O)) (hright : w.right = none) :
    WalkKept K₀ new { w with left := left, added := true, deleted := fl.id :: w.deleted } fls := by
  have hkept := h.kept
  rw [keys_append, keys_cons] at hkept
  refine ⟨?_, by simp, fun l hl => h.orig l (.tail _ hl), by simp [hright]⟩
  rw [keys_append]
  exact hkept.delete

theorem grow (hright : w.right = none) (hadded : w.added = true) (start stop : ℕ) :
    WalkKept K₀ new { w with
      passed := writeTo (some w.request.id) (fun l => { l with start := start, stop := stop }) w.passed
      request := { w.request with start := start, stop := stop }
      deleted := fl.id :: w.deleted } fls := by
  have hkept := h.kept
  rw [keys_append, keys_cons] at hkept
  refine ⟨?_, by simp [hadded], fun l hl => h.orig l (.tail _ hl), by simp [hright]⟩
  rw [keys_append, keys_writeTo]
  · exact hkept.delete
  · intro l
    rfl

theorem join (hright : w.right = none) (start stop : ℕ) :
    WalkKept K₀ new { w with
      passed := w.passed ++ [{ fl with start := start, stop := stop }]
      request := { fl with start := start, stop := stop }
      added := true } fls := by
  refine ⟨?_, by simp, fun l hl => h.orig l (.tail _ hl), by simp [hright]⟩
  have hkeys : keys (w.passed ++ [{ fl with start := start, stop := stop }] ++ fls) =
      keys (w.passed ++ fl :: fls) := by
    simp [keys, key]
  rw [hkeys]
  exact h.kept

theorem replace (left : Option (FileLock O)) (hright : w.right = none) (hadded : w.added = false)
    {id : ℕ} (hnew : w.newFl = some id) :
    WalkKept K₀ new { w with
      passed := w.passed ++ [{ w.request with id := id }]
      request := { w.request with id := id }
      left := left
      added := true
      newFl := none
      deleted := fl.id :: w.deleted } fls := by
  obtain ⟨hmem, hid⟩ := h.newFl hadded id hnew
  have hkept := h.kept
  rw [keys_append, keys_cons] at hkept
  refine ⟨?_, by simp, fun l hl => h.orig l (.tail _ hl), by simp [hright]⟩
  have hkeys : keys (w.passed ++ [{ w.request with id := id }] ++ fls) =
      keys w.passed ++ (id, w.request.owner, w.request.ofdlck) :: keys fls := by
    simp [keys, key]
  rw [hkeys]
  refine hkept.delete.insert hmem ?_
  rw [map_append, keys_fst, keys_fst]
  simp only [ids_append, ids_cons, mem_append, mem_cons, not_or] at hid ⊢
  exact ⟨hid.1, hid.2.2⟩

end WalkKept

theorem walk_kept [DecidableEq O] {ok : Bool} (h : WalkKept K₀ new w fls) (hright : w.right = none)
    (hwalk : walk fls w = (w', rest, ok)) : WalkKept K₀ new w' rest := by
  induction fls generalizing w with
  | nil =>
    obtain ⟨rfl, rfl, -⟩ : w = w' ∧ [] = rest ∧ true = ok := by simpa [walk_nil] using hwalk
    exact h
  | cons fl fls ih =>
    rw [walk] at hwalk
    dsimp only at hwalk
    obtain ⟨left, hleft⟩ : ∃ left, left = if fl.start < w.request.start then some fl else w.left :=
      ⟨_, rfl⟩
    obtain ⟨added, hadd⟩ : ∃ added, added = if w.request.type = .unlck then true else w.added :=
      ⟨_, rfl⟩
    have hadded : added = false → w.added = false := by
      intro hf
      rw [hf] at hadd
      split_ifs at hadd
      exact hadd.symm
    rw [← hleft, ← hadd] at hwalk
    have hstop : ∀ {ok' : Bool}, (w, fl :: fls, ok') = (w', rest, ok) → WalkKept K₀ new w' rest := by
      rintro ok' ⟨⟩
      exact h
    split_ifs at hwalk with ho htype hpass hstop' hadded' hpass' hstop'' hend hle hadded''
    · exact hstop hwalk
    · exact ih (h.pass w.left id hright) hright hwalk
    · exact hstop hwalk
    · refine ih ?_ ?_ hwalk
      · exact h.grow hright hadded' _ _
      · exact hright
    · refine ih ?_ ?_ hwalk
      · exact h.join hright _ _
      · exact hright
    · exact ih (h.pass w.left id hright) hright hwalk
    · exact hstop hwalk
    · cases hwalk
      refine ⟨h.kept, fun hf => h.newFl (hadded hf), h.orig, ?_⟩
      rintro r ⟨⟩
      exact h.orig fl (mem_cons_self ..)
    · refine ih ?_ ?_ hwalk
      · rw [hadded'']
        exact h.delete left hright
      · exact hright
    · cases hnew : w.newFl with
      | none =>
        rw [hnew] at hwalk
        cases hwalk
        exact ⟨h.kept, by simp, h.orig, by simp [hright]⟩
      | some id =>
        rw [hnew] at hwalk
        refine ih ?_ ?_ hwalk
        · exact h.replace left hright (hadded (by simpa using hadded'')) hnew
        · exact hright
    · exact ih (h.pass left hadded hright) hright hwalk

theorem trim_kept {extra : List (FileLock O)}
    (h : Kept K₀ (keys (w.passed ++ (extra ++ rest))) new w.deleted)
    (hnew2 : ∀ id ∈ newFl2, id ∉ ids (w.passed ++ (extra ++ rest)) ∧
      ∀ r ∈ w.right, (id, r.owner, r.ofdlck) ∈ new) :
    Kept K₀ (keys (trim w newFl2 extra rest).posix) new (trim w newFl2 extra rest).woken := by
  obtain ⟨copy, hcopy⟩ : ∃ copy, copy = if w.splits then
      w.right.bind fun r => newFl2.map fun id => { r with id := id } else none := ⟨_, rfl⟩
  have hposix : keys (trim w newFl2 extra rest).posix =
      keys (w.passed ++ copy.toList ++ extra ++ rest) := by
    rw [trim]
    simp only
    rw [keys_writeTo fun _ => by rfl, keys_writeTo fun _ => by rfl, hcopy]
  have hkept : Kept K₀ (keys (w.passed ++ copy.toList ++ extra ++ rest)) new w.deleted := by
    cases copy with
    | none => simpa using h
    | some c =>
      split_ifs at hcopy
      obtain ⟨r, hr, hc⟩ := Option.bind_eq_some_iff.mp hcopy.symm
      obtain ⟨id, hid, rfl⟩ := Option.map_eq_some_iff.mp hc
      obtain ⟨hfresh, hmem⟩ := hnew2 id hid
      rw [keys_append] at h
      have hins := h.insert (k := (id, r.owner, r.ofdlck)) (hmem r hr) (by
        rw [map_append, keys_fst, keys_fst, ← ids_append]
        exact hfresh)
      simpa [keys, key] using hins
  rw [hposix]
  apply hkept.mono
  intro id hid
  simp only [trim, mem_append]
  exact .inl (.inl hid)

/-- The keys of the locks that a call may add: `new_fl` for the request, `new_fl2` for the second
half of a lock. -/
def newKeys (posix : List (FileLock O)) (request : FileLock O) (newFl newFl2 : Option ℕ) :
    List (ℕ × O × Bool) :=
  (newFl.map fun id => (id, request.owner, request.ofdlck)).toList ++
    newFl2.toList.flatMap fun id => posix.map fun fl => (id, fl.owner, fl.ofdlck)

section

variable {k : ℕ × O × Bool} {posix : List (FileLock O)}
  (hk : k ∈ newKeys posix request newFl newFl2)

include hk

theorem id_of_mem_newKeys : k.1 ∈ newFl ∨ k.1 ∈ newFl2 := by
  rcases mem_append.mp hk with h | h
  · obtain ⟨id, hid, rfl⟩ := Option.map_eq_some_iff.mp (Option.mem_toList.mp h)
    exact .inl hid
  · obtain ⟨id, hid, h⟩ := mem_flatMap.mp h
    obtain ⟨fl, -, rfl⟩ := mem_map.mp h
    exact .inr (Option.mem_toList.mp hid)

theorem ofdlck_of_mem_newKeys : k.2.2 = request.ofdlck ∨ ∃ fl ∈ posix, k.2.2 = fl.ofdlck := by
  rcases mem_append.mp hk with h | h
  · obtain ⟨id, -, rfl⟩ := Option.map_eq_some_iff.mp (Option.mem_toList.mp h)
    exact .inl rfl
  · obtain ⟨id, -, h⟩ := mem_flatMap.mp h
    obtain ⟨fl, hfl, rfl⟩ := mem_map.mp h
    exact .inr ⟨fl, hfl, rfl⟩

end

theorem mem_newKeys_of_mem {posix : List (FileLock O)} {id : ℕ} (hid : id ∈ newFl2)
    (h : key fl ∈ keys posix) : (id, fl.owner, fl.ofdlck) ∈ newKeys posix request newFl newFl2 := by
  obtain ⟨l, hl, hkey⟩ := mem_map.mp h
  simp only [key, Prod.mk.injEq] at hkey
  refine mem_append_right _ (mem_flatMap.mpr ⟨id, Option.mem_toList.mpr hid, ?_⟩)
  exact mem_map.mpr ⟨l, hl, by rw [hkey.2.1, hkey.2.2]⟩

section Finish

variable {posix : List (FileLock O)}
  (h : WalkKept (keys posix) (newKeys posix request newFl none) w rest)
  (hnew : ∀ id ∈ newFl2, id ∉ ids posix ∧ newFl ≠ some id)

include h hnew

omit h hnew in
theorem mem_newKeys_none (newFl2 : Option ℕ) {k : ℕ × O × Bool}
    (hk : k ∈ newKeys posix request newFl none) :
    newFl = some k.1 ∧ k ∈ newKeys posix request newFl newFl2 := by
  simp only [newKeys, Option.toList_none, flatMap_nil, append_nil] at hk
  refine ⟨?_, mem_append_left _ hk⟩
  obtain ⟨id, hid, rfl⟩ := Option.map_eq_some_iff.mp (Option.mem_toList.mp hk)
  exact hid

theorem newFl2_fresh {id : ℕ} (hid : id ∈ newFl2) : id ∉ ids (w.passed ++ rest) := by
  obtain ⟨hposix, hne⟩ := hnew id hid
  intro hmem
  rw [← keys_fst] at hmem
  obtain ⟨k, hk, rfl⟩ := mem_map.mp hmem
  rcases h.kept.sub k hk with hk₀ | hkn
  · rw [← keys_fst] at hposix
    exact hposix (mem_map_of_mem hk₀)
  · exact hne (mem_newKeys_none none hkn).1

theorem finish_kept (flExists : Bool) :
    Kept (keys posix) (keys (finish w flExists newFl2 rest).posix)
      (newKeys posix request newFl newFl2) (finish w flExists newFl2 rest).woken := by
  have hkept : Kept (keys posix) (keys (w.passed ++ rest)) (newKeys posix request newFl newFl2)
      w.deleted := h.kept.mono_new fun k hk => (mem_newKeys_none newFl2 hk).2
  have hright : ∀ id ∈ newFl2, ∀ r ∈ w.right,
      (id, r.owner, r.ofdlck) ∈ newKeys posix request newFl newFl2 :=
    fun id hid r hr => mem_newKeys_of_mem hid (h.right r hr)
  rw [finish]
  split_ifs with hsplit hadded
  · exact hkept
  · exact trim_kept (by simpa using hkept) fun id hid =>
      ⟨by simpa using newFl2_fresh h hnew hid, hright id hid⟩
  · exact hkept
  · exact hkept
  · cases hfl : w.newFl with
    | none => exact hkept
    | some id =>
      obtain ⟨hmem, hid⟩ := h.newFl (by simpa using hadded) id hfl
      obtain ⟨heq, hmem⟩ := mem_newKeys_none newFl2 hmem
      rw [keys_append] at hkept
      have hins := hkept.insert hmem (by
        rw [map_append, keys_fst, keys_fst, ← ids_append]
        exact hid)
      refine trim_kept (by simpa [keys, key] using hins) fun id2 hid2 => ⟨?_, hright id2 hid2⟩
      have hne : id2 ≠ id := by
        rintro rfl
        exact (hnew id2 hid2).2 heq
      have hfresh := newFl2_fresh h hnew hid2
      simp only [ids_append, mem_append, not_or] at hfresh
      simpa using ⟨hfresh.1, hne, hfresh.2⟩

end Finish

variable [DecidableEq O]

theorem applyRequest_kept (posix : List (FileLock O)) (request : FileLock O) (flExists : Bool)
    (hnd : (ids posix).Nodup) (hnew : ∀ id ∈ newFl, id ∉ ids posix)
    (hnew2 : ∀ id ∈ newFl2, id ∉ ids posix ∧ newFl ≠ some id) :
    Kept (keys posix) (keys (applyRequest posix request flExists newFl newFl2).posix)
      (newKeys posix request newFl newFl2)
      (applyRequest posix request flExists newFl newFl2).woken := by
  obtain ⟨passed, hpassed⟩ : ∃ passed, passed = posix.takeWhile fun fl => !posixSameOwner request fl :=
    ⟨_, rfl⟩
  obtain ⟨fls, hfls⟩ : ∃ fls, fls = posix.dropWhile fun fl => !posixSameOwner request fl := ⟨_, rfl⟩
  have happ : passed ++ fls = posix := by
    rw [hpassed, hfls, takeWhile_append_dropWhile]
  have hstart : WalkKept (keys posix) (newKeys posix request newFl none)
      ⟨passed, request, none, none, false, newFl, []⟩ fls := by
    refine ⟨?_, fun _ id hid => ?_, fun l hl => ?_, by simp⟩
    · rw [happ]
      exact .refl (by rwa [keys_fst]) _ _
    · rw [happ]
      refine ⟨mem_append_left _ ?_, hnew id hid⟩
      obtain rfl : newFl = some id := hid
      simp
    · rw [← happ]
      exact mem_map_of_mem (mem_append_right _ hl)
  rw [applyRequest, ← hpassed, ← hfls]
  rcases hwalk : walk fls ⟨passed, request, none, none, false, newFl, []⟩ with ⟨w, rest, ok⟩
  have hkept := walk_kept hstart rfl hwalk
  cases ok with
  | true => exact finish_kept hkept hnew2 flExists
  | false => exact hkept.kept.mono_new fun k hk => (mem_newKeys_none newFl2 hk).2

end Cupcake.Fs.Locks
