import Cupcake.Fs.Jbd2.Revoke

/-! The revoke records over whole runs: what a transaction's table holds when it is
written, and when the status cached in a buffer can be trusted. -/

namespace Cupcake.Jbd2

open List

theorem hash64_lt {bits : ℕ} (h : bits ≤ 64) (val : ℕ) : hash64 val bits < 2 ^ bits := by
  have hpow : 2 ^ (64 - bits) * 2 ^ bits = 2 ^ 64 := by rw [← pow_add, Nat.sub_add_cancel h]
  refine Nat.div_lt_of_lt_mul ?_
  rw [hpow]
  exact Nat.mod_lt _ (by decide)

/-! The two tables. -/

section Tables

variable (journal : Journal) (table : RevokeTable)

@[simp] theorem revoke_setRevoke : (journal.setRevoke table).revoke = table := by
  cases h : journal.second <;> simp [Journal.setRevoke, Journal.revoke, h]

@[simp] theorem other_setRevoke : (journal.setRevoke table).other = journal.other := by
  cases h : journal.second <;> simp [Journal.setRevoke, Journal.other, h]

@[simp] theorem revoke_setOther : (journal.setOther table).revoke = journal.revoke := by
  cases h : journal.second <;> simp [Journal.setOther, Journal.revoke, h]

@[simp] theorem other_setOther : (journal.setOther table).other = table := by
  cases h : journal.second <;> simp [Journal.setOther, Journal.other, h]

@[simp] theorem hashShift_setRevoke : (journal.setRevoke table).hashShift = journal.hashShift := by
  cases h : journal.second <;> simp [Journal.setRevoke, h]

@[simp] theorem hashShift_setOther : (journal.setOther table).hashShift = journal.hashShift := by
  cases h : journal.second <;> simp [Journal.setOther, h]

variable (blocknr seq : ℕ)

@[simp] theorem revoke_insertRevokeHash : (insertRevokeHash journal blocknr seq).revoke =
    Buckets.insert (hash64 · journal.hashShift) RevokeRecord.blocknr ⟨seq, blocknr⟩ journal.revoke :=
  revoke_setRevoke _ _

@[simp] theorem other_insertRevokeHash :
    (insertRevokeHash journal blocknr seq).other = journal.other := other_setRevoke _ _

@[simp] theorem hashShift_insertRevokeHash :
    (insertRevokeHash journal blocknr seq).hashShift = journal.hashShift := hashShift_setRevoke _ _

@[simp] theorem revoke_eraseRevokeHash : (eraseRevokeHash journal blocknr).revoke =
    Buckets.erase (hash64 · journal.hashShift) RevokeRecord.blocknr blocknr journal.revoke :=
  revoke_setRevoke _ _

@[simp] theorem other_eraseRevokeHash :
    (eraseRevokeHash journal blocknr).other = journal.other := other_setRevoke _ _

@[simp] theorem hashShift_eraseRevokeHash :
    (eraseRevokeHash journal blocknr).hashShift = journal.hashShift := hashShift_setRevoke _ _

end Tables

@[simp] theorem journal_setBuffer (s : Sys) (blocknr : ℕ) (f : BufferHead → BufferHead) :
    (s.setBuffer blocknr f).journal = s.journal := rfl

def count (blocknr : ℕ) (table : RevokeTable) : ℕ := Buckets.count RevokeRecord.blocknr blocknr table

structure TableOk (shift : ℕ) (table : RevokeTable) : Prop where
  length : table.length = 2 ^ shift
  placed : Buckets.Placed (hash64 · shift) RevokeRecord.blocknr table

theorem TableOk.clear {shift : ℕ} {table : RevokeTable} (h : TableOk shift table) :
    TableOk shift (table.map fun _ => []) := by
  refine ⟨by rw [length_map, h.length], fun i a ha => ?_⟩
  rw [getD_eq_getElem?_getD, List.getElem?_map] at ha
  cases hi : table[i]? with
  | none => rw [hi] at ha; cases ha
  | some l => rw [hi] at ha; cases ha

theorem count_clear (blocknr : ℕ) (table : RevokeTable) :
    count blocknr (table.map fun _ => []) = 0 := by
  rw [count, Buckets.count, countP_eq_zero]
  intro a ha
  obtain ⟨l, hl, ha⟩ := mem_flatten.mp ha
  obtain ⟨_, -, rfl⟩ := mem_map.mp hl
  cases ha

section Records

variable {shift : ℕ} {table : RevokeTable} (h : TableOk shift table) (hs : shift ≤ 64)
include h hs

theorem TableOk.hash_lt (blocknr : ℕ) : hash64 blocknr shift < table.length := by
  rw [h.length]
  exact hash64_lt hs blocknr

theorem TableOk.insert (record : RevokeRecord) :
    TableOk shift (Buckets.insert (hash64 · shift) RevokeRecord.blocknr record table) :=
  ⟨by rw [Buckets.insert, length_modify, h.length],
    Buckets.placed_insert h.placed (h.hash_lt hs _)⟩

theorem TableOk.count_insert (record : RevokeRecord) (blocknr : ℕ) :
    count blocknr (Buckets.insert (hash64 · shift) RevokeRecord.blocknr record table) =
      count blocknr table + if record.blocknr = blocknr then 1 else 0 :=
  Buckets.count_insert (h.hash_lt hs _)

theorem TableOk.erase (blocknr : ℕ) :
    TableOk shift (Buckets.erase (hash64 · shift) RevokeRecord.blocknr blocknr table) :=
  ⟨by rw [Buckets.erase, length_modify, h.length],
    Buckets.placed_erase h.placed (h.hash_lt hs _)⟩

theorem TableOk.count_erase (blocknr b : ℕ) :
    count b (Buckets.erase (hash64 · shift) RevokeRecord.blocknr blocknr table) =
      if b = blocknr then count blocknr table - 1 else count b table :=
  Buckets.count_erase h.placed (h.hash_lt hs _) b

end Records

/-! Events. -/

theorem lastRevoked_revoked (b : ℕ) (events : List Event) (c : ℕ) :
    lastRevoked (.revoked b :: events) c = if b = c then true else lastRevoked events c := by
  by_cases h : b = c
  · simp [lastRevoked, Event.blocknr, h]
  · rw [if_neg h, lastRevoked, find?_cons_of_neg (by simp [Event.blocknr, h]), lastRevoked]

theorem lastRevoked_journaled (b : ℕ) (events : List Event) (c : ℕ) :
    lastRevoked (.journaled b :: events) c = if b = c then false else lastRevoked events c := by
  by_cases h : b = c
  · simp [lastRevoked, Event.blocknr, h]
  · rw [if_neg h, lastRevoked, find?_cons_of_neg (by simp [Event.blocknr, h]), lastRevoked]

/-! The invariant. -/

def Exact (events : List Event) (table : RevokeTable) : Prop :=
  ∀ b, count b table = if lastRevoked events b then 1 else 0

structure Inv (r : Run) : Prop where
  shift : r.sys.journal.hashShift ≤ 64
  running : TableOk r.sys.journal.hashShift r.sys.journal.revoke
  other : TableOk r.sys.journal.hashShift r.sys.journal.other
  exact : Exact r.events r.sys.journal.revoke
  closing : ∀ events, r.closing = some events → Exact events r.sys.journal.other
  written : ∀ w ∈ r.written, ∀ b, w.2.count b = if lastRevoked w.1 b then 1 else 0
  nodup : (r.sys.buffers.map BufferHead.blocknr).Nodup
  valid : ∀ bh ∈ r.sys.buffers, bh.revokeValid = true → bh.revoked = lastRevoked r.events bh.blocknr
  invalid : ∀ bh ∈ r.sys.buffers, bh.revokeValid = false → bh.revoked = false

theorem buffers_update {buffers : List BufferHead} {events : List Event} (events' : List Event)
    {b : ℕ} {v : Bool}
    (hvalid : ∀ bh ∈ buffers, bh.revokeValid = true → bh.revoked = lastRevoked events bh.blocknr)
    (hinvalid : ∀ bh ∈ buffers, bh.revokeValid = false → bh.revoked = false)
    (hb : lastRevoked events' b = v) (hne : ∀ c, c ≠ b → lastRevoked events' c = lastRevoked events c)
    {bh : BufferHead} (hbh : bh ∈ Table.update BufferHead.blocknr b
      (fun bh => { bh with revoked := v, revokeValid := true }) buffers) :
    (bh.revokeValid = true → bh.revoked = lastRevoked events' bh.blocknr) ∧
      (bh.revokeValid = false → bh.revoked = false) := by
  rcases Table.mem_update.mp hbh with ⟨bh', -, hk, rfl⟩ | ⟨hmem, hk⟩
  · refine ⟨fun _ => ?_, fun h => by cases h⟩
    show v = lastRevoked events' bh'.blocknr
    rw [hk, hb]
  · rw [hne _ hk]
    exact ⟨hvalid bh hmem, hinvalid bh hmem⟩

theorem nodup_update {buffers : List BufferHead} {b : ℕ} {f : BufferHead → BufferHead}
    (hf : ∀ bh, (f bh).blocknr = bh.blocknr) (h : (buffers.map BufferHead.blocknr).Nodup) :
    ((Table.update BufferHead.blocknr b f buffers).map BufferHead.blocknr).Nodup := by
  rwa [Table.map_update fun bh _ => hf bh]

section

variable {b : ℕ} {r : Run} (h : Inv r) (hb : lastRevoked r.events b = false)

include h hb

theorem Inv.insert {buffers : List BufferHead} (hn : (buffers.map BufferHead.blocknr).Nodup)
    (hbuf : ∀ bh ∈ buffers,
      (bh.revokeValid = true → bh.revoked = lastRevoked (.revoked b :: r.events) bh.blocknr) ∧
      (bh.revokeValid = false → bh.revoked = false)) :
    Inv { r with
      sys := { r.sys with buffers, journal := insertRevokeHash r.sys.journal b r.sys.tid }
      events := .revoked b :: r.events } := by
  refine ⟨?_, ?_, ?_, fun c => ?_, fun events he => ?_, h.written, hn, fun bh hm => (hbuf bh hm).1,
    fun bh hm => (hbuf bh hm).2⟩
  · simpa using h.shift
  · simpa using h.running.insert h.shift ⟨r.sys.tid, b⟩
  · simpa using h.other
  · have hc := h.running.count_insert h.shift ⟨r.sys.tid, b⟩ c
    have hx := h.exact c
    simp only [revoke_insertRevokeHash]
    rw [lastRevoked_revoked, hc, hx]
    by_cases hbc : b = c
    · subst hbc
      simp [hb]
    · simp [hbc]
  · simpa using h.closing events he

theorem Inv.revoke {bhIn : Bool} {r' : Run} (hs : step r (.revoke b bhIn) = some r') : Inv r' := by
  obtain ⟨⟨s, e⟩, hrev, rfl⟩ := Option.map_eq_some_iff.mp hs
  rw [jbd2JournalRevoke] at hrev
  cases hf : r.sys.findGetBlock b with
  | none =>
    rw [hf] at hrev
    dsimp only at hrev
    split_ifs at hrev
    obtain ⟨rfl, -⟩ := Prod.mk.inj (Option.some.inj hrev)
    refine h.insert hb h.nodup fun bh hm => ⟨fun hv => ?_, h.invalid bh hm⟩
    have hne : b ≠ bh.blocknr := fun heq => Table.find_eq_none.mp hf bh hm heq.symm
    rw [lastRevoked_revoked, if_neg hne]
    exact h.valid bh hm hv
  | some bh =>
    obtain ⟨hmem, hk⟩ := Table.find_some hf
    -- by the invariant the buffer is not marked as revoked, so that the call goes on
    have hclear : bh.revoked = false := by
      cases hv : bh.revokeValid with
      | true => rw [h.valid bh hmem hv, hk, hb]
      | false => exact h.invalid bh hmem hv
    rw [hf] at hrev
    dsimp only at hrev
    rw [hclear, if_neg Bool.false_ne_true] at hrev
    obtain ⟨rfl, -⟩ := Prod.mk.inj (Option.some.inj hrev)
    refine h.insert hb (nodup_update (fun _ => rfl) h.nodup) fun bh hm => ?_
    refine buffers_update _ h.valid h.invalid ?_ (fun c hc => ?_) hm
    · rw [lastRevoked_revoked, if_pos rfl]
    · rw [lastRevoked_revoked, if_neg (Ne.symm hc)]

end

theorem Inv.cancel {r : Run} (h : Inv r) {b : ℕ} {r' : Run} (hs : step r (.cancel b) = some r') :
    Inv r' := by
  obtain ⟨s, hcancel, rfl⟩ := Option.map_eq_some_iff.mp hs
  obtain ⟨bh, hf, rfl⟩ := Option.map_eq_some_iff.mp hcancel
  obtain ⟨hmem, hk⟩ := Table.find_some hf
  have hlast (c : ℕ) := lastRevoked_journaled b r.events c
  have hn := nodup_update (b := b) (f := fun bh => { bh with revoked := false, revokeValid := true })
    (fun _ => rfl) h.nodup
  have hbuf (bh' : BufferHead) (hm : bh' ∈ Table.update BufferHead.blocknr b
      (fun bh => { bh with revoked := false, revokeValid := true }) r.sys.buffers) :=
    buffers_update (.journaled b :: r.events) h.valid h.invalid
      ((hlast b).trans (if_pos rfl)) (fun c hc => (hlast c).trans (if_neg (Ne.symm hc))) hm
  -- without a record the table already fits the new event
  have hsame (hzero : count b r.sys.journal.revoke = 0) :
      Inv { r with
        sys := r.sys.setBuffer b fun bh => { bh with revoked := false, revokeValid := true }
        events := .journaled b :: r.events } := by
    refine ⟨h.shift, h.running, h.other, fun c => ?_, h.closing, h.written, hn,
      fun bh hm => (hbuf bh hm).1, fun bh hm => (hbuf bh hm).2⟩
    rw [hlast]
    by_cases hbc : b = c
    · subst hbc
      rw [if_pos rfl]
      exact hzero
    · rw [if_neg hbc]
      exact h.exact c
  dsimp only
  by_cases hneed : (if bh.revokeValid then bh.revoked else true) = true
  · rw [if_pos hneed]
    cases hrec : findRevokeRecord (r.sys.setBuffer b fun bh =>
        { bh with revoked := false, revokeValid := true }).journal b with
    | none =>
      refine hsame ?_
      exact (Buckets.find_eq_none_iff h.running.placed (h.running.hash_lt h.shift b)).mp hrec
    | some record =>
      refine ⟨?_, ?_, ?_, fun c => ?_, fun events he => ?_, h.written, hn,
        fun bh hm => (hbuf bh hm).1, fun bh hm => (hbuf bh hm).2⟩
      · simpa using h.shift
      · simpa using h.running.erase h.shift b
      · simpa using h.other
      · have hc := h.running.count_erase h.shift b c
        have hx := h.exact b
        simp only [journal_setBuffer, revoke_eraseRevokeHash]
        rw [hc, hlast]
        by_cases hbc : c = b
        · subst hbc
          rw [if_pos rfl, if_pos rfl, hx]
          cases lastRevoked r.events c <;> rfl
        · rw [if_neg hbc, if_neg (Ne.symm hbc)]
          exact h.exact c
      · simpa using h.closing events he
  · rw [if_neg hneed]
    refine hsame ?_
    have hv : bh.revokeValid = true := by
      by_contra hv
      exact hneed (if_neg hv)
    have hno : bh.revoked = false := by simpa [hv] using hneed
    have := h.valid bh hmem hv
    rw [hk, hno] at this
    rw [h.exact b, ← this]
    rfl

theorem foldl_clear (records : List RevokeRecord) (s : Sys) :
    (records.foldl (fun s record => s.setBuffer record.blocknr
      fun bh => { bh with revoked := false }) s) =
    { s with buffers := s.buffers.map fun bh =>
        if ∃ r ∈ records, r.blocknr = bh.blocknr then { bh with revoked := false } else bh } := by
  induction records generalizing s with
  | nil => simp
  | cons record records ih =>
    rw [foldl_cons, ih, Sys.setBuffer, Table.update]
    dsimp only
    rw [map_map]
    congr 1
    refine map_congr_left fun bh _ => ?_
    by_cases h₁ : bh.blocknr = record.blocknr
    · by_cases h₂ : ∃ r ∈ records, r.blocknr = bh.blocknr
      · simp [h₁, h₁ ▸ h₂]
      · simp [h₁]
    · simp [h₁, Ne.symm h₁]

theorem Inv.switch {r r' : Run} (h : Inv r) (hs : step r .switch = some r') : Inv r' := by
  obtain rfl := Option.some.inj hs
  have hclear := foldl_clear r.sys.journal.revoke.flatten r.sys
  rw [jbd2ClearBufferRevokedFlags, hclear]
  -- every marked buffer has a record, so that no mark is left
  have hunmarked : ∀ bh ∈ r.sys.buffers.map (fun bh =>
      if ∃ c ∈ r.sys.journal.revoke.flatten, c.blocknr = bh.blocknr
      then { bh with revoked := false } else bh), bh.revoked = false := by
    intro bh hbh
    obtain ⟨bh', hmem, rfl⟩ := mem_map.mp hbh
    by_cases hrec : ∃ c ∈ r.sys.journal.revoke.flatten, c.blocknr = bh'.blocknr
    · rw [if_pos hrec]
    · rw [if_neg hrec]
      cases hv : bh'.revokeValid with
      | false => exact h.invalid bh' hmem hv
      | true =>
        rw [h.valid bh' hmem hv]
        have hzero : count bh'.blocknr r.sys.journal.revoke = 0 := by
          rw [count, Buckets.count, countP_eq_zero]
          exact fun c hc heq => hrec ⟨c, hc, of_decide_eq_true heq⟩
        have := h.exact bh'.blocknr
        rw [hzero] at this
        by_contra hlast
        rw [Bool.not_eq_false] at hlast
        simp [hlast] at this
  have hrevoke : (jbd2JournalSwitchRevokeTable r.sys.journal).revoke =
      r.sys.journal.other.map fun _ => [] := by
    rw [jbd2JournalSwitchRevokeTable, revoke_setRevoke]
    cases hs : r.sys.journal.second <;> simp [Journal.revoke, Journal.other, hs]
  have hother : (jbd2JournalSwitchRevokeTable r.sys.journal).other = r.sys.journal.revoke := by
    rw [jbd2JournalSwitchRevokeTable, other_setRevoke]
    cases hs : r.sys.journal.second <;> simp [Journal.revoke, Journal.other, hs]
  have hshift : (jbd2JournalSwitchRevokeTable r.sys.journal).hashShift = r.sys.journal.hashShift := by
    rw [jbd2JournalSwitchRevokeTable, hashShift_setRevoke]
  refine ⟨?_, ?_, ?_, fun b => ?_, fun events he => ?_, h.written, ?_, fun bh hm _ => ?_,
    fun bh hm _ => hunmarked bh hm⟩
  · exact hshift ▸ h.shift
  · show TableOk (jbd2JournalSwitchRevokeTable r.sys.journal).hashShift
      (jbd2JournalSwitchRevokeTable r.sys.journal).revoke
    rw [hshift, hrevoke]
    exact h.other.clear
  · show TableOk (jbd2JournalSwitchRevokeTable r.sys.journal).hashShift
      (jbd2JournalSwitchRevokeTable r.sys.journal).other
    rw [hshift, hother]
    exact h.running
  · show count b (jbd2JournalSwitchRevokeTable r.sys.journal).revoke = _
    rw [hrevoke]
    exact count_clear b _
  · obtain rfl := Option.some.inj he
    show Exact r.events (jbd2JournalSwitchRevokeTable r.sys.journal).other
    rw [hother]
    exact h.exact
  · show ((r.sys.buffers.map _).map BufferHead.blocknr).Nodup
    rw [map_map]
    have hkeys : r.sys.buffers.map (BufferHead.blocknr ∘ fun bh =>
        if ∃ c ∈ r.sys.journal.revoke.flatten, c.blocknr = bh.blocknr
        then { bh with revoked := false } else bh) = r.sys.buffers.map BufferHead.blocknr := by
      refine map_congr_left fun bh _ => ?_
      show BufferHead.blocknr (if _ then _ else _) = _
      split_ifs <;> rfl
    rw [hkeys]
    exact h.nodup
  · exact hunmarked bh hm

theorem Inv.write {r r' : Run} (h : Inv r) (hs : step r .write = some r') : Inv r' := by
  obtain ⟨events, he, rfl⟩ := Option.map_eq_some_iff.mp hs
  refine ⟨?_, ?_, ?_, ?_, (fun _ hc => by cases hc), fun w hw b => ?_, h.nodup, h.valid, h.invalid⟩
  · simpa [jbd2JournalWriteRevokeRecords] using h.shift
  · simpa [jbd2JournalWriteRevokeRecords] using h.running
  · simpa [jbd2JournalWriteRevokeRecords] using h.other.clear
  · simpa [jbd2JournalWriteRevokeRecords] using h.exact
  · rcases mem_cons.mp hw with rfl | hw
    · have hx := h.closing events he b
      rw [← hx]
      show (r.sys.journal.other.flatten.map RevokeRecord.blocknr).count b = _
      rw [List.count, countP_map, count, Buckets.count]
      refine countP_congr fun a _ => ?_
      simp
    · exact h.written w hw b

theorem Inv.step {r r' : Run} {op : Op} (h : Inv r) (hg : Allowed r op) (hs : step r op = some r') :
    Inv r' := by
  cases op with
  | revoke b bhIn => exact h.revoke hg hs
  | cancel b => exact h.cancel hs
  | switch => exact h.switch hs
  | write => exact h.write hs
  | getblk b =>
    rw [Jbd2.step] at hs
    cases hf : r.sys.findGetBlock b with
    | some bh =>
      rw [hf] at hs
      exact Option.some.inj hs ▸ h
    | none =>
      rw [hf] at hs
      obtain rfl := Option.some.inj hs
      refine ⟨h.shift, h.running, h.other, h.exact, h.closing, h.written, ?_, fun bh hm hv => ?_,
        fun bh hm hv => ?_⟩
      · refine nodup_cons.mpr ⟨fun hb => ?_, h.nodup⟩
        obtain ⟨bh, hm, hk⟩ := mem_map.mp hb
        exact Table.find_eq_none.mp hf bh hm hk
      · rcases mem_cons.mp hm with rfl | hm
        · cases hv
        · exact h.valid bh hm hv
      · rcases mem_cons.mp hm with rfl | hm
        · rfl
        · exact h.invalid bh hm hv
  | drop b =>
    obtain rfl := Option.some.inj hs
    refine ⟨h.shift, h.running, h.other, h.exact, h.closing, h.written, ?_, fun bh hm => ?_,
      fun bh hm => ?_⟩
    · exact Table.nodup_remove h.nodup
    · exact h.valid bh (Table.mem_remove.mp hm).1
    · exact h.invalid bh (Table.mem_remove.mp hm).1

theorem inv_init {hashShift : ℕ} (h : hashShift ≤ 64) : Inv (.init hashShift) := by
  have hempty : TableOk hashShift (List.replicate (2 ^ hashShift) []) := by
    refine ⟨length_replicate, fun i a ha => ?_⟩
    rw [getD_eq_getElem?_getD, List.getElem?_replicate] at ha
    split_ifs at ha <;> cases ha
  have hzero (b : ℕ) : count b (List.replicate (2 ^ hashShift) []) = 0 := by
    have := count_clear b (List.replicate (2 ^ hashShift) [])
    rwa [map_replicate] at this
  exact ⟨h, hempty, hempty, fun b => hzero b, (fun _ hc => by cases hc), (fun _ hw => by cases hw),
    nodup_nil, (fun _ hm => by cases hm), fun _ hm => by cases hm⟩

/-- The table written for a transaction has one record for each block whose last event in it was a
revoke, and a cached status that is valid is right. -/
theorem revokeRecords_of_reach {hashShift : ℕ} (hshift : hashShift < 31) {r : Run}
    (h : Reach step Allowed (.init hashShift) r) :
    (∀ events blocks, (events, blocks) ∈ r.written →
      ∀ b, blocks.count b = if lastRevoked events b then 1 else 0) ∧
    (∀ b, count b r.sys.journal.revoke = if lastRevoked r.events b then 1 else 0) ∧
    ∀ bh ∈ r.sys.buffers, bh.revokeValid = true →
      (bh.revoked = true ↔ 0 < count bh.blocknr r.sys.journal.revoke) := by
  have hinv : Inv r := h.invariant (inv_init (by omega)) fun _ _ _ hi hg hs => hi.step hg hs
  refine ⟨fun events blocks hw b => hinv.written _ hw b, hinv.exact, fun bh hm hv => ?_⟩
  rw [hinv.valid bh hm hv, hinv.exact]
  cases lastRevoked r.events bh.blocknr <;> simp

def revokeTwice : List Op :=
  [.revoke 7 false, .getblk 7, .cancel 7, .revoke 7 true, .drop 7, .revoke 8 false, .switch, .write,
    .getblk 7, .cancel 7]

theorem revokeTwice_written : ∃ r, Reach step Allowed (.init 2) r ∧
    r.written.map Prod.snd = [[8, 7]] ∧
    ∀ events blocks, (events, blocks) ∈ r.written →
      ∀ b, blocks.count b = if lastRevoked events b then 1 else 0 := by
  have hrun : (runGuarded step Allowed (.init 2) revokeTwice).map (fun r => r.written.map Prod.snd) =
      some [[8, 7]] := by decide +kernel
  obtain ⟨r, hr, hw⟩ := Option.map_eq_some_iff.mp hrun
  have hreach := Reach.of_runGuarded revokeTwice .init hr
  exact ⟨r, hreach, hw, (revokeRecords_of_reach (by decide) hreach).1⟩

end Cupcake.Jbd2
