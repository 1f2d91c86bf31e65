import Cupcake.Mlog.Columns

/-! Runs of the log: under the guard the reader is given what the queue gives. -/

namespace Cupcake.Mlog

open List Option

variable {s : State} {u : List Entry} {e : Entry} {first f w : ℕ} {skip : Bool}

/-! ## The simulation -/

structure Sim (s : State) (q : Queue) : Prop where
  ring : ∃ first, Ring s q.unread first
  follows : ∃ f, Follows f q.unread s.phase.column ∧ (q.fresh = false → f = s.strfmtIdx)
  fresh : q.fresh = true ↔ s.strfmtIdx = 0
  reader : s.reader = q.reader
  out : s.out = q.out

theorem sim_init : Sim init .init :=
  ⟨⟨0, rfl, rfl, by decide, by simp [Queue.init]⟩, ⟨_, rfl, by simp [Queue.init]⟩,
    by simp [Queue.init, init], rfl, rfl⟩

def State.readerPart (s : State) : ℕ × Option (ℕ × ℕ) × List (List Char) :=
  (s.strfmtIdx, s.reader, s.out)

theorem readerPart_emit (s : State) (v : ℤ) : (mlogEmit32 s v).readerPart = s.readerPart := by
  rw [mlogEmit32]
  split_ifs <;> rfl

theorem readerPart_foldl (es : List Entry) (s : State) :
    (es.foldl (fun s e => mlogEmit32 s e.2) s).readerPart = s.readerPart := by
  induction es generalizing s with
  | nil => rfl
  | cons e es ih => rw [foldl_cons, ih, readerPart_emit]

theorem Sim.log {q : Queue} (h : Sim s q) {g : Group} (hg : guard skip s (.log g))
    (hphase : s.phase = g.phases.1) :
    Sim { (g.entries.foldl (fun s e => mlogEmit32 s e.2) s) with phase := g.phases.2 }
      (q.step skip (.log g)) := by
  obtain ⟨first, hring⟩ := h.ring
  obtain ⟨f, hf, hidx⟩ := h.follows
  have hframe := readerPart_foldl g.entries s
  simp only [State.readerPart, Prod.mk.injEq] at hframe
  obtain ⟨first', hring'⟩ := hring.foldl g.entries
  have happend : Follows f (q.unread ++ g.entries) g.phases.2.column :=
    hf.append (hphase ▸ g.follows hg.1)
  refine ⟨⟨first', hring'.of_eq rfl rfl rfl⟩, ?_, ?_, ?_, ?_⟩
  · dsimp only [Queue.step]
    rw [hframe.1]
    cases hfresh : q.fresh with
    | true =>
      obtain ⟨k, hk⟩ : ∃ k, g.entries.foldl push q.unread = (q.unread ++ g.entries).drop k :=
        ⟨_, foldl_push hring.length_le _⟩
      obtain ⟨f', hf'⟩ := happend.drop k
      exact ⟨f', hk ▸ hf', by simp⟩
    | false =>
      have hne : s.strfmtIdx ≠ 0 := fun h0 => by simp [h.fresh.mpr h0] at hfresh
      have hle := hg.2.resolve_left hne
      rw [hring.unread_eq, length_map] at hle
      rw [foldl_push hring.length_le, Nat.sub_eq_zero_of_le hle, drop_zero]
      exact ⟨f, happend, fun _ => hidx hfresh⟩
  · rw [hframe.1]
    exact h.fresh
  · rw [hframe.2.1]
    exact h.reader
  · rw [hframe.2.2]
    exact h.out

/-! ## Reading -/

theorem fetch_of_zero {start fuel : ℕ} {v : ℤ} (hidx : s.strfmtIdx = 0)
    (hcell : ∀ i e, u[i]? = some e → mlogBuf s (start + i) = e.2)
    (hmark : ∀ e ∈ u, e.2 = mlogId ↔ e.1 = .cr) (hend : s.mlogEnd = start + u.length)
    (hlt : s.mlogEnd < 2 ^ 32) (hfuel : u.length ≤ fuel) :
    match u.dropWhile fun e => e.1 ≠ .cr with
    | [] => ∃ v', fetch s fuel start v = (s.mlogEnd, 0, v')
    | _ :: r => fetch s fuel start v = (s.mlogEnd - r.length, 0, mlogId) := by
  induction u generalizing start fuel v with
  | nil =>
    rw [length_nil, add_zero] at hend
    rw [dropWhile_nil, hend, ← hidx]
    cases fuel with
    | zero => exact ⟨v, rfl⟩
    | succ fuel => exact ⟨v, if_neg (by omega)⟩
  | cons e u ih =>
    rw [length_cons] at hend hfuel
    obtain ⟨fuel, rfl⟩ : ∃ k, fuel = k + 1 := ⟨fuel - 1, by omega⟩
    have hv : mlogBuf s start = e.2 := hcell 0 e rfl
    have hnext : wadd 32 start 1 = start + 1 := wadd_of_lt (by omega)
    rw [fetch, if_pos (show start < s.mlogEnd by omega)]
    simp only [hv, hnext, hidx]
    have he := hmark e mem_cons_self
    by_cases hcr : e.1 = .cr
    · rw [dropWhile_cons_of_neg (by simp [hcr])]
      have hid := he.mpr hcr
      simp only [hid, ne_eq, not_true_eq_false, and_false, if_false]
      congr 1
      omega
    · rw [dropWhile_cons_of_pos (by simp [hcr])]
      have hid : e.2 ≠ mlogId := fun h => hcr (he.mp h)
      rw [if_pos ⟨trivial, hid⟩]
      refine ih (fun i x hx => ?_) (fun x hx => hmark x (mem_cons_of_mem e hx)) (by omega)
        (by omega)
      rw [show start + 1 + i = start + (i + 1) by omega]
      exact hcell (i + 1) x (by simpa using hx)

theorem doread_of_fetch {start fmtIdx : ℕ} {v : ℤ} (hf : fetchNext s = (start, fmtIdx, v))
    (hlt : start < s.mlogEnd) :
    doread s = (some (snprintf (strfmtList.getD fmtIdx .cr) (if fmtIdx = 0 then 10 else v)),
      { s with mlogStart := start, strfmtIdx := nextIdx fmtIdx }) := by
  rw [doread, hf, dumpFetched, if_neg (show ¬ s.mlogEnd ≤ start by omega)]
  rfl

theorem Ring.no_wrap (h : Ring s u first) (hlt : s.mlogStart < s.mlogEnd) :
    s.mlogEnd = s.mlogStart + u.length ∧ s.mlogEnd < 2 ^ 32 := by
  have hle := h.length_le
  have hs := h.start_eq
  have he := h.end_eq
  rw [mlogBufLen_eq] at hle
  omega

theorem Ring.fetchNext_eq {r : List Entry} (h : Ring s (e :: r) first)
    (hlt : s.mlogStart < s.mlogEnd) (h0 : s.strfmtIdx ≠ 0) :
    fetchNext s = (s.mlogStart + 1, if e.2 = mlogId then 0 else s.strfmtIdx, e.2) := by
  have hv := h.mlogBuf_eq 0 e rfl
  have hnext : wadd 32 s.mlogStart 1 = s.mlogStart + 1 :=
    wadd_of_lt (by have := h.no_wrap hlt; omega)
  rw [fetchNext, h.length_eq, length_cons, fetch, if_pos hlt]
  simp only [add_zero] at hv
  simp only [hv, hnext, h0, false_and, if_false, ne_eq, not_false_eq_true, and_true]
  split_ifs <;> rfl

theorem dropWhile_eq_cons {r : List Entry} (h : u.dropWhile (fun e => e.1 ≠ .cr) = e :: r) :
    e.1 = .cr ∧ ∃ l, u = l ++ e :: r := by
  constructor
  · have := head?_dropWhile_not (fun e : Entry => decide (e.1 ≠ .cr)) u
    rw [h] at this
    simpa using this
  · exact ⟨_, (h ▸ takeWhile_append_dropWhile).symm⟩

section

variable {q : Queue} (h : Sim s q)

include h

theorem Sim.left_eq
    (hskip : q.fresh = true → unread s = [] ∨ skip = true ∨ (unread s).head? = some mlogId) :
    q.left skip = q.left true := by
  obtain ⟨first, hring⟩ := h.ring
  obtain ⟨f, hf, -⟩ := h.follows
  cases hfresh : q.fresh with
  | false => simp [Queue.left, hfresh]
  | true =>
    obtain hnil | rfl | hhead := hskip hfresh
    · rw [hring.unread_eq, map_eq_nil_iff] at hnil
      simp [Queue.left, hnil]
    · rfl
    · rw [hring.unread_eq, head?_map] at hhead
      obtain ⟨e, he, hid⟩ := map_eq_some_iff.mp hhead
      obtain ⟨r, hr⟩ := head?_eq_some_iff.mp he
      have hcr := (hf.mark_iff e (by simp [hr])).mp hid
      simp [Queue.left, hr, hcr]

theorem Sim.doread_nil (hwrap : unread s = [] ∨ s.mlogStart < s.mlogEnd) (hq : q.left true = []) :
    doread s = (none, { s with mlogStart := s.mlogEnd }) := by
  obtain ⟨first, hring⟩ := h.ring
  obtain ⟨f, hf, -⟩ := h.follows
  have hfetch : ∃ v, fetchNext s = (s.mlogEnd, s.strfmtIdx, v) := by
    rw [fetchNext, hring.length_eq]
    obtain hempty | hlt := hwrap
    · rw [hring.unread_eq, map_eq_nil_iff] at hempty
      have hstart : s.mlogEnd = s.mlogStart := by
        rw [hring.end_eq, hring.start_eq, hempty, length_nil, add_zero]
      rw [hempty, hstart]
      exact ⟨0, rfl⟩
    · obtain ⟨hend, hend'⟩ := hring.no_wrap hlt
      cases hfresh : q.fresh with
      | false =>
        rw [Queue.left, hfresh, Bool.and_false, if_neg (by simp)] at hq
        rw [hq, length_nil] at hend
        omega
      | true =>
        rw [Queue.left, hfresh, Bool.and_true, if_pos rfl] at hq
        have key := fetch_of_zero (v := 0) (h.fresh.mp hfresh) hring.mlogBuf_eq hf.mark_iff hend
          hend' le_rfl
        rwa [hq, ← h.fresh.mp hfresh] at key
  obtain ⟨v, hv⟩ := hfetch
  rw [doread, hv, dumpFetched, if_pos le_rfl]

theorem Sim.doread_cons {r : List Entry} (hlt : s.mlogStart < s.mlogEnd)
    (hlast : if s.strfmtIdx = 0 then (unread s).getLast? ≠ some mlogId else 2 ≤ (unread s).length)
    (hq : q.left true = e :: r) :
    ∃ l idx, q.unread = l ++ e :: r ∧
      doread s = (some e.text,
        { s with mlogStart := s.mlogStart + (l.length + 1), strfmtIdx := idx }) ∧
      s.mlogStart + (l.length + 1) < 2 ^ 32 ∧ idx ≠ 0 ∧ Follows idx r s.phase.column := by
  obtain ⟨first, hring⟩ := h.ring
  obtain ⟨f, hf, hidx⟩ := h.follows
  obtain ⟨hend, hend'⟩ := hring.no_wrap hlt
  rw [hring.unread_eq] at hlast
  cases hfresh : q.fresh with
  | true =>
    have h0 := h.fresh.mp hfresh
    rw [if_pos h0] at hlast
    rw [Queue.left, hfresh, Bool.and_true, if_pos rfl] at hq
    have hfetch : fetchNext s = (s.mlogEnd - r.length, 0, mlogId) := by
      have key := fetch_of_zero (v := 0) h0 hring.mlogBuf_eq hf.mark_iff hend hend'
        hring.length_eq.ge
      rwa [hq] at key
    obtain ⟨hcr, l, hl⟩ := dropWhile_eq_cons hq
    have hpos : r ≠ [] := by
      rintro rfl
      apply hlast
      rw [hl, map_append, map_singleton, getLast?_concat,
        (hf.mark_iff e (by simp [hl])).mpr hcr]
    have hlen : q.unread.length = l.length + 1 + r.length := by
      rw [hl, length_append, length_cons]
      omega
    have hr := length_pos_iff.mpr hpos
    refine ⟨l, 1, hl, ?_, by omega, one_ne_zero, (hl ▸ hf).of_append hcr⟩
    rw [doread_of_fetch hfetch (by omega),
      show s.mlogEnd - r.length = s.mlogStart + (l.length + 1) by omega, Entry.text, if_pos hcr]
    rfl
  | false =>
    obtain rfl := hidx hfresh
    have h0 : s.strfmtIdx ≠ 0 := fun h0 => by simp [h.fresh.mpr h0] at hfresh
    rw [if_neg h0, length_map] at hlast
    rw [Queue.left, hfresh, Bool.and_false, if_neg (by simp)] at hq
    have hfetch := (hq ▸ hring).fetchNext_eq hlt h0
    rw [hq] at hf
    have hdo := doread_of_fetch hfetch (by omega)
    obtain ⟨rfl, hr⟩ | ⟨hcr, hid, hfmt, hr⟩ := hf
    · refine ⟨[], 1, hq, ?_, by simpa using (by omega), one_ne_zero, hr⟩
      rw [hdo]
      rfl
    · refine ⟨[], nextIdx s.strfmtIdx, hq, ?_, by simpa using (by omega), ?_, hr⟩
      · rw [if_neg hid] at hdo
        rw [hdo, if_neg h0, getD_eq_getElem?_getD, hfmt, Entry.text, if_neg hcr]
        rfl
      · rw [nextIdx]
        split_ifs
        · decide
        · omega

theorem Sim.next (hg : guard skip s .next) {s' : State}
    (hs : step s .next = some s') : Sim s' (q.step skip .next) := by
  obtain ⟨first, hring⟩ := h.ring
  rw [step] at hs
  rw [Queue.step, ← h.reader]
  cases hr : s.reader with
  | none =>
    rw [hr] at hs
    cases hs
  | some x =>
    obtain ⟨len, size⟩ := x
    rw [hr] at hs
    dsimp only at hs ⊢
    by_cases hroom : mlogStrLen < wsub 64 len size
    · rw [if_pos hroom] at hs ⊢
      have hg := hg (by rw [hasRoom, hr]; exact decide_eq_true hroom)
      have hleft : q.left skip = q.left true := by
        refine h.left_eq fun hfresh => hg.imp_right fun hg => ?_
        rw [if_pos (h.fresh.mp hfresh)] at hg
        exact hg.2.2
      rw [hleft]
      cases hq : q.left true with
      | nil =>
        rw [h.doread_nil (hg.imp_right And.left) hq] at hs
        obtain rfl := some.inj hs
        have hring' : Ring s (q.unread ++ []) first := by rwa [append_nil]
        refine ⟨⟨_, hring'.drop rfl hring.end_eq rfl⟩, ⟨_, rfl, fun hf => ?_⟩, h.fresh, rfl, h.out⟩
        obtain ⟨f, hf', hidx⟩ := h.follows
        rw [Queue.left, hf, Bool.and_false, if_neg (by simp)] at hq
        rw [hq] at hf'
        exact hf'.symm.trans (hidx hf)
      | cons e r =>
        obtain ⟨hlt, hlast⟩ := hg.resolve_left fun hnil => by
          rw [hring.unread_eq, map_eq_nil_iff] at hnil
          simp [Queue.left, hnil] at hq
        have hlast' : if s.strfmtIdx = 0 then (unread s).getLast? ≠ some mlogId
            else 2 ≤ (unread s).length := by
          split_ifs at hlast ⊢
          · exact hlast.1
          · exact hlast
        obtain ⟨l, idx, hu, hdo, hno, hidx, hfol⟩ := h.doread_cons hlt hlast' hq
        rw [hdo] at hs
        obtain rfl := some.inj hs
        have hring' : Ring s (l ++ [e] ++ r) first := by
          rw [append_assoc, singleton_append, ← hu]
          exact hring
        refine ⟨⟨_, hring'.drop rfl ?_ rfl⟩, ⟨idx, hfol, fun _ => rfl⟩, by simp [hidx], rfl, ?_⟩
        · rw [length_append, length_singleton, ← Nat.mod_add_mod, ← hring.start_eq,
            Nat.mod_eq_of_lt hno]
        · rw [h.out]
    · rw [if_neg hroom] at hs ⊢
      obtain rfl := some.inj hs
      exact ⟨⟨first, hring.of_eq rfl rfl rfl⟩, h.follows, h.fresh, rfl, h.out⟩

theorem Sim.step_eq {a : Action} (hg : guard skip s a) {s' : State}
    (hs : step s a = some s') : Sim s' (q.step skip a) := by
  cases a with
  | log g =>
    rw [step] at hs
    split_ifs at hs with hphase
    exact some.inj hs ▸ h.log hg hphase
  | read len =>
    rw [step] at hs
    split_ifs at hs
    obtain rfl := some.inj hs
    obtain ⟨first, hring⟩ := h.ring
    exact ⟨⟨first, hring.of_eq rfl rfl rfl⟩, h.follows, h.fresh, rfl, h.out⟩
  | next => exact h.next hg hs

theorem Sim.run (acts : List Action) {s' : State}
    (hs : runGuarded step (guard skip) s acts = some s') :
    Sim s' (acts.foldl (Queue.step skip) q) := by
  induction acts generalizing s q with
  | nil => exact some.inj hs ▸ h
  | cons a acts ih =>
    rw [runGuarded] at hs
    split_ifs at hs with hg
    obtain ⟨s₁, h₁, h₂⟩ := bind_eq_some_iff.mp hs
    exact ih (h.step_eq hg h₁) h₂

end

/-- The reader is given the numbers of the queue, each once, in order and in its own format. -/
theorem out_eq_queue (skip : Bool) (acts : List Action) (s : State)
    (h : runGuarded step (guard skip) init acts = some s) :
    s.out = (Queue.run skip acts).out ∧ unread s = (Queue.run skip acts).unread.map Prod.snd := by
  have hsim := sim_init.run acts h
  obtain ⟨first, hring⟩ := hsim.ring
  exact ⟨hsim.out, hring.unread_eq⟩

def record : List Group :=
  [.header 0 0 0, .meminfo fun _ => 0, .vmstat fun _ => 0, .buddyinfo (fun _ => 0) fun _ => 0]

def twoRecords : List Action :=
  record.map Action.log ++ Action.log (.proc 7 0 1 2 3 4 5) :: record.map Action.log ++
    [Action.read 100, .next, .next, .next, .next, .next]

theorem out_eq_queue_twoRecords : ∃ s, runGuarded step (guard false) init twoRecords = some s ∧
    s.out = [['\n'], snprintf .type 0, snprintf .timeSec 0, snprintf .timeNanosec 0,
      snprintf .memSize 0] ∧ s.out = (Queue.run false twoRecords).out := by
  have hrun : (runGuarded step (guard false) init twoRecords).map State.out = some [['\n'],
      snprintf .type 0, snprintf .timeSec 0, snprintf .timeNanosec 0, snprintf .memSize 0] := by
    decide +kernel
  obtain ⟨s, hs, hout⟩ := map_eq_some_iff.mp hrun
  exact ⟨s, hs, hout, (out_eq_queue false _ s hs).1⟩

/-! ## What goes wrong -/

/-- What the code gives the reader in a run, and what the reader is to be given. -/
def Gives (acts : List Action) (out expected : List (List Char)) : Prop :=
  (runList step init acts).map State.out = some out ∧ (Queue.run false acts).out = expected

/-- One record, read at once. -/
def readAll : List Action := record.map Action.log ++ Action.read 4096 :: replicate 43 .next

/-- A process whose `oom_score_adj` is -1. -/
def minusOne : List Action :=
  record.map Action.log ++ Action.log (.proc 7 (-1) 1 2 3 4 5) ::
    Action.read 4096 :: replicate 45 .next

/-- The last number is lost, and a number that is `MLOG_ID` is taken for a mark. -/
theorem reader_slips :
    (∃ out text, Gives readAll out (out ++ [text])) ∧
    ∃ out, Gives minusOne (out ++ [['\n']]) (out ++ [snprintf .adj (-1)]) := by
  refine ⟨⟨(Queue.run false readAll).out.dropLast, snprintf .orderEnd 0, ?_⟩,
    ⟨(Queue.run false minusOne).out.dropLast, ?_⟩⟩
  · constructor <;> decide +kernel
  · constructor <;> decide +kernel

end Cupcake.Mlog
