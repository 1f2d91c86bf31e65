import Cupcake.Net.Iptables.Marks
import Cupcake.Net.Iptables.Records

/-! The form of the entries of an accepted table. Nothing compares `target_offset` with the
size of the header or the matches with `target_offset`. -/

namespace Cupcake.Iptables

variable {m m' : Mem} {env : Env} {repl : Replace} {info : Info} {size e fuel : ℕ}

/-! ## Accepted tables -/

structure Stages (env : Env) (repl : Replace) (fuel : ℕ) (m m' : Mem) (info : Info) (w : Walk)
    (marked : Mem) : Prop where
  scanned : Scanned m repl.size w repl.size
  info_eq : info = w.info
  hooks : hookMissing repl info = false
  chains : markSourceChains info repl.validHooks fuel w.mem = some (some marked)
  checked : findCheckEntries env repl fuel marked 0 = Res.of (.ok m')

theorem translateTable_ok (h : translateTable env repl fuel m = Res.of (.ok (m', info))) :
    ∃ w marked, Stages env repl fuel m m' info w marked := by
  obtain ⟨w, hscan, h⟩ := Res.bind_ok h
  split_ifs at h with hcount hhooks
  · cases h
  · cases h
  cases hmark : markSourceChains w.info repl.validHooks fuel w.mem with
  | none =>
    rw [hmark] at h
    cases h
  | some r =>
    cases r with
    | none =>
      rw [hmark] at h
      cases h
    | some marked =>
      rw [hmark] at h
      obtain ⟨m₁, hcheck, h⟩ := Res.bind_ok h
      cases h
      exact ⟨w, marked, checkEntries_ok Scanned.init hscan, rfl, eq_false_of_ne_true hhooks, hmark,
        hcheck⟩

section Stages

variable {w : Walk} {marked : Mem}

section

variable (h : Stages env repl fuel m m' info w marked)

include h

theorem Stages.shape : Shape m repl.size :=
  h.scanned.shape

theorem Stages.localOk (he : IsEntry m repl.size e) :
    LocalOk m repl.size e := (h.scanned.local_ok e he.1 he.2).1

theorem Stages.hookEntry {hook : ℕ} (hlt : hook < numHooks) (hvalid : repl.validHooks.testBit hook) :
    IsEntry m repl.size (info.hookEntry hook) ∧ IsEntry m repl.size (info.underflow hook) ∧
      checkUnderflow m (info.underflow hook) := by
  have hmiss := h.hooks
  simp only [hookMissing, List.any_eq_false, List.mem_range] at hmiss
  have hboth := hmiss hook hlt
  simp only [hvalid, Bool.true_and, Bool.or_eq_true, decide_eq_true_eq, not_or] at hboth
  have hinfo := h.scanned.info
  rw [← h.info_eq] at hinfo
  have hh := (hinfo.hook hook).resolve_left hboth.1
  have hu := (hinfo.underflow hook).resolve_left hboth.2
  exact ⟨hh.1, hu.1, hu.2⟩

theorem Stages.info_size : info.size = repl.size := by
  rw [h.info_eq]
  exact h.scanned.info.size_eq

theorem Stages.isMarked : Marked m repl.size marked := by
  have hsize := h.info_size
  have hchains := h.chains
  rw [markSourceChains] at hchains
  rw [← hsize]
  refine markHooks_marked (hsize ▸ h.shape) (hsize ▸ repl.size_lt) (fun hook hmem hvalid => ?_)
    ⟨hsize ▸ h.scanned.kept, fun e he => ?_⟩ hchains
  · rw [hsize]
    exact (h.hookEntry (List.mem_range.mp hmem) hvalid).1
  · rw [hsize] at he ⊢
    rw [(h.scanned.cleared e he.1 he.2).2]
    exact he.zero

theorem Stages.done (hfits : ∀ e, IsEntry m repl.size e → Fits m e) (he : IsEntry m repl.size e) :
    EntryDone env m m' e :=
  (findCheckEntries_ok h.shape (fun _ => h.localOk) hfits .zero (Nat.zero_le _)
    (fun i _ hi => h.isMarked.kept i hi) h.checked).1 e he (Nat.zero_le _)

end

end Stages

/-! ## Well-formed tables -/

structure EntryOk (m : Mem) (e : ℕ) : Prop where
  target_start : sizeofEntry ≤ targetOffset m e
  records : Records m (e + sizeofEntry) (getTarget m e)
  target_min : sizeofRecord ≤ recordSize m (getTarget m e)
  target_end : targetOffset m e + recordSize m (getTarget m e) ≤ nextOffset m e

/-- Entries of this form tile the table. -/
structure WellFormed (m : Mem) (size : ℕ) : Prop where
  tiles : Boundary m size
  entries : ∀ e, IsEntry m size e → EntryOk m e

/-- When an accepted table is well formed. -/
theorem wellFormed_iff_fits {r : Mem × Info} (h : translateTable env repl fuel m = Res.of (.ok r)) :
    WellFormed m repl.size ↔ ∀ e, IsEntry m repl.size e → Fits m e := by
  obtain ⟨w, marked, hst⟩ := translateTable_ok h
  constructor
  · intro hwf e he
    exact ⟨(hwf.entries e he).target_start, (hwf.entries e he).records.meets⟩
  · intro hfits
    refine ⟨hst.shape.boundary, fun e he => ?_⟩
    have hdone := hst.done hfits he
    exact ⟨(hfits e he).header, hdone.records, hdone.target_min, (hst.localOk he).target_end⟩

/-! ## Two tables -/

def Res.succeeds {α : Type} (x : Res α) : Bool :=
  match x.run with
  | some (.ok _) => true
  | _ => false

theorem Res.exists_of_succeeds {α : Type} {x : Res α} (h : x.succeeds = true) :
    ∃ a, x = Res.of (.ok a) := by
  cases x with
  | none => cases h
  | some y =>
    cases y with
    | error err => cases h
    | ok a => exact ⟨a, rfl⟩

def bytesOf (l : List (ℕ × UInt8)) : Mem := fun i => (l.lookup i).getD 0

/-- `ipt_builtin_tg[0]`. -/
def standardExt : Extension where
  address := 0xFFFFFFC000A00000
  name := standardTarget
  revision := 0
  size := 4
  table := none
  hooks := 0
  proto := 0
  checkentry := none
  name_lt := by decide
  name_ne := by decide
  size_lt := by decide

/-- The `icmp` match of `ipt_builtin_mt`, with `icmp_checkentry`. -/
def icmpExt : Extension where
  address := 0xFFFFFFC000A00100
  name := [105, 99, 109, 112]
  revision := 0
  size := 4
  table := none
  hooks := 0
  proto := 1
  checkentry := some fun data => (if data.getD 3 0 &&& 0xFE = 0 then 0 else -22, data)
  name_lt := by decide
  name_ne := by decide
  size_lt := by decide

def builtins : Env where
  matchExts := fun _ => (⟨[icmpExt], []⟩, ⟨[icmpExt], []⟩)
  targetExts := fun _ => (⟨[standardExt], []⟩, ⟨[standardExt], []⟩)
  counter := fun e => some (16 * e)

/-- A table `filter` of two entries, the second of which has the policy of all hooks. -/
def filterOf (size policy : ℕ) (h : size < 2 ^ 32) : Replace where
  name := [102, 105, 108, 116, 101, 114]
  validHooks := 14
  numEntries := 2
  size := size
  hookEntry := fun _ => 0
  underflow := fun _ => policy
  size_lt := h

def acceptAll (e : ℕ) : List (ℕ × UInt8) :=
  [(e + 88, 112), (e + 90, 152), (e + 112, 40),
    (e + 144, 0xFE), (e + 145, 0xFF), (e + 146, 0xFF), (e + 147, 0xFF)]

def icmpTable : Mem := bytesOf ([(80, 1), (88, 152), (90, 192),
  (112, 40), (114, 105), (115, 99), (116, 109), (117, 112), (144, 8), (146, 255),
  (152, 40), (184, 0xFE), (185, 0xFF), (186, 0xFF), (187, 0xFF)] ++ acceptAll 192)

theorem icmpTable_accepted :
    ∃ r, translateTable builtins (filterOf 344 192 (by decide)) 6 icmpTable = Res.of (.ok r) :=
  Res.exists_of_succeeds (by decide +kernel)

theorem wellFormed_iff_icmpTable :
    ∃ r, translateTable builtins (filterOf 344 192 (by decide)) 6 icmpTable = Res.of (.ok r) ∧
      (WellFormed icmpTable 344 ↔ ∀ e, IsEntry icmpTable 344 e → Fits icmpTable e) := by
  obtain ⟨r, hr⟩ := icmpTable_accepted
  exact ⟨r, hr, wellFormed_iff_fits hr⟩

def headerTable : Mem := bytesOf ([(0, 40), (90, 144),
  (32, 0xFE), (33, 0xFF), (34, 0xFF), (35, 0xFF)] ++ acceptAll 144)

theorem headerTable_accepted :
    (∃ r, translateTable builtins (filterOf 296 144 (by decide)) 6 headerTable = Res.of (.ok r)) ∧
      ¬ WellFormed headerTable 296 := by
  refine ⟨Res.exists_of_succeeds (by decide +kernel), fun hwf => ?_⟩
  have hstart := (hwf.entries 0 ⟨.zero, by decide⟩).target_start
  exact absurd hstart (by decide)

end Cupcake.Iptables
