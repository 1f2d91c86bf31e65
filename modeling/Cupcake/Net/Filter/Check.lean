import Cupcake.Net.Filter.Classic

/-! `bpf_check_classic` and what it promises about the runs of the filters that it accepts. -/

namespace Cupcake.Net.Filter

def einval : Int := -22

def enomem : Int := -12

def bpfMaxinsns : ℕ := 4096

/-! ## The checks -/

def chkCodeAllowed (f : SockFilter) : Bool :=
  match f.op with
  | none | some .ldxAbs => false
  | some _ => true

def checkOp (flen pc : ℕ) (f : SockFilter) : Op → Bool
  | .alu .div .k | .alu .mod .k => f.k ≠ 0
  | .alu .lsh .k | .alu .rsh .k => f.k.toNat < 32
  | .ldMem | .ldxMem | .st | .stx => f.k.toNat < bpfMemwords
  | .ja => f.k.toNat < flen - pc - 1
  | .jmp _ _ => pc + f.jt + 1 < flen ∧ pc + f.jf + 1 < flen
  | .ldAbs _ => (bpfAncHelper f.k).isSome ∨ f.k.toNat < skfAdOff
  | _ => true

def checkInsn (flen pc : ℕ) (f : SockFilter) : Bool :=
  chkCodeAllowed f && f.op.all (checkOp flen pc f)

def checkInsns (flen : ℕ) : ℕ → List SockFilter → Bool
  | _, [] => true
  | pc, f :: fs => checkInsn flen pc f && checkInsns flen (pc + 1) fs

def meet (masks : ℕ → BitVec 16) (i : ℕ) (memvalid : BitVec 16) : ℕ → BitVec 16 :=
  Function.update masks i (masks i &&& memvalid)

def cellBit (k : BitVec 32) : BitVec 16 := 1#16 <<< k.toNat

/-- One turn of the loop of `check_load_and_stores`; `memvalid` is already cut down to
`masks[pc]`. -/
def cellsStep (pc : ℕ) (f : SockFilter) (masks : ℕ → BitVec 16) (memvalid : BitVec 16) :
    Option ((ℕ → BitVec 16) × BitVec 16) :=
  match f.op with
  | some .st | some .stx => some (masks, memvalid ||| cellBit f.k)
  | some .ldMem | some .ldxMem =>
    if memvalid &&& cellBit f.k ≠ 0 then some (masks, memvalid) else none
  | some .ja => some (meet masks (pc + 1 + f.k.toNat) memvalid, BitVec.allOnes 16)
  | some (.jmp _ _) =>
    some (meet (meet masks (pc + 1 + f.jt) memvalid) (pc + 1 + f.jf) memvalid, BitVec.allOnes 16)
  | _ => some (masks, memvalid)

/-- The loop of `check_load_and_stores` from `pc` on. -/
def checkCells : ℕ → List SockFilter → (ℕ → BitVec 16) → BitVec 16 → Bool
  | _, [], _, _ => true
  | pc, f :: fs, masks, memvalid =>
    match cellsStep pc f masks (memvalid &&& masks pc) with
    | some (masks', memvalid') => checkCells (pc + 1) fs masks' memvalid'
    | none => false

/-- `alloc` says whether `kmalloc_array` finds the memory for the masks. -/
def checkLoadAndStores (alloc : Bool) (filter : List SockFilter) : Int :=
  if alloc = false then enomem
  else if checkCells 0 filter (fun _ => BitVec.allOnes 16) 0 then 0
  else einval

def bpfCheckClassic (alloc : Bool) (filter : List SockFilter) : Int :=
  if filter.length = 0 ∨ filter.length > bpfMaxinsns then einval
  else if checkInsns filter.length 0 filter = false then einval
  else
    match filter.getLast?.bind SockFilter.op with
    | some (.ret _) => checkLoadAndStores alloc filter
    | _ => einval

/-! ## Accepted filters -/

structure Accepted (filter : List SockFilter) : Prop where
  length_le : filter.length ≤ bpfMaxinsns
  insn : ∀ pc f, filter[pc]? = some f → checkInsn filter.length pc f = true
  last : ∀ f, filter[filter.length - 1]? = some f → ∃ r, f.op = some (.ret r)
  nonempty : 0 < filter.length
  cells : checkCells 0 filter (fun _ => BitVec.allOnes 16) 0 = true

theorem checkInsns_get {flen pc : ℕ} {fs : List SockFilter} (h : checkInsns flen pc fs = true)
    {i : ℕ} {f : SockFilter} (hf : fs[i]? = some f) : checkInsn flen (pc + i) f = true := by
  induction fs generalizing pc i with
  | nil => simp at hf
  | cons g fs ih =>
    simp only [checkInsns, Bool.and_eq_true] at h
    cases i with
    | zero =>
      cases hf
      exact h.1
    | succ i =>
      have := ih h.2 hf
      rwa [show pc + 1 + i = pc + (i + 1) by omega] at this

theorem accepted_of_check {alloc : Bool} {filter : List SockFilter}
    (h : bpfCheckClassic alloc filter = 0) : Accepted filter := by
  unfold bpfCheckClassic at h
  split_ifs at h with hlen hins
  · cases h
  · cases h
  simp only [not_or, not_lt] at hlen
  have hins := Bool.of_not_eq_false hins
  split at h
  case h_2 => cases h
  case h_1 r hr =>
    have hcells : checkCells 0 filter (fun _ => BitVec.allOnes 16) 0 = true := by
      unfold checkLoadAndStores at h
      split_ifs at h with ha hc
      · cases h
      · exact hc
      · cases h
    refine ⟨hlen.2, ?_, ?_, Nat.pos_of_ne_zero hlen.1, hcells⟩
    · intro pc f hf
      simpa using checkInsns_get hins hf
    · intro f hf
      rw [List.getLast?_eq_getElem?, hf] at hr
      exact ⟨r, hr⟩

namespace Accepted

variable {filter : List SockFilter} {pc : ℕ} {f : SockFilter} {op : Op}

section

variable (h : Accepted filter) (hf : filter[pc]? = some f)

include h hf

theorem checkOp (hop : f.op = some op) :
    Filter.checkOp filter.length pc f op = true := by
  have hc := h.insn pc f hf
  simp only [checkInsn, Bool.and_eq_true, hop, Option.all_some] at hc
  exact hc.2

theorem exists_op :
    ∃ op, f.op = some op ∧ op ≠ .ldxAbs := by
  have hc := h.insn pc f hf
  simp only [checkInsn, Bool.and_eq_true] at hc
  cases hop : f.op with
  | none => simp [chkCodeAllowed, hop] at hc
  | some op =>
    refine ⟨op, rfl, ?_⟩
    rintro rfl
    simp [chkCodeAllowed, hop] at hc

theorem succ_lt (hop : f.op = some op) (hr : ∀ r, op ≠ .ret r) : pc + 1 < filter.length := by
  have hlt := (List.getElem?_eq_some_iff.mp hf).1
  by_contra hge
  have hpc : pc = filter.length - 1 := by omega
  rw [hpc] at hf
  obtain ⟨r, hret⟩ := h.last f hf
  rw [hop] at hret
  exact hr r (Option.some.inj hret)

end

end Accepted

end Cupcake.Net.Filter
