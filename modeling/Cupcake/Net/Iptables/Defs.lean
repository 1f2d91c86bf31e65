import Cupcake.Lib.Bytes
import Cupcake.Lib.Except
import Cupcake.Lib.Word

/-! The check of a table of rules, after `net/ipv4/netfilter/ip_tables.c` and
`net/netfilter/x_tables.c`. The table is a run of bytes at `entry0`; all addresses are
offsets from there. -/

namespace Cupcake.Iptables

open Bytes

abbrev Mem := ℕ → UInt8

inductive Errno
  | einval
  | eloop
  | enomem
  | eio
  | enoent
  | eprototype
  /-- what the check of an extension returned -/
  | check (ret : ℤ)

abbrev Res := ExceptT Errno Option

def Res.of {α : Type} (x : Except Errno α) : Res α := some x

def Res.stuck {α : Type} : Res α := none

/-! ## Entries

`struct ipt_entry`: `ip` at 0, `nfcache` at 84, `target_offset` at 88, `next_offset` at 90,
`comefrom` at 92, the two counters at 96 and 104, `elems` at 112. -/

def sizeofEntry : ℕ := 112

def sizeofIp : ℕ := 84

def ipProto (m : Mem) (e : ℕ) : ℕ := load m (e + 80) 2

def ipFlags (m : Mem) (e : ℕ) : ℕ := load m (e + 82) 1

def ipInvflags (m : Mem) (e : ℕ) : ℕ := load m (e + 83) 1

def targetOffset (m : Mem) (e : ℕ) : ℕ := load m (e + 88) 2

def nextOffset (m : Mem) (e : ℕ) : ℕ := load m (e + 90) 2

def comefrom (m : Mem) (e : ℕ) : ℕ := load m (e + 92) 4

def setComefrom (m : Mem) (e v : ℕ) : Mem := store m (e + 92) 4 v

def pcnt (m : Mem) (e : ℕ) : ℕ := load m (e + 96) 8

def setPcnt (m : Mem) (e v : ℕ) : Mem := store m (e + 96) 8 v

def setBcnt (m : Mem) (e v : ℕ) : Mem := store m (e + 104) 8 v

def getTarget (m : Mem) (e : ℕ) : ℕ := e + targetOffset m e

/-! ## Records

`struct xt_entry_match` and `struct xt_entry_target`: the size at 0, for the user a name of 29
bytes at 2 and the revision at 31, for the kernel a pointer at 8, `data` at 32. -/

def sizeofRecord : ℕ := 32

def recordSize (m : Mem) (t : ℕ) : ℕ := load m t 2

def recordRevision (m : Mem) (t : ℕ) : ℕ := load m (t + 31) 1

def recordPointer (m : Mem) (t : ℕ) : ℕ := load m (t + 8) 8

def setRecordPointer (m : Mem) (t v : ℕ) : Mem := store m (t + 8) 8 v

def named (m : Mem) (t : ℕ) (name : List UInt8) : Bool :=
  read m (t + 2) (name.length + 1) = name ++ [0]

def standardTarget : List UInt8 := []

def errorTarget : List UInt8 := [69, 82, 82, 79, 82]

/-- The `verdict` of a `struct xt_standard_target`, as stored. -/
def rawVerdict (m : Mem) (t : ℕ) : ℕ := load m (t + 32) 4

def verdict (m : Mem) (t : ℕ) : ℤ :=
  if rawVerdict m t < 2 ^ 31 then rawVerdict m t else (rawVerdict m t : ℤ) - 2 ^ 32

/-! ## Checks of one entry -/

def ipCheckentry (m : Mem) (e : ℕ) : Bool :=
  ipFlags m e &&& 0xFC = 0 ∧ ipInvflags m e &&& 0x80 = 0

def unconditional (m : Mem) (e : ℕ) : Bool :=
  targetOffset m e = sizeofEntry ∧ (read m e sizeofIp).all (· = 0)

def checkEntry (m : Mem) (e : ℕ) : Except Errno Unit :=
  if ¬ ipCheckentry m e then .error .einval
  else if nextOffset m e < targetOffset m e + sizeofRecord then .error .einval
  else if nextOffset m e < targetOffset m e + recordSize m (getTarget m e) then .error .einval
  else .ok ()

def nfDrop : ℕ := 0

def nfAccept : ℕ := 1

def checkUnderflow (m : Mem) (e : ℕ) : Bool :=
  unconditional m e && named m (getTarget m e) standardTarget &&
    (let verdict := wsub 32 (wsub 32 0 (rawVerdict m (getTarget m e))) 1
     verdict = nfDrop ∨ verdict = nfAccept)

def numHooks : ℕ := 5

structure Replace where
  name : List UInt8
  validHooks : ℕ
  numEntries : ℕ
  size : ℕ
  hookEntry : ℕ → ℕ
  underflow : ℕ → ℕ
  size_lt : size < 2 ^ 32

structure Info where
  size : ℕ
  number : ℕ
  stacksize : ℕ
  hookEntry : ℕ → ℕ
  underflow : ℕ → ℕ

def noHook : ℕ := 0xFFFFFFFF

def checkHook (repl : Replace) (m : Mem) (e : ℕ) (info : Info) (h : ℕ) : Except Errno Info :=
  if ¬ repl.validHooks.testBit h then .ok info
  else
    let info := if e = repl.hookEntry h then
      { info with hookEntry := Function.update info.hookEntry h (repl.hookEntry h) } else info
    if e = repl.underflow h then
      if ¬ checkUnderflow m e then .error .einval
      else .ok { info with underflow := Function.update info.underflow h (repl.underflow h) }
    else .ok info

def checkEntrySizeAndHooks (repl : Replace) (m : Mem) (info : Info) (e : ℕ) :
    Except Errno (Mem × Info) :=
  if e % 8 ≠ 0 ∨ repl.size ≤ e + sizeofEntry ∨ repl.size < e + nextOffset m e then .error .einval
  else if nextOffset m e < sizeofEntry + sizeofRecord then .error .einval
  else do
    checkEntry m e
    let info ← (List.range numHooks).foldlM (checkHook repl m e) info
    return (setComefrom (setBcnt (setPcnt m e 0) e 0) e 0, info)

structure Walk where
  mem : Mem
  info : Info
  count : ℕ

/-- The first loop of `translate_table`. -/
def checkEntries (repl : Replace) : ℕ → Walk → ℕ → Res Walk
  | 0, _, _ => Res.stuck
  | fuel + 1, w, e =>
    if e < repl.size then do
      let (m, info) ← Res.of (checkEntrySizeAndHooks repl w.mem w.info e)
      let info := if named m (getTarget m e) errorTarget then
        { info with stacksize := info.stacksize + 1 } else info
      checkEntries repl fuel ⟨m, info, w.count + 1⟩ (e + nextOffset m e)
    else return w

/-! ## Chains -/

/-- The bit in `comefrom` of the rules on the way to the present one. -/
def loopBit : ℕ := 5

def findJumpTarget (size : ℕ) (m : Mem) (target : ℕ) : ℕ → ℕ → Option Bool
  | 0, _ => none
  | fuel + 1, e =>
    if e < size then
      if e = target then some true else findJumpTarget size m target fuel (e + nextOffset m e)
    else some false

/-- Return from a rule, up to the last big jump: `none` if the start is reached. -/
def backtrack : ℕ → Mem → ℕ → Option (Mem × Option ℕ)
  | 0, _, _ => none
  | fuel + 1, m, pos =>
    let m := setComefrom m pos (comefrom m pos ^^^ 2 ^ loopBit)
    let back := pcnt m pos % 2 ^ 32
    let m := setPcnt m pos 0
    if back = pos then some (m, none)
    else if pos = wadd 32 back (nextOffset m back) then backtrack fuel m back
    else some (m, some back)

/-- What one turn of the inner loop of `mark_source_chains` leads to. -/
inductive Turn
  | fail
  | done (m : Mem)
  | go (m : Mem) (pos : ℕ)

def standardWith (m : Mem) (e : ℕ) (p : ℤ → Bool) : Bool :=
  named m (getTarget m e) standardTarget && p (verdict m (getTarget m e))

def leave (size fuel : ℕ) (m : Mem) (pos : ℕ) : Option Turn :=
  match backtrack fuel m pos with
  | none => none
  | some (m, none) => some (.done m)
  | some (m, some pos) =>
    let next := wadd 32 pos (nextOffset m pos)
    if size ≤ next then some .fail else some (.go (setPcnt m next pos) next)

def enter (size fuel : ℕ) (m : Mem) (pos : ℕ) : Option Turn :=
  if standardWith m pos (0 ≤ ·) then
    let newpos := (verdict m (getTarget m pos)).toNat
    if wsub 64 size sizeofEntry < newpos then some .fail
    else match findJumpTarget size m newpos fuel 0 with
      | none => none
      | some false => some .fail
      | some true => some (.go (setPcnt m newpos pos) newpos)
  else
    let newpos := wadd 32 pos (nextOffset m pos)
    if size ≤ newpos then some .fail else some (.go (setPcnt m newpos pos) newpos)

/-- `-NF_MAX_VERDICT - 1`. -/
def minVerdict : ℤ := -6

def turn (size hook fuel : ℕ) (m : Mem) (pos : ℕ) : Option Turn :=
  let visited := (comefrom m pos).testBit hook
  if (comefrom m pos).testBit loopBit then some .fail
  else
    let m := setComefrom m pos (comefrom m pos ||| (2 ^ hook ||| 2 ^ loopBit))
    if unconditional m pos && standardWith m pos (· < 0) || visited then
      if standardWith m pos (· < minVerdict) then some .fail
      else leave size fuel m pos
    else enter size fuel m pos

def walkHook (size hook : ℕ) : ℕ → Mem → ℕ → Option (Option Mem)
  | 0, _, _ => none
  | fuel + 1, m, pos =>
    match turn size hook fuel m pos with
    | none => none
    | some .fail => some none
    | some (.done m) => some (some m)
    | some (.go m pos) => walkHook size hook fuel m pos

def markHooks (info : Info) (validHooks fuel : ℕ) : List ℕ → Mem → Option (Option Mem)
  | [], m => some (some m)
  | hook :: hooks, m =>
    if ¬ validHooks.testBit hook then markHooks info validHooks fuel hooks m
    else
      let pos := info.hookEntry hook
      match walkHook info.size hook fuel (setPcnt m pos pos) pos with
      | none => none
      | some none => some none
      | some (some m) => markHooks info validHooks fuel hooks m

/-- `some none` is the return of 0, `some (some m)` the return of 1. -/
def markSourceChains (info : Info) (validHooks fuel : ℕ) (m : Mem) : Option (Option Mem) :=
  markHooks info validHooks fuel (List.range numHooks) m

/-! ## Matches and targets -/

/-- `struct xt_match` and `struct xt_target`. The check gets the data of the record and may
change it. -/
structure Extension where
  address : ℕ
  name : List UInt8
  revision : ℕ
  size : ℕ
  table : Option (List UInt8)
  hooks : ℕ
  proto : ℕ
  checkentry : Option (List UInt8 → ℤ × List UInt8)
  name_lt : name.length < 29
  name_ne : 0 ∉ name
  size_lt : size < 2 ^ 31

/-- The registered extensions of one kind, those for IPv4 and those for any family, whose
modules are there to be used. -/
structure Registry where
  ipv4 : List Extension
  unspec : List Extension

def findIn (m : Mem) (t : ℕ) : List Extension → Errno → Except Errno Extension
  | [], err => .error err
  | x :: xs, err =>
    if named m t x.name then
      if x.revision = recordRevision m t then .ok x else findIn m t xs .eprototype
    else findIn m t xs err

/-- `xt_find_match` and `xt_find_target`. -/
def Registry.find (r : Registry) (m : Mem) (t : ℕ) : Except Errno Extension :=
  match findIn m t r.ipv4 .enoent with
  | .ok x => .ok x
  | .error _ => findIn m t r.unspec .enoent

/-- The registries are given for each record, before and after `request_module`. -/
structure Env where
  matchExts : ℕ → Registry × Registry
  targetExts : ℕ → Registry × Registry
  /-- `xt_percpu_counter_alloc` for an entry -/
  counter : ℕ → Option ℕ

/-- `xt_request_find_match` and `xt_request_find_target`. -/
def requestFind (r : Registry × Registry) (m : Mem) (t : ℕ) : Except Errno Extension :=
  match r.1.find m t with
  | .ok x => .ok x
  | .error _ => r.2.find m t

def xtAlign (n : ℕ) : ℕ := (n + 7) / 8 * 8 % 2 ^ 32

/-- The part that `xt_check_match` and `xt_check_target` share, after the check of the size. -/
def checkExtension (x : Extension) (table : List UInt8) (hookMask proto : ℕ) (inv : Bool)
    (m : Mem) (t : ℕ) : Except Errno Mem :=
  if x.table.any (· ≠ table) then .error .einval
  else if x.hooks ≠ 0 ∧ hookMask &&& x.hooks ≠ hookMask then .error .einval
  else if x.proto ≠ 0 ∧ (x.proto ≠ proto ∨ inv) then .error .einval
  else match x.checkentry with
    | none => .ok m
    | some check =>
      let (ret, data) := check (read m (t + sizeofRecord) x.size)
      if ret < 0 then .error (.check ret)
      else if 0 < ret then .error .eio
      else .ok (write m (t + sizeofRecord) x.size data)

def xtCheckMatch (x : Extension) (size : ℕ) (table : List UInt8) (hookMask proto : ℕ) (inv : Bool)
    (m : Mem) (t : ℕ) : Except Errno Mem :=
  if xtAlign x.size ≠ size ∧ x.size ≠ 2 ^ 32 - 1 then .error .einval
  else checkExtension x table hookMask proto inv m t

def xtCheckTarget (x : Extension) (size : ℕ) (table : List UInt8) (hookMask proto : ℕ) (inv : Bool)
    (m : Mem) (t : ℕ) : Except Errno Mem :=
  if xtAlign x.size ≠ size then .error .einval
  else checkExtension x table hookMask proto inv m t

def invProto (m : Mem) (e : ℕ) : Bool := (ipInvflags m e).testBit 6

def findCheckMatch (env : Env) (repl : Replace) (e hookMask : ℕ) (m : Mem) (t : ℕ) :
    Except Errno Mem := do
  let x ← requestFind (env.matchExts t) m t
  let m := setRecordPointer m t x.address
  xtCheckMatch x (wsub 32 (recordSize m t) sizeofRecord) repl.name hookMask (ipProto m e % 256)
    (invProto m e) m t

/-- `xt_ematch_foreach` in `find_check_entry`. -/
def findCheckMatches (env : Env) (repl : Replace) (e hookMask : ℕ) : ℕ → Mem → ℕ → Res Mem
  | 0, _, _ => Res.stuck
  | fuel + 1, m, t =>
    if t < getTarget m e then do
      let m ← Res.of (findCheckMatch env repl e hookMask m t)
      findCheckMatches env repl e hookMask fuel m (t + recordSize m t)
    else return m

def checkTarget (repl : Replace) (x : Extension) (m : Mem) (e : ℕ) : Res Mem :=
  let t := getTarget m e
  if recordPointer m t ≠ x.address % 2 ^ 64 then Res.stuck
  else Res.of (xtCheckTarget x (wsub 32 (recordSize m t) sizeofRecord) repl.name (comefrom m e)
    (ipProto m e % 256) (invProto m e) m t)

def findCheckEntry (env : Env) (repl : Replace) (fuel : ℕ) (m : Mem) (e : ℕ) : Res Mem := do
  let counter ← Res.of (match env.counter e with | none => .error .enomem | some v => .ok v)
  let m := setPcnt m e counter
  let m ← findCheckMatches env repl e (comefrom m e) fuel m (e + sizeofEntry)
  let t := getTarget m e
  let x ← Res.of (requestFind (env.targetExts t) m t)
  checkTarget repl x (setRecordPointer m t x.address) e

/-- The last loop of `translate_table`. -/
def findCheckEntries (env : Env) (repl : Replace) : ℕ → Mem → ℕ → Res Mem
  | 0, _, _ => Res.stuck
  | fuel + 1, m, e =>
    if e < repl.size then do
      let m ← findCheckEntry env repl fuel m e
      findCheckEntries env repl fuel m (e + nextOffset m e)
    else return m

/-! ## The check of a table -/

def hookMissing (repl : Replace) (info : Info) : Bool :=
  (List.range numHooks).any fun h =>
    repl.validHooks.testBit h && (info.hookEntry h = noHook || info.underflow h = noHook)

def translateTable (env : Env) (repl : Replace) (fuel : ℕ) (m : Mem) : Res (Mem × Info) := do
  let info : Info := ⟨repl.size, repl.numEntries, 0, fun _ => noHook, fun _ => noHook⟩
  let w ← checkEntries repl fuel ⟨m, info, 0⟩ 0
  if w.count ≠ repl.numEntries then Res.of (.error .einval)
  else if hookMissing repl w.info then Res.of (.error .einval)
  else match markSourceChains w.info repl.validHooks fuel w.mem with
    | none => Res.stuck
    | some none => Res.of (.error .eloop)
    | some (some m) => do
      let m ← findCheckEntries env repl fuel m 0
      return (m, w.info)

end Cupcake.Iptables
