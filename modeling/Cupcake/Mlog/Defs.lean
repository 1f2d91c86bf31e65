import Cupcake.Lib.Run
import Cupcake.Lib.Word
import Mathlib.Data.Nat.Digits.Defs

/-! The memory log: records of numbers in a ring, printed column by column, after
`drivers/misc/mediatek/mlog/mlog_logger.c` with all filters on. -/

namespace Cupcake.Mlog

/-! ## Formats -/

/-- The format strings, from `cr_str` on. -/
inductive Fmt
  | cr | type | timeSec | timeNanosec | memSize | accCount | pid | adj
  | orderStart | orderMiddle | orderEnd
  deriving DecidableEq, Repr

def lu (v : ℤ) : List Char := Nat.toDigits 10 (v % 2 ^ 64).toNat

def ld (v : ℤ) : List Char :=
  if v < 0 then '-' :: Nat.toDigits 10 v.natAbs else Nat.toDigits 10 v.natAbs

def pad (width : ℕ) (c : Char) (s : List Char) : List Char := s.leftpad width c

/-- The text that `snprintf` gives for a number. -/
def snprintf : Fmt → ℤ → List Char
  | .cr, v => [Char.ofNat v.toNat]
  | .type, v => ['<'] ++ ld v ++ ['>']
  | .timeSec, v => [',', '['] ++ pad 5 ' ' (lu v)
  | .timeNanosec, v => ['.'] ++ pad 6 '0' (lu v) ++ [']']
  | .memSize, v => [','] ++ pad 6 ' ' (lu v)
  | .accCount, v => [','] ++ pad 7 ' ' (lu v)
  | .pid, v => [',', '['] ++ lu v ++ [']']
  | .adj, v => [',', ' '] ++ pad 5 ' ' (ld v)
  | .orderStart, v => [',', ' ', '['] ++ pad 6 ' ' (lu v)
  | .orderMiddle, v => [',', ' '] ++ pad 6 ' ' (lu v)
  | .orderEnd, v => [',', ' '] ++ pad 6 ' ' (lu v) ++ [']']

def hweight32 (n : ℕ) : ℕ := ((List.range 32).filter fun i => n.testBit i).length

def mFilterAll : ℕ := 2 ^ 14 - 1

/-- `V_FILTER_ALL`: `V_PSWPIN`, `V_PSWPOUT` and `V_PGFMFAULT`. -/
def vFilterAll : ℕ := 2 ^ 3 - 1

/-- `P_FILTER_ALL`: all bits from `P_ADJ` to `P_FMFAULT`. -/
def pFilterAll : ℕ := 2 ^ 6 - 1

/-- `P_RSS` and `P_RSWAP`. -/
def pFmtSize : ℕ := 2 ^ 1 + 2 ^ 2

/-- The bits from `P_SWPIN` to `P_MAJFAULT`. -/
def pFmtCount : ℕ := 2 ^ 3 + 2 ^ 4 + 2 ^ 5 + 2 ^ 6 + 2 ^ 7

def maxOrder : ℕ := 11

/-- The columns that `mlog_reset_format` sets up before those of a process. -/
def headerFmts : List Fmt :=
  [Fmt.cr, .type, .timeSec, .timeNanosec] ++
    List.replicate (hweight32 mFilterAll) Fmt.memSize ++
    List.replicate (hweight32 vFilterAll) Fmt.accCount ++
    (List.replicate 2
      (Fmt.orderStart :: List.replicate (maxOrder - 2) Fmt.orderMiddle ++ [Fmt.orderEnd])).flatten

def procFmts : List Fmt :=
  [Fmt.pid, .adj] ++ List.replicate (hweight32 (pFilterAll &&& pFmtSize)) Fmt.memSize ++
    List.replicate (hweight32 (pFilterAll &&& pFmtCount)) Fmt.accCount

def strfmtList : List Fmt := headerFmts ++ procFmts

def strfmtLen : ℕ := strfmtList.length

def strfmtProc : ℕ := headerFmts.length

/-! ## The ring -/

def mlogBufLen : ℕ := 2 ^ 16 / 4

/-- `MLOG_ID`, which is `ULONG_MAX` in a `long`. -/
def mlogId : ℤ := -1

def mlogStrLen : ℕ := 32

inductive Phase
  | meminfo | vmstat | buddyinfo | procinfo
  deriving DecidableEq, Repr

structure State where
  /-- `mlog_buffer`, by index. -/
  buffer : ℕ → ℤ
  mlogStart : ℕ
  mlogEnd : ℕ
  strfmtIdx : ℕ
  phase : Phase
  /-- The length of the reader's buffer and how much of it is filled, inside `mlog_doread`. -/
  reader : Option (ℕ × ℕ)
  /-- What the reader was given, number by number. -/
  out : List (List Char)

def mlogBuf (s : State) (idx : ℕ) : ℤ := s.buffer (idx % mlogBufLen)

def mlogEmit32 (s : State) (v : ℤ) : State :=
  let s := { s with
    buffer := Function.update s.buffer (s.mlogEnd % mlogBufLen) v
    mlogEnd := wadd 32 s.mlogEnd 1 }
  if mlogBufLen < wsub 32 s.mlogEnd s.mlogStart then
    { s with mlogStart := wsub 32 s.mlogEnd mlogBufLen }
  else s

inductive Group
  | header (type sec usec : ℕ)
  | meminfo (v : Fin 14 → ℕ)
  | vmstat (v : Fin 3 → ℕ)
  | buddyinfo (normal high : Fin 11 → ℕ)
  | proc (pid : ℕ) (oomScoreAdj : ℤ) (rss rswap swapIn swapOut fmFlt : ℕ)

/-- A number as `mlog_emit_32` is given it, in a `long`. -/
def long (fmt : Fmt) (v : ℤ) : Fmt × ℤ := (fmt, v.bmod (2 ^ 64))

def zoneFmt (order : Fin 11) : Fmt :=
  if order = 0 then .orderStart else if order = 10 then .orderEnd else .orderMiddle

def zoneEntries (nrFree : Fin 11 → ℕ) : List (Fmt × ℤ) :=
  List.ofFn fun order => long (zoneFmt order) (nrFree order)

def Group.entries : Group → List (Fmt × ℤ)
  | header type sec usec =>
    [(.cr, mlogId), long .type type, long .timeSec sec, long .timeNanosec usec]
  | meminfo v => List.ofFn fun i => long .memSize (v i)
  | vmstat v => List.ofFn fun i => long .accCount (v i)
  | buddyinfo normal high => zoneEntries normal ++ zoneEntries high
  | proc pid oomScoreAdj rss rswap swapIn swapOut fmFlt =>
    [long .pid pid, long .adj oomScoreAdj, long .memSize rss, long .memSize rswap,
      long .accCount swapIn, long .accCount swapOut, long .accCount fmFlt]

/-- The phase in which `mlog` logs a part, and the one that follows. A record may have any
number of processes, so that a header may come instead of one more. -/
def Group.phases : Group → Phase × Phase
  | header .. => (.procinfo, .meminfo)
  | meminfo _ => (.meminfo, .vmstat)
  | vmstat _ => (.vmstat, .buddyinfo)
  | buddyinfo .. => (.buddyinfo, .procinfo)
  | proc .. => (.procinfo, .procinfo)

/-! ## The reader -/

/-- The loop of `_doread`: `start`, `fmt_idx` and the number fetched. -/
def fetch (s : State) : ℕ → ℕ → ℤ → ℕ × ℕ × ℤ
  | 0, start, v => (start, s.strfmtIdx, v)
  | fuel + 1, start, v =>
    if start < s.mlogEnd then
      let v := mlogBuf s start
      let start := wadd 32 start 1
      if s.strfmtIdx = 0 ∧ v ≠ mlogId then fetch s fuel start v
      else if v = mlogId ∧ s.strfmtIdx ≠ 0 then (start, 0, v)
      else (start, s.strfmtIdx, v)
    else (start, s.strfmtIdx, v)

/-- The rest of `_doread`, once a number is fetched. -/
def dumpFetched (s : State) (start fmtIdx : ℕ) (v : ℤ) : Option (List Char) × State :=
  if s.mlogEnd ≤ start then (none, { s with mlogStart := start, strfmtIdx := fmtIdx })
  else
    let v := if fmtIdx = 0 then 10 else v
    let text := snprintf (strfmtList.getD fmtIdx .cr) v
    let fmtIdx := if strfmtLen ≤ fmtIdx + 1 then strfmtProc else fmtIdx + 1
    (some text, { s with mlogStart := start, strfmtIdx := fmtIdx })

/-- The loop of `_doread` for the session of `mlog_doread`, whose `start` is `mlog_start`. -/
def fetchNext (s : State) : ℕ × ℕ × ℤ := fetch s (wsub 32 s.mlogEnd s.mlogStart) s.mlogStart 0

def doread (s : State) : Option (List Char) × State :=
  dumpFetched s (fetchNext s).1 (fetchNext s).2.1 (fetchNext s).2.2

inductive Action
  | log (group : Group)
  | read (len : ℕ)
  | next

/-- A call with no unread number sleeps; a round that prints nothing ends its call. -/
def step (s : State) : Action → Option State
  | .log group =>
    if s.phase = group.phases.1 then
      some { (group.entries.foldl (fun s e => mlogEmit32 s e.2) s) with phase := group.phases.2 }
    else none
  | .read len =>
    if s.reader.isSome ∨ s.mlogStart = s.mlogEnd then none
    else some { s with reader := some (len, 0) }
  | .next =>
    match s.reader with
    | none => none
    | some (len, size) =>
      if mlogStrLen < wsub 64 len size then
        match doread s with
        | (none, s) => some { s with reader := none }
        | (some text, s) =>
          some { s with reader := some (len, size + text.length), out := s.out ++ [text] }
      else some { s with reader := none }

def init : State where
  buffer := fun _ => 0
  mlogStart := 0
  mlogEnd := 0
  strfmtIdx := 0
  phase := .procinfo
  reader := none
  out := []

end Cupcake.Mlog
