import Cupcake.Lib.Cells
import Cupcake.Lib.Word

/-! The boot environment: one buffer of `name=value` strings, after
`drivers/misc/mediatek/sysenv/mtk_sysenv.c`. An index counts from `env_data`. -/

namespace Cupcake.Sysenv

open Cells

abbrev Byte := UInt8

def sep : Byte := 61

def cfgEnvSize : ℕ := 0x4000

/-- The buffer less `checksum`, `sig_head` and `sig_tail`. -/
def cfgEnvDataSize : ℕ := cfgEnvSize - 4 - 8 - 8

/-- The offset of `env_data` in `env_buffer`, which is the size of `sig_head`. -/
def cfgEnvDataOffset : ℕ := 8

def kmallocMaxSize : ℕ := 2 ^ (11 + 12)

/-- A string in a buffer of `kmalloc`: the callers of `set_env` have no others. -/
structure CStr where
  bytes : List Byte
  noNul : 0 ∉ bytes
  short : bytes.length < kmallocMaxSize
  deriving DecidableEq

def CStr.mem (s : CStr) : List Byte := s.bytes ++ [0]

structure Name extends CStr where
  noSep : sep ∉ bytes
  ne_nil : bytes ≠ []
  deriving DecidableEq

inductive InitState
  | uninit | init | ready
  deriving DecidableEq, Repr

structure Env where
  initState : InitState
  /-- `env_valid`. -/
  valid : Bool
  /-- The bytes of `env_buffer` from `env_data` on, unless its allocation failed. -/
  data : Option (List Byte)
  /-- What the daemon was sent. -/
  sent : List (List Byte)

def envInit (allocated : Bool) : Env where
  initState := .uninit
  valid := false
  data := if allocated then some (List.replicate (cfgEnvSize - cfgEnvDataOffset) 0) else none
  sent := []

/-! ## Looking up -/

def strEnd (mem : List Byte) : ℕ → ℕ → Option ℕ
  | 0, _ => none
  | fuel + 1, p => do
    let c ← load mem p
    if c = 0 then some p else strEnd mem fuel (p + 1)

def envmatch (mem : List Byte) : List Byte → ℕ → Option ℤ
  | [], _ => none
  | c :: s1, i2 => do
    let d ← load mem i2
    if c = d then
      if c = sep then some (i2 + 1) else envmatch mem s1 (i2 + 1)
    else if c = 0 ∧ d = sep then some (i2 + 1)
    else some (-1)

def findenvNxt (mem : List Byte) : ℕ → ℕ → Option (Option ℕ)
  | 0, _ => none
  | fuel + 1, nxt => do
    let c ← load mem nxt
    if c = 0 then some (some nxt)
    else if cfgEnvSize ≤ nxt then some none
    else findenvNxt mem fuel (nxt + 1)

def findenvFrom (mem : List Byte) (name : List Byte) : ℕ → ℕ → Option (Option ℤ)
  | 0, _ => none
  | fuel + 1, i => do
    let c ← load mem i
    if c = 0 then some none else
    match ← findenvNxt mem (mem.length + 1) i with
    | none => some none
    | some nxt =>
      let val ← envmatch mem name i
      if val < 0 then findenvFrom mem name fuel (nxt + 1) else some (some val)

def findenv (mem : List Byte) (name : List Byte) : Option (Option ℤ) :=
  findenvFrom mem name (mem.length + 1) 0

def strAt (mem : List Byte) (p : ℕ) : Option (List Byte) := do
  let e ← strEnd mem (mem.length + 1) p
  some ((mem.take e).drop p)

/-- The string that the result of `get_env` points to; `some none` is `NULL`. -/
def getEnv (s : Env) (name : List Byte) : Option (Option (List Byte)) :=
  if !s.valid then some none else do
    let mem ← s.data
    match ← findenv mem name with
    | none => some none
    | some val => (strAt mem val.toNat).map some

/-! ## Setting -/

/-- The search loop of `set_env`: `env`, `nxt` and `oldval` when it ends. -/
def findOld (mem : List Byte) (name : List Byte) : ℕ → ℕ → ℕ → ℤ → Option (ℕ × ℕ × ℤ)
  | 0, _, _, _ => none
  | fuel + 1, env, nxt, oldval => do
    let c ← load mem env
    if c = 0 then some (env, nxt, oldval) else
    let nxt ← strEnd mem (mem.length + 1) env
    let oldval ← envmatch mem name env
    if 0 ≤ oldval then some (env, nxt, oldval) else findOld mem name fuel (nxt + 1) nxt oldval

def moveDown : ℕ → List Byte → ℕ → ℕ → Option (List Byte × ℕ)
  | 0, _, _, _ => none
  | fuel + 1, mem, env, nxt => do
    let c ← load mem nxt
    let mem ← store mem env c
    let d ← load mem (nxt + 1)
    if c = 0 ∧ d = 0 then some (mem, env) else moveDown fuel mem (env + 1) (nxt + 1)

def deleteOld (mem : List Byte) (env nxt : ℕ) : Option (List Byte) := do
  let nxt := nxt + 1
  let d ← load mem nxt
  let (mem, env) ←
    if d = 0 then
      if 0 < env then some (mem, env - 1)
      else do
        let mem ← store mem env 0
        some (mem, env)
    else moveDown (mem.length + 1) mem env nxt
  store mem (env + 1) 0

def dataEnd (mem : List Byte) : ℕ → ℕ → Option ℕ
  | 0, _ => none
  | fuel + 1, env => do
    let c ← load mem env
    if c ≠ 0 then dataEnd mem fuel (env + 1) else
    let d ← load mem (env + 1)
    if d ≠ 0 then dataEnd mem fuel (env + 1) else some env

def copyStr : List Byte → List Byte → ℕ → Option (List Byte × ℕ)
  | _, [], _ => none
  | mem, c :: s, env => do
    let mem ← store mem env c
    if c ≠ 0 then copyStr mem s (env + 1) else some (mem, env)

def toInt (n : ℤ) : ℤ := n.bmod (2 ^ 32)

/-- `len`: the length of a name, of a value and of three more bytes, kept in an `int`. -/
def entryLen (name value : List Byte) : ℤ :=
  toInt (toInt (name.length + 2) + (value.length + 1))

def tagSetEnv : List Byte := "SYSENV_SET_ENV".toUTF8.toList

/-- The message that `set_user_env` sends. -/
def userMsg (name value : List Byte) : List Byte := tagSetEnv ++ 32 :: name ++ sep :: value ++ [0]

/-- The part of `set_env` from `write_env` on. -/
def writeEnv (s : Env) (mem : List Byte) (env : ℕ) (name value : CStr) (delivered : Bool) :
    Option (ℤ × Env) := do
  let env := env + 1
  let mem ← store mem env 0
  let mem ← fill mem env (wsub 64 cfgEnvDataSize env) 0
  let sent := if s.initState = .ready ∧ delivered then s.sent ++ [userMsg name.bytes value.bytes]
    else s.sent
  some (0, { s with data := some mem, valid := true, sent := sent })

/-- The part of `set_env` from `add` on. -/
def addEnv (s : Env) (mem : List Byte) (env : ℕ) (name value : CStr) (delivered : Bool) :
    Option (ℤ × Env) :=
  if value.bytes = [] then writeEnv s mem env name value delivered
  else if (cfgEnvDataSize : ℤ) - env < entryLen name.bytes value.bytes then
    some (-1, { s with data := some mem })
  else do
    let (mem, env) ← copyStr mem name.mem env
    let mem ← store mem env sep
    let (mem, env) ← copyStr mem value.mem (env + 1)
    writeEnv s mem env name value delivered

def setEnv (s : Env) (name value : CStr) (delivered : Bool) : Option (ℤ × Env) :=
  if s.initState = .uninit then some (0, s) else
  match s.data with
  | none => some (-1, s)
  | some mem =>
    if !s.valid then addEnv s mem 0 name value delivered else do
      let (env, nxt, oldval) ← findOld mem name.mem (mem.length + 1) 0 0 (-1)
      let mem ← if 0 < oldval then deleteOld mem env nxt else some mem
      let env ← dataEnd mem (mem.length + 1) 0
      addEnv s mem (if 0 < env then env + 1 else env) name value delivered

/-! ## Runs -/

inductive Action
  | userInit
  | setPid
  | setEnv (name : Name) (value : CStr) (delivered : Bool)

/-- One call, with what `set_env` returns. -/
def step (s : Env) : Action → Option (ℤ × Env)
  | .userInit => some (0, { s with initState := .init })
  | .setPid => some (0, { s with initState := .ready })
  | .setEnv name value delivered => setEnv s name.toCStr value delivered

/-- The results of a list of calls and the state after them. -/
def run (s : Env) : List Action → Option (List ℤ × Env)
  | [] => some ([], s)
  | a :: as => do
    let (ret, s) ← step s a
    let (rets, s) ← run s as
    some (ret :: rets, s)

end Cupcake.Sysenv
