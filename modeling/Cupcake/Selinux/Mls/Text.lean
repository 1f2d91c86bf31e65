import Cupcake.Selinux.Mls.Valid

/-! The text of an MLS range: `mls_sid_to_context`, `mls_compute_context_len` and
`mls_context_to_sid`. A string is the list of its characters, without the final null. -/

namespace Cupcake.Selinux

/-! ## Writing -/

def runEnd (p : MlsPolicy) (head prev : ℤ) : Option (List Char) :=
  if prev ≠ head then do
    let nm ← p.catName prev.toNat
    return (if prev - head > 1 then '.' else ',') :: nm
  else some []

/-- The loop over the categories of a level; `none` is a null pointer for a name. -/
def catsText (p : MlsPolicy) (head prev : ℤ) : List ℕ → Option (List Char)
  | [] => runEnd p head prev
  | i :: is =>
    if i - prev > 1 then do
      let last ← runEnd p head prev
      let nm ← p.catName i
      let rest ← catsText p i i is
      return last ++ (if prev < 0 then ':' else ',') :: (nm ++ rest)
    else catsText p head i is

def levelText (p : MlsPolicy) (l : MlsLevel) : Option (List Char) := do
  let nm ← p.levelName (wsub 32 l.sens 1)
  let bits ← forEachPositiveBit l.cat
  let cats ← catsText p (-2) (-2) bits
  return nm ++ cats

def mlsSidToContext (p : MlsPolicy) (r : MlsRange) : Option (List Char) := do
  let low ← levelText p r.low
  if mlsLevelEq r.low r.high then return ':' :: low
  else do
    let high ← levelText p r.high
    return ':' :: (low ++ '-' :: high)

def runEndLen (p : MlsPolicy) (head prev : ℤ) : Option ℕ :=
  if head ≠ prev then do
    let nm ← p.catName prev.toNat
    return nm.length + 1
  else some 0

def catsLen (p : MlsPolicy) (head prev : ℤ) : List ℕ → Option ℕ
  | [] => runEndLen p head prev
  | i :: is =>
    if i - prev > 1 then do
      let last ← runEndLen p head prev
      let nm ← p.catName i
      let rest ← catsLen p i i is
      return last + (nm.length + 1) + rest
    else catsLen p head i is

def levelLen (p : MlsPolicy) (l : MlsLevel) : Option ℕ := do
  let nm ← p.levelName (wsub 32 l.sens 1)
  let bits ← forEachPositiveBit l.cat
  let cats ← catsLen p (-2) (-2) bits
  return nm.length + cats

def mlsComputeContextLen (p : MlsPolicy) (r : MlsRange) : Option ℕ := do
  let low ← levelLen p r.low
  if mlsLevelEq r.low r.high then return 1 + low
  else do
    let high ← levelLen p r.high
    return 1 + low + 1 + high

/-! ## Reading -/

inductive ContextError
  | einval
  | enomem
  /-- The `BUG_ON` of `ebitmap_node_set_bit`. -/
  | bug

/-- The characters before the first of `stops`, that character, and those behind it. -/
def scan (stops : List Char) : List Char → List Char × Option Char × List Char
  | [] => ([], none, [])
  | c :: text =>
    if c ∈ stops then ([], some c, text)
    else (c :: (scan stops text).1, (scan stops text).2)

/-- `ebitmap_set_bit(&context->range.level[l].cat, bit, 1)`, when there is memory. -/
def setCat (cat : Ebitmap) (bit : ℕ) : Except ContextError Ebitmap :=
  match ebitmapSetBit cat bit true true with
  | some (e, ret) => if ret = 0 then .ok e else .error .enomem
  | none => .error .bug

def ofInt (i : ℕ) : ℕ := if i < 2 ^ 31 then i else i + (2 ^ 64 - 2 ^ 32)

def setItem (p : MlsPolicy) (cat : Ebitmap) (item : List Char) : Except ContextError Ebitmap :=
  match p.cats (scan ['.'] item).1 with
  | none => .error .einval
  | some v => do
    let cat ← setCat cat (wsub 32 v 1)
    if (scan ['.'] item).2.1 = none then return cat
    else
      match p.cats (scan ['.'] item).2.2 with
      | none => .error .einval
      | some rv =>
        if v ≥ rv then .error .einval
        else (List.range' v (rv - v)).foldlM (fun cat i => setCat cat (ofInt i)) cat

/-- The loop over the items of a category list; `item` is what was read of the current one. -/
def catLoop (p : MlsPolicy) (cat : Ebitmap) (item : List Char) :
    List Char → Except ContextError (Ebitmap × Option Char × List Char)
  | [] => do
    let cat ← setItem p cat item
    return (cat, none, [])
  | c :: text =>
    if c = ',' then do
      let cat ← setItem p cat item
      catLoop p cat [] text
    else if c = '-' then do
      let cat ← setItem p cat item
      return (cat, some c, text)
    else catLoop p cat (item ++ [c]) text

def readLevel (p : MlsPolicy) (tok : List Char × Option Char × List Char) :
    Except ContextError (MlsLevel × Option Char × List Char) :=
  match p.levels tok.1 with
  | none => .error .einval
  | some lev =>
    if tok.2.1 = some ':' then do
      let (cat, delim, rest) ← catLoop p ebitmapInit [] tok.2.2
      return (⟨lev.sens, cat⟩, delim, rest)
    else return (⟨lev.sens, ebitmapInit⟩, tok.2)

def readRange (p : MlsPolicy) (text : List Char) :
    Except ContextError (MlsRange × Option Char × List Char) := do
  let (low, delim, rest) ← readLevel p (scan [':', '-'] text)
  if delim = some '-' then do
    let (high, delim, rest) ← readLevel p (scan [':'] rest)
    return (⟨low, high⟩, delim, rest)
  else return (⟨low, low⟩, delim, rest)

/-- `mls_context_to_sid` for a text behind a colon: the range and what is left of the text. A dash
behind the high level is followed by one more sensitivity, which nothing looks at. -/
def mlsContextToSid (p : MlsPolicy) (text : List Char) :
    Except ContextError (MlsRange × List Char) := do
  let (range, delim, rest) ← readRange p text
  if delim = some '-' then return (range, (scan [':'] rest).2.2) else return (range, rest)

/-- The end-of-input test of `string_to_context_struct`: `p` is one behind the rest. -/
def accepts (p : MlsPolicy) (text : List Char) : Bool :=
  match mlsContextToSid p text with
  | .ok (_, rest) => ¬text.length - rest.length + 1 < text.length
  | .error _ => false

end Cupcake.Selinux
