import Cupcake.Lib.Buckets
import Cupcake.Lib.Run
import Cupcake.Lib.Table

/-! Revoke records of the journal (`fs/jbd2/revoke.c`): the two tables that
transactions use in turn, and the revoke status that buffers cache. -/

namespace Cupcake.Jbd2

def goldenRatio64 : ℕ := 0x61C8864680B583EB

def hash64 (val bits : ℕ) : ℕ := val * goldenRatio64 % 2 ^ 64 / 2 ^ (64 - bits)

structure RevokeRecord where
  sequence : ℕ
  blocknr : ℕ

abbrev RevokeTable := List (List RevokeRecord)

/-- The revoke part of `journal_t`. The second table is the running one if `second` is set. -/
structure Journal where
  hashShift : ℕ
  revokeTable₀ : RevokeTable
  revokeTable₁ : RevokeTable
  second : Bool

def Journal.hash (journal : Journal) (block : ℕ) : ℕ := hash64 block journal.hashShift

def Journal.revoke (journal : Journal) : RevokeTable :=
  if journal.second then journal.revokeTable₁ else journal.revokeTable₀

def Journal.other (journal : Journal) : RevokeTable :=
  if journal.second then journal.revokeTable₀ else journal.revokeTable₁

def Journal.setRevoke (journal : Journal) (table : RevokeTable) : Journal :=
  if journal.second then { journal with revokeTable₁ := table }
  else { journal with revokeTable₀ := table }

def Journal.setOther (journal : Journal) (table : RevokeTable) : Journal :=
  if journal.second then { journal with revokeTable₀ := table }
  else { journal with revokeTable₁ := table }

def insertRevokeHash (journal : Journal) (blocknr seq : ℕ) : Journal :=
  journal.setRevoke (Buckets.insert journal.hash RevokeRecord.blocknr ⟨seq, blocknr⟩ journal.revoke)

def findRevokeRecord (journal : Journal) (blocknr : ℕ) : Option RevokeRecord :=
  Buckets.find journal.hash RevokeRecord.blocknr blocknr journal.revoke

def eraseRevokeHash (journal : Journal) (blocknr : ℕ) : Journal :=
  journal.setRevoke (Buckets.erase journal.hash RevokeRecord.blocknr blocknr journal.revoke)

/-- `jbd2_journal_init_revoke` with `2 ^ hashShift` buckets. -/
def Journal.init (hashShift : ℕ) : Journal where
  hashShift := hashShift
  revokeTable₀ := List.replicate (2 ^ hashShift) []
  revokeTable₁ := List.replicate (2 ^ hashShift) []
  second := true

structure BufferHead where
  blocknr : ℕ
  revokeValid : Bool
  revoked : Bool

/-- The journal, the buffer cache and the running transaction's id. -/
structure Sys where
  journal : Journal
  buffers : List BufferHead
  tid : ℕ

def Sys.findGetBlock (s : Sys) (blocknr : ℕ) : Option BufferHead :=
  Table.find BufferHead.blocknr blocknr s.buffers

def Sys.setBuffer (s : Sys) (blocknr : ℕ) (f : BufferHead → BufferHead) : Sys :=
  { s with buffers := Table.update BufferHead.blocknr blocknr f s.buffers }

/-- The return value of `jbd2_journal_revoke`. -/
inductive Status
  | ok
  | eio

/-- A caller that has the buffer passes it; otherwise the cache is searched. A call
with a buffer that does not exist is not possible. -/
def jbd2JournalRevoke (s : Sys) (blocknr : ℕ) (bhIn : Bool) : Option (Sys × Status) :=
  match s.findGetBlock blocknr with
  | some bh =>
    if bh.revoked then some (s, .eio)
    else
      let s := s.setBuffer blocknr fun bh => { bh with revoked := true, revokeValid := true }
      some ({ s with journal := insertRevokeHash s.journal blocknr s.tid }, .ok)
  | none =>
    if bhIn then none
    else some ({ s with journal := insertRevokeHash s.journal blocknr s.tid }, .ok)

def jbd2JournalCancelRevoke (s : Sys) (blocknr : ℕ) : Option Sys :=
  (s.findGetBlock blocknr).map fun bh =>
    let needCancel := if bh.revokeValid then bh.revoked else true
    let s := s.setBuffer blocknr fun bh => { bh with revoked := false, revokeValid := true }
    if needCancel then
      match findRevokeRecord s.journal blocknr with
      | some _ => { s with journal := eraseRevokeHash s.journal blocknr }
      | none => s
    else s

def jbd2ClearBufferRevokedFlags (s : Sys) : Sys :=
  s.journal.revoke.flatten.foldl
    (fun s record => s.setBuffer record.blocknr fun bh => { bh with revoked := false }) s

def jbd2JournalSwitchRevokeTable (journal : Journal) : Journal :=
  let journal := { journal with second := !journal.second }
  journal.setRevoke (journal.revoke.map fun _ => [])

def jbd2JournalWriteRevokeRecords (journal : Journal) : List ℕ × Journal :=
  (journal.other.flatten.map RevokeRecord.blocknr, journal.setOther (journal.other.map fun _ => []))

/-! The system. -/

inductive Event
  | revoked (blocknr : ℕ)
  | journaled (blocknr : ℕ)
  deriving DecidableEq, Repr

def Event.blocknr : Event → ℕ
  | .revoked b => b
  | .journaled b => b

/-- The block's last event was a revoke; the latest event is in front. -/
def lastRevoked (events : List Event) (blocknr : ℕ) : Bool :=
  events.find? (fun e => e.blocknr = blocknr) = some (.revoked blocknr)

/-- The system with its history: the events of the running transaction, those of the
committing one until its table is written, and what was written for each transaction. -/
structure Run where
  sys : Sys
  events : List Event
  closing : Option (List Event)
  written : List (List Event × List ℕ)

inductive Op
  | revoke (blocknr : ℕ) (bhIn : Bool)
  | cancel (blocknr : ℕ)
  /-- The flags are cleared and the tables switched; the next transaction starts. -/
  | switch
  /-- The commit writes the records of the transaction that was closed last. -/
  | write
  | getblk (blocknr : ℕ)
  | drop (blocknr : ℕ)

def step (r : Run) : Op → Option Run
  | .revoke b bhIn => (jbd2JournalRevoke r.sys b bhIn).map fun (s, _) =>
      { r with sys := s, events := .revoked b :: r.events }
  | .cancel b => (jbd2JournalCancelRevoke r.sys b).map fun s =>
      { r with sys := s, events := .journaled b :: r.events }
  | .switch =>
      let s := jbd2ClearBufferRevokedFlags r.sys
      some { r with
        sys := { s with journal := jbd2JournalSwitchRevokeTable s.journal, tid := s.tid + 1 }
        events := []
        closing := some r.events }
  | .write => r.closing.map fun events =>
      let (blocks, journal) := jbd2JournalWriteRevokeRecords r.sys.journal
      { r with
        sys := { r.sys with journal }
        closing := none
        written := (events, blocks) :: r.written }
  | .getblk b =>
      match r.sys.findGetBlock b with
      | some _ => some r
      | none => some { r with sys := { r.sys with buffers := ⟨b, false, false⟩ :: r.sys.buffers } }
  | .drop b => some { r with
      sys := { r.sys with buffers := Table.remove BufferHead.blocknr b r.sys.buffers } }

/-- A block that was revoked is not revoked again before it is journaled. -/
def Allowed (r : Run) : Op → Prop
  | .revoke b _ => lastRevoked r.events b = false
  | _ => True

instance (r : Run) : (op : Op) → Decidable (Allowed r op)
  | .revoke b _ => inferInstanceAs (Decidable (lastRevoked r.events b = false))
  | .cancel _ => .isTrue trivial
  | .switch => .isTrue trivial
  | .write => .isTrue trivial
  | .getblk _ => .isTrue trivial
  | .drop _ => .isTrue trivial

def Run.init (hashShift : ℕ) : Run := ⟨⟨.init hashShift, [], 1⟩, [], none, []⟩

end Cupcake.Jbd2
