import Cupcake.Lib.Table
import Cupcake.Lib.Except
import Cupcake.Lib.Election

/-! Attaching a UBI device: the used blocks found by the scan are entered one after the other
and duplicates of a logical eraseblock are resolved in pairs (`drivers/mtd/ubi/attach.c`). -/

namespace Cupcake.Ubi

inductive Errno
  | EINVAL
  | eio
  | other (err : ℕ)
  deriving DecidableEq, Repr

inductive VolType
  | dynamic
  | static
  deriving DecidableEq, Repr

/-- The volume identifier header. `ubi_io_read_vid_hdr` refuses other volume types and
numbers that are negative as an `int`. -/
structure VidHdr where
  volType : VolType
  copyFlag : Bool
  compat : ℕ
  volId : ℕ
  lnum : ℕ
  dataSize : ℕ
  usedEbs : ℕ
  dataPad : ℕ
  dataCrc : UInt32
  sqnum : ℕ
  deriving DecidableEq, Repr

/-- What `ubi_io_read_vid_hdr` returns; `bad` stands for its other positive codes. -/
inductive VidStatus
  | ok
  | bitflips
  | bad
  | failed (err : Errno)

/-- What `ubi_io_read_data` returns. -/
inductive DataStatus
  | ok
  | bitflips
  | eccerr
  | failed (err : Errno)

/-- What the device answers to a read of a physical eraseblock, and the checksum. -/
structure Device where
  readVidHdr : ℕ → VidStatus × VidHdr
  readData : ℕ → ℕ → DataStatus × List UInt8
  crc32 : List UInt8 → UInt32

/-- `struct ubi_ainf_peb` in the tree of a volume. -/
structure AinfPeb where
  ec : ℕ
  pnum : ℕ
  volId : ℕ
  lnum : ℕ
  scrub : Bool
  copyFlag : Bool
  sqnum : ℕ

/-- `struct ubi_ainf_peb` on a list. -/
structure ListPeb where
  pnum : ℕ
  volId : ℕ
  lnum : ℕ
  ec : ℕ

structure AinfVolume where
  volId : ℕ
  highestLnum : ℕ
  lebCount : ℕ
  volType : VolType
  usedEbs : ℕ
  lastDataSize : ℕ
  dataPad : ℕ
  compat : ℕ
  root : List AinfPeb

structure AttachInfo where
  volumes : List AinfVolume
  erase : List ListPeb
  volsFound : ℕ
  highestVolId : ℕ
  maxSqnum : ℕ

def AttachInfo.empty : AttachInfo := ⟨[], [], 0, 0, 0⟩

def addToErase (ai : AttachInfo) (peb : ListPeb) (toHead : Bool) : AttachInfo :=
  { ai with erase := if toHead then peb :: ai.erase else ai.erase ++ [peb] }

def validateVidHdr (vidHdr : VidHdr) (av : AinfVolume) : Except Errno Unit :=
  if av.lebCount ≠ 0 then
    if vidHdr.volId ≠ av.volId then .error .EINVAL
    else if vidHdr.volType ≠ av.volType then .error .EINVAL
    else if vidHdr.usedEbs ≠ av.usedEbs then .error .EINVAL
    else if vidHdr.dataPad ≠ av.dataPad then .error .EINVAL
    else .ok ()
  else .ok ()

def newVolume (vidHdr : VidHdr) : AinfVolume where
  volId := vidHdr.volId
  highestLnum := 0
  lebCount := 0
  volType := vidHdr.volType
  usedEbs := vidHdr.usedEbs
  lastDataSize := 0
  dataPad := vidHdr.dataPad
  compat := vidHdr.compat
  root := []

def addVolume (ai : AttachInfo) (vidHdr : VidHdr) : AinfVolume × AttachInfo :=
  match Table.find AinfVolume.volId vidHdr.volId ai.volumes with
  | some av => (av, ai)
  | none =>
    (newVolume vidHdr,
      { ai with
        volumes := Table.insert AinfVolume.volId (newVolume vidHdr) ai.volumes
        highestVolId := max ai.highestVolId vidHdr.volId
        volsFound := ai.volsFound + 1 })

/-- The bits of the result of `ubi_compare_lebs`. -/
structure CmpRes where
  secondIsNewer : Bool
  bitflips : Bool
  corrupted : Bool

/-- The last part of `ubi_compare_lebs`: the newer block is a copy, and its data is checked. -/
def checkCopy (ubi : Device) (pnum : ℕ) (vidHdr : VidHdr) (secondIsNewer bitflips : Bool) :
    Except Errno CmpRes :=
  let compare (buf : List UInt8) (err : Bool) : Except Errno CmpRes :=
    if ubi.crc32 buf ≠ vidHdr.dataCrc then .ok ⟨!secondIsNewer, false, true⟩
    else .ok ⟨secondIsNewer, bitflips || err, false⟩
  match ubi.readData pnum vidHdr.dataSize with
  | (.ok, buf) => compare buf false
  | (.bitflips, buf) => compare buf true
  | (.eccerr, buf) => compare buf true
  | (.failed err, _) => .error err

def ubiCompareLebs (ubi : Device) (aeb : AinfPeb) (pnum : ℕ) (vidHdr : VidHdr) :
    Except Errno CmpRes :=
  if vidHdr.sqnum = aeb.sqnum then .error .EINVAL
  else if aeb.sqnum < vidHdr.sqnum then
    if !vidHdr.copyFlag then .ok ⟨true, false, false⟩
    else checkCopy ubi pnum vidHdr true false
  else if !aeb.copyFlag then .ok ⟨false, false, false⟩
  else
    -- the header of the block found earlier is read again
    match ubi.readVidHdr aeb.pnum with
    | (.ok, vh) => checkCopy ubi aeb.pnum vh false false
    | (.bitflips, vh) => checkCopy ubi aeb.pnum vh false true
    | (.bad, _) => .error .eio
    | (.failed err, _) => .error err

/-- A used physical eraseblock as the scan finds it. -/
structure Peb where
  pnum : ℕ
  ec : ℕ
  vidHdr : VidHdr
  bitflips : Bool
  deriving DecidableEq, Repr

def Peb.toAinfPeb (peb : Peb) (scrub : Bool) : AinfPeb where
  ec := peb.ec
  pnum := peb.pnum
  volId := peb.vidHdr.volId
  lnum := peb.vidHdr.lnum
  scrub := scrub
  copyFlag := peb.vidHdr.copyFlag
  sqnum := peb.vidHdr.sqnum

def Peb.toListPeb (peb : Peb) : ListPeb := ⟨peb.pnum, peb.vidHdr.volId, peb.vidHdr.lnum, peb.ec⟩

def AinfPeb.toListPeb (aeb : AinfPeb) : ListPeb := ⟨aeb.pnum, aeb.volId, aeb.lnum, aeb.ec⟩

def AttachInfo.updateVolume (ai : AttachInfo) (volId : ℕ) (f : AinfVolume → AinfVolume) :
    AttachInfo :=
  { ai with volumes := Table.update AinfVolume.volId volId f ai.volumes }

/-- The block takes the place of the one found earlier for its logical eraseblock. -/
def replaceLeb (peb : Peb) (scrub : Bool) (av : AinfVolume) : AinfVolume :=
  { av with
    root := Table.update AinfPeb.lnum peb.vidHdr.lnum (fun _ => peb.toAinfPeb scrub) av.root
    lastDataSize :=
      if av.highestLnum = peb.vidHdr.lnum then peb.vidHdr.dataSize else av.lastDataSize }

def linkLeb (peb : Peb) (av : AinfVolume) : AinfVolume :=
  { av with
    root := Table.insert AinfPeb.lnum (peb.toAinfPeb peb.bitflips) av.root
    highestLnum :=
      if av.highestLnum ≤ peb.vidHdr.lnum then peb.vidHdr.lnum else av.highestLnum
    lastDataSize :=
      if av.highestLnum ≤ peb.vidHdr.lnum then peb.vidHdr.dataSize else av.lastDataSize
    lebCount := av.lebCount + 1 }

def noteSqnum (ai : AttachInfo) (sqnum : ℕ) : AttachInfo :=
  { ai with maxSqnum := if ai.maxSqnum < sqnum then sqnum else ai.maxSqnum }

def ubiAddToAv (ubi : Device) (ai : AttachInfo) (peb : Peb) : Except Errno AttachInfo := do
  let volId := peb.vidHdr.volId
  let sqnum := peb.vidHdr.sqnum
  let av := (addVolume ai peb.vidHdr).1
  let ai := noteSqnum (addVolume ai peb.vidHdr).2 sqnum
  match Table.find AinfPeb.lnum peb.vidHdr.lnum av.root with
  | some aeb =>
    if aeb.sqnum = sqnum ∧ sqnum ≠ 0 then .error .EINVAL
    else
      let cmpRes ← ubiCompareLebs ubi aeb peb.pnum peb.vidHdr
      if cmpRes.secondIsNewer then
        validateVidHdr peb.vidHdr av
        return (addToErase ai aeb.toListPeb cmpRes.corrupted).updateVolume volId
          (replaceLeb peb (cmpRes.bitflips || peb.bitflips))
      else
        return addToErase ai peb.toListPeb cmpRes.corrupted
  | none =>
    validateVidHdr peb.vidHdr av
    return ai.updateVolume volId (linkLeb peb)

def attach (ubi : Device) (pebs : List Peb) : Except Errno AttachInfo :=
  pebs.foldlM (ubiAddToAv ubi) .empty

end Cupcake.Ubi
