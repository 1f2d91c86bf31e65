import Cupcake.Lib.BitMemory
import Cupcake.Lib.Word
import Mathlib.Data.BitVec

/-! HID reports (`drivers/hid/hid-core.c`): the fields of a report, the conversions
between values and their bits, and the making of an output report. Of `struct hid_field` and
`struct hid_report` only what these functions read is here. A `__s32` is a 32-bit word, an
`unsigned` a number below `2 ^ 32`. -/

namespace Cupcake.Hid

structure Field where
  reportOffset : ℕ
  reportSize : ℕ
  reportCount : ℕ
  value : List (BitVec 32)
  logicalMinimum : BitVec 32

def Field.stop (field : Field) : ℕ := field.reportOffset + field.reportSize * field.reportCount

structure Report where
  id : ℕ
  field : List Field
  size : ℕ

/-- A shift of an `int` by a variable amount: the machine reads the amount's low five bits. -/
def shl32 (x : BitVec 32) (n : ℕ) : BitVec 32 := x <<< (n % 32)

def sar32 (x : BitVec 32) (n : ℕ) : BitVec 32 := x.sshiftRight (n % 32)

def snto32 (value : BitVec 32) (n : ℕ) : BitVec 32 :=
  if n = 8 then (value.setWidth 8).signExtend 32
  else if n = 16 then (value.setWidth 16).signExtend 32
  else if n = 32 then value
  else if value &&& shl32 1 (wsub 32 n 1) ≠ 0 then value ||| shl32 (-1) n
  else value

def s32ton (value : BitVec 32) (n : ℕ) : BitVec 32 :=
  let a := sar32 value (wsub 32 n 1)
  if a ≠ 0 ∧ a ≠ -1 then
    if value.toInt < 0 then shl32 1 (wsub 32 n 1) else shl32 1 (wsub 32 n 1) - 1
  else value &&& (shl32 1 n - 1)

def mask64 (n : ℕ) : BitVec 64 := (1#64 <<< (n % 64)) - 1

def hidFieldExtract (m : ℕ → UInt8) (report offset n : ℕ) : BitVec 32 :=
  let x := BitVec.ofNat 64 (Bytes.load m (report + offset / 8) 8)
  ((x >>> (offset % 8)) &&& mask64 n).setWidth 32

def implement (m : ℕ → UInt8) (report offset n : ℕ) (value : BitVec 32) : ℕ → UInt8 :=
  let value := value.setWidth 64 &&& mask64 n
  let x := BitVec.ofNat 64 (Bytes.load m (report + offset / 8) 8)
  let x := x &&& ~~~(mask64 n <<< (offset % 8))
  let x := x ||| (value <<< (offset % 8))
  Bytes.store m (report + offset / 8) 8 x.toNat

def Field.position (field : Field) (n : ℕ) : ℕ :=
  wadd 32 field.reportOffset (n * field.reportSize % 2 ^ 32)

def Field.sent (field : Field) (n : ℕ) : BitVec 32 :=
  if field.logicalMinimum.toInt < 0 then s32ton (field.value.getD n 0) field.reportSize
  else field.value.getD n 0

def hidOutputField (field : Field) (m : ℕ → UInt8) (data : ℕ) : ℕ → UInt8 :=
  (List.range field.reportCount).foldl
    (fun m n => implement m data (field.position n) field.reportSize (field.sent n)) m

def hidComputeReportSize (report : Report) : ℕ :=
  if report.size ≠ 0 then (report.size - 1) / 8 + 1 else 0

/-- Where the fields' bits start: behind the report's number, if it has one. -/
def Report.start (report : Report) (data : ℕ) : ℕ := if 0 < report.id then data + 1 else data

def hidOutputReport (report : Report) (m : ℕ → UInt8) (data : ℕ) : ℕ → UInt8 :=
  let m := if 0 < report.id then Bytes.store m data 1 report.id else m
  let data := report.start data
  let m := Bytes.store m data (hidComputeReportSize report) 0
  report.field.foldl (fun m field => hidOutputField field m data) m

def hidSetField (field : Field) (offset : ℕ) (value : BitVec 32) : Option Field :=
  if field.reportCount ≤ offset then none
  else if field.logicalMinimum.toInt < 0 ∧
      value ≠ snto32 (s32ton value field.reportSize) field.reportSize then none
  else some { field with value := field.value.set offset value }

/-- The value that `hid_input_field` reads for element `n`. -/
def hidInputValue (field : Field) (m : ℕ → UInt8) (data n : ℕ) : BitVec 32 :=
  if field.logicalMinimum.toInt < 0 then
    snto32 (hidFieldExtract m data (field.position n) field.reportSize) field.reportSize
  else hidFieldExtract m data (field.position n) field.reportSize

def setElements (field : Field) (values : ℕ → BitVec 32) : Option Field :=
  (List.range field.reportCount).foldlM (fun field n => hidSetField field n (values n)) field

def setFieldsFrom (values : ℕ → ℕ → BitVec 32) : ℕ → List Field → Option (List Field)
  | _, [] => some []
  | k, field :: fields =>
    (setElements field (values k)).bind fun field =>
      (setFieldsFrom values (k + 1) fields).map (field :: ·)

def setFields (report : Report) (values : ℕ → ℕ → BitVec 32) : Option Report :=
  (setFieldsFrom values 0 report.field).map fun field => { report with field }

end Cupcake.Hid
