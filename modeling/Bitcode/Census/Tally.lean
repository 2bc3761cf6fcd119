import Bitcode.Census.Basic
import Bitcode.Census.Range
import Bitcode.Tree.Body

/-!
The census of a file: blocks by id, their records by row, then by code, by number of fields, by
field, and by the range of the field's value.
-/

namespace Bitcode.Census

open Bitcode.Tree (Record Block)

/-- How many fields of a record are looked at one by one. -/
def fieldCutoff : Nat := 6

/-- Values of one range at one field. -/
structure ValueTally where
  count : Nat := 0
  deriving DecidableEq, Repr, Inhabited

/-- Records that have a field, and the values there. -/
structure FieldTally where
  count : Nat := 0
  values : Census ValueTally := {}
  deriving DecidableEq, Repr, Inhabited

/-- Records with one number of fields. -/
structure SizeTally where
  count : Nat := 0
  fields : Census FieldTally := {}
  deriving DecidableEq, Repr, Inhabited

/-- Records with one code. -/
structure CodeTally where
  count : Nat := 0
  bits : Nat := 0
  /-- How many were read with an abbreviation. -/
  abbreviated : Nat := 0
  sizes : Census SizeTally := {}
  deriving DecidableEq, Repr, Inhabited

/-- Records read with the abbreviation in one row. -/
structure RowTally where
  count : Nat := 0
  codes : Census CodeTally := {}
  deriving DecidableEq, Repr, Inhabited

/-- Blocks with one id. -/
structure BlockTally where
  count : Nat := 0
  /-- The size of the blocks without the blocks inside them. -/
  bits : Nat := 0
  rows : Census RowTally := {}
  deriving DecidableEq, Repr, Inhabited

/-- Count a record's value at a field. -/
def addValue (field : Nat) (values : Census ValueTally) (record : Record) : Census ValueTally :=
  values.add ((record.fields[field]?).toList.map rangeIndex) {} fun _ tally =>
    { tally with count := tally.count + 1 }

/-- The fields of a record that are looked at. -/
def fieldKeys (record : Record) : List UInt64 :=
  (List.range (min record.fields.length fieldCutoff)).map UInt64.ofNat

/-- Count a record under each of its fields. -/
def addFields (fields : Census FieldTally) (record : Record) : Census FieldTally :=
  fields.add (fieldKeys record) {} fun field tally =>
    { count := tally.count + 1, values := addValue field.toNat tally.values record }

/-- The key of a record's number of fields. -/
def sizeKey (record : Record) : UInt64 :=
  UInt64.ofNat (min record.fields.length fieldCutoff)

/-- Count a record under its number of fields. -/
def addSize (sizes : Census SizeTally) (record : Record) : Census SizeTally :=
  sizes.add [sizeKey record] {} fun _ tally =>
    { count := tally.count + 1, fields := addFields tally.fields record }

/-- Count a record under its code. -/
def addCode (codes : Census CodeTally) (record : Record) : Census CodeTally :=
  codes.add [record.code] {} fun _ tally =>
    { count := tally.count + 1
      bits := tally.bits + record.bits
      abbreviated := tally.abbreviated + if record.usedAbbrev then 1 else 0
      sizes := addSize tally.sizes record }

/-- Count a record under its row. -/
def addRow (rows : Census RowTally) (record : Record) : Census RowTally :=
  rows.add [UInt64.ofNat record.row] {} fun _ tally =>
    { count := tally.count + 1, codes := addCode tally.codes record }

/-- Count a block and its own records. -/
def addBlock (blocks : Census BlockTally) (block : Block) : Census BlockTally :=
  blocks.add [block.id] {} fun _ tally =>
    { count := tally.count + 1
      bits := tally.bits + block.localBits
      rows := block.body.records.foldl addRow tally.rows }

/-- The census of a file. -/
def ofFile (file : Tree.File) : Census BlockTally :=
  file.allBlocks.foldl addBlock {}

/-! Importance. -/

/-- Values count for less the wider their range is. -/
def ValueTally.importance (range : UInt64) (tally : ValueTally) : Double :=
  let (least, greatest) := valueRange range
  (Double.ofNat tally.count).div
    ((Double.ofNat (greatest.toNat - least.toNat)).add (.ofNat 1))

/-- Fields whose values lie close together come first. -/
def FieldTally.importance (tally : FieldTally) : Double :=
  tally.values.elements.foldl
    (fun sum (range, value) => sum.add ((value.importance range).mul (value.importance range)))
    .zero

/-- Record sizes rank by how often they occur. -/
def SizeTally.importance (tally : SizeTally) : Double :=
  .ofNat tally.count

/-- Codes rank by how often they occur. -/
def CodeTally.importance (tally : CodeTally) : Double :=
  .ofNat tally.count

/-- Rows rank by how often they were used. -/
def RowTally.importance (tally : RowTally) : Double :=
  .ofNat tally.count

/-- Blocks rank by their share of the file. -/
def BlockTally.importance (tally : BlockTally) : Double :=
  .ofNat tally.bits

/-- Value ranges of a field, the most important first. -/
def rankedValues (values : Census ValueTally) : List (UInt64 × ValueTally) :=
  (values.ranked ValueTally.importance).map (·.2)

/-- Fields, the most important first. -/
def rankedFields (fields : Census FieldTally) : List (UInt64 × FieldTally) :=
  (fields.ranked fun _ tally => tally.importance).map (·.2)

/-- Record sizes, the most important first. -/
def rankedSizes (sizes : Census SizeTally) : List (UInt64 × SizeTally) :=
  (sizes.ranked fun _ tally => tally.importance).map (·.2)

/-- Codes, the most important first. -/
def rankedCodes (codes : Census CodeTally) : List (UInt64 × CodeTally) :=
  (codes.ranked fun _ tally => tally.importance).map (·.2)

/-- Rows, the most important first. -/
def rankedRows (rows : Census RowTally) : List (UInt64 × RowTally) :=
  (rows.ranked fun _ tally => tally.importance).map (·.2)

/-- Blocks, the most important first. -/
def rankedBlocks (blocks : Census BlockTally) : List (UInt64 × BlockTally) :=
  (blocks.ranked fun _ tally => tally.importance).map (·.2)

end Bitcode.Census
