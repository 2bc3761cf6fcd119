import Bitcode.Census.Tally
import Bitcode.Format.Names

/-!
The reports on the census of a file.
-/

namespace Bitcode.Census

/-- The headers of the columns for a count and its share. -/
def countHeader : String := "   Count %Count"

/-- A range of values, or the one value in it. -/
def rangeText (index : UInt64) : String :=
  let (least, greatest) := valueRange index
  if least = greatest then toString least else s!"{least} .. {greatest}"

/-- The report on values. -/
def valueLayout : Layout ValueTally where
  title := "Values"
  statsHeader := countHeader
  valueHeader := "Value / Range"
  importance := ValueTally.importance
  stats census tally := countStats tally.count census.total
  value := rangeText
  nested _ _ _ := ""

/-- A number in the column for keys. -/
def keyText (key : UInt64) : String :=
  alignRight 7 (toString key)

/-- The report on fields. -/
def fieldLayout : Layout FieldTally where
  title := "Value indices"
  statsHeader := countHeader
  valueHeader := "  Index"
  importance _ tally := tally.importance
  stats census tally := countStats tally.count census.total
  value := keyText
  nested indent _ tally := tally.values.nestedText valueLayout indent

/-- A number of fields, with a mark if there may be more. -/
def sizeText (size : UInt64) : String :=
  keyText size ++ if fieldCutoff ≤ size.toNat then "+" else ""

/-- The report on record sizes. -/
def sizeLayout : Layout SizeTally where
  title := "Record sizes"
  statsHeader := countHeader
  valueHeader := "   Size"
  importance _ tally := tally.importance
  stats census tally := countStats tally.count census.total
  value := sizeText
  nested indent _ tally := tally.fields.nestedText fieldLayout indent

/-- The columns for a code. The last one is blank if no record was abbreviated. -/
def codeStats (codes : Census CodeTally) (tally : CodeTally) : String :=
  countStats tally.count codes.total ++ bitStats tally.bits tally.count ++
    if 0 < tally.abbreviated then
      " " ++ alignRight 7 (Double.percent (.ofNat tally.abbreviated) (.ofNat tally.count)).text
    else "        "

/-- The report on the codes in a block. -/
def codeLayout (block : UInt64) : Layout CodeTally where
  title := "Record Histogram:"
  statsHeader := "   Count %Count    # Bits    Bits/Elmt   % Abv"
  valueHeader := "Record Kind"
  importance _ tally := tally.importance
  stats := codeStats
  value := Format.codeName block
  nested indent _ tally := tally.sizes.nestedText sizeLayout indent

/-- The report on the rows used in a block. -/
def rowLayout (block : UInt64) : Layout RowTally where
  title := "Abbreviation Indices"
  statsHeader := countHeader
  valueHeader := "  Index"
  importance _ tally := tally.importance
  stats census tally := countStats tally.count census.total
  value := keyText
  nested indent _ tally := tally.codes.nestedText (codeLayout block) indent

/-- The size of all blocks. -/
def fileBits (blocks : Census BlockTally) : Nat :=
  blocks.elements.foldr (fun (_, tally) total => tally.bits + total) 0

/-- The columns for a block id. -/
def blockStats (blocks : Census BlockTally) (tally : BlockTally) : String :=
  " " ++ alignRight 6 (Double.percent (.ofNat tally.bits) (.ofNat (fileBits blocks))).text ++
    countStats tally.count blocks.total ++ bitStats tally.bits tally.count

/-- The report on blocks. -/
def blockLayout : Layout BlockTally where
  title := "Block Histogram"
  statsHeader := "  %File   Count %Count    # Bits    Bits/Elmt"
  valueHeader := "Block"
  importance _ tally := tally.importance
  stats := blockStats
  value := Format.blockName
  nested indent block tally := tally.rows.nestedText (rowLayout block) indent

/-- The line for how often a row was used. -/
def frequencyLine (table : Table) (total : Nat) (row : UInt64) (tally : RowTally) : String :=
  let name :=
    match table.get? row.toNat with
    | some shape => shape.text
    | none => "?"
  alignRight 8 (toString tally.count) ++ " (" ++
    alignRight 6 (Double.percent (.ofNat tally.count) (.ofNat total)).text ++ "%): " ++ name ++
    "\n"

/-- The report on how often the rows of each table were used. -/
def frequencyText (blocks : Census BlockTally) (tables : Tables) : String :=
  String.join ((rankedBlocks blocks).map fun (block, tally) =>
    match tables.get? block with
    | none => ""
    | some table =>
        s!"Block {block}\n" ++
          String.join ((rankedRows tally.rows).map fun (row, used) =>
            frequencyLine table tally.rows.total row used) ++ "\n")

end Bitcode.Census
