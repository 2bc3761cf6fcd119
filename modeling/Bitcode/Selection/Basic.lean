import Bitcode.Selection.Price
import Bitcode.Tree.Body

/-!
The rows selected for all records of a file, block id by block id. Rows that are used often enough
are kept and get abbreviation ids, and the ids are taken again in the order of the records.
-/

namespace Bitcode.Selection

/-- How often a row has to be used in the blocks of one id to be kept. -/
def minUsage : Nat := 5

/-- The rows, and later the abbreviation ids, for the records in the blocks of one id. -/
structure Selected where
  queue : Array Nat := #[]
  /-- How many have been taken. -/
  taken : Nat := 0
  /-- The abbreviations that are kept, the first of them with id 4. -/
  kept : List Abbrev := []
  deriving DecidableEq, Repr, Inhabited

namespace Selected

/-- Add the row for the next record. -/
def push (selected : Selected) (row : Nat) : Selected :=
  { selected with queue := selected.queue.push row }

/-- The rows that are used often enough, in ascending order. -/
def frequentRows (selected : Selected) (table : Table) : List Nat :=
  (List.range table.rows.length).filter fun row =>
    row ≠ plainRow ∧ minUsage ≤ selected.queue.count row

/-- Keep the rows that are used often enough, and replace each by its abbreviation id. Records whose
row is not kept go without an abbreviation. -/
def installFrequent (selected : Selected) (table : Table) : Selected :=
  let frequent := selected.frequentRows table
  let firstId := Format.firstDefinedId + selected.kept.length
  { selected with
    kept := selected.kept ++ frequent.filterMap table.get?
    queue := selected.queue.map fun row =>
      match frequent.idxOf? row with
      | some place => firstId + place
      | none => plainRow }

/-- Take the abbreviation id for the next record. -/
def next? (selected : Selected) : Option (Nat × Selected) :=
  (selected.queue[selected.taken]?).map fun id =>
    (id, { selected with taken := selected.taken + 1 })

end Selected

end Bitcode.Selection

namespace Bitcode

/-- The selections of all block ids: first those with a table, in the order of the tables, and then
the others as they occur. -/
structure Selection where
  entries : List (UInt64 × Selection.Selected) := []
  deriving DecidableEq, Repr, Inhabited

namespace Selection

open Bitcode.Tree (Body Block)

/-- The selection for a block id. -/
def get? (selection : Selection) (block : UInt64) : Option Selected :=
  selection.entries.lookup block

/-- Change the selection for a block id, which is added if there is none. -/
def update (selection : Selection) (block : UInt64) (change : Selected → Selected) : Selection :=
  { entries := Keyed.update block {} change selection.entries }

/-- The abbreviations kept for a block id. -/
def kept (selection : Selection) (block : UInt64) : List Abbrev :=
  match selection.get? block with
  | some selected => selected.kept
  | none => []

/-- The row for a record of a block. -/
def rowFor (tables : Tables) (block : UInt64) (values : List UInt64) : Nat :=
  match tables.get? block with
  | some table => selectRow table values
  | none => plainRow

/-- Select rows for the records of a block's body. -/
def addBody (tables : Tables) (block : UInt64) : Body → Selection → Selection
  | .empty, selection => selection
  | .record item rest, selection =>
      addBody tables block rest
        (selection.update block (·.push (rowFor tables block item.values)))
  | .block id _ body rest, selection =>
      addBody tables block rest (addBody tables id body (selection.update id fun same => same))

/-- Select rows for the records of a block. -/
def addBlock (tables : Tables) (selection : Selection) (block : Block) : Selection :=
  addBody tables block.id block.body (selection.update block.id fun same => same)

/-- Keep the rows that are used often enough. -/
def installFrequent (tables : Tables) (selection : Selection) : Selection :=
  { entries := selection.entries.map fun (block, selected) =>
      match tables.get? block with
      | some table => (block, selected.installFrequent table)
      | none => (block, selected) }

/-- Select rows for all records, and keep those that are used often enough. -/
def choose (tables : Tables) (blocks : List Block) : Selection :=
  let start : Selection := { entries := tables.entries.map fun (block, _) => (block, {}) }
  installFrequent tables (blocks.foldl (addBlock tables) start)

/-- Take the abbreviation id for the next record of a block. -/
def next? (selection : Selection) (block : UInt64) : Option (Nat × Selection) := do
  let selected ← selection.get? block
  let (id, rest) ← selected.next?
  return (id, selection.update block fun _ => rest)

end Selection

end Bitcode
