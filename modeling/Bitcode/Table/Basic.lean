import Bitcode.Format.Ids
import Bitcode.Lookup.Index

/-!
The abbreviations known for one block id. The first four rows stand for the reserved abbreviation
ids, and row 3 for records without an abbreviation. The abbreviations of the input come next, and
then the synthesized ones.
-/

namespace Bitcode

open Format

/-- Abbreviation ids given out one after the other, each for a row of a table. -/
structure IdMap where
  first : Nat
  rows : List Nat := []
  deriving DecidableEq, Repr

namespace IdMap

/-- The id that is given out next. -/
def nextId (ids : IdMap) : Nat :=
  ids.first + ids.rows.length

/-- Give the next id to a row. -/
def install (ids : IdMap) (row : Nat) : IdMap :=
  { ids with rows := ids.rows ++ [row] }

/-- The row with an id. -/
def get? (ids : IdMap) (id : UInt64) : Option Nat :=
  if id.toNat < ids.first then none else ids.rows[id.toNat - ids.first]?

end IdMap

/-- The row for records without an abbreviation. -/
def plainRow : Nat := 3

/-- The first row for an abbreviation of the input. -/
def firstRow : Nat := 4

/-- The abbreviation that describes any record without an abbreviation. -/
def anyRecord : Abbrev :=
  ⟨[.array, .vbr 6]⟩

/-- The abbreviations known for one block id. -/
structure Table where
  block : UInt64
  rows : List Abbrev := List.replicate firstRow anyRecord
  /-- The first row that was synthesized. -/
  firstSynthesized : Option Nat := none
  /-- The ids that block 0 gives out for the block. -/
  ids : IdMap := { first := firstDefinedId }
  lookup : Lookup.Index := {}
  deriving DecidableEq, Repr

namespace Table

/-- The rows that hold abbreviations of the input or synthesized ones. -/
def ownRows (table : Table) : List Abbrev :=
  table.rows.drop firstRow

/-- The abbreviation in a row. -/
def get? (table : Table) (row : Nat) : Option Abbrev :=
  table.rows[row]?

/-- The row that holds an abbreviation. -/
def find? (table : Table) (shape : Abbrev) : Option Nat :=
  (table.ownRows.findIdx? (· == shape)).map (· + firstRow)

/-- Add an abbreviation unless it is there. The answer has its row, and whether it is new. -/
def add (table : Table) (shape : Abbrev) : Table × Nat × Bool :=
  match table.find? shape with
  | some row => (table, row, false)
  | none => ({ table with rows := table.rows ++ [shape] }, table.rows.length, true)

/-- Add a synthesized abbreviation unless it is there. -/
def addSynthesized (table : Table) (shape : Abbrev) : Table × Nat × Bool :=
  match table.add shape with
  | (next, row, true) =>
      ({ next with firstSynthesized := some (table.firstSynthesized.getD row) }, row, true)
  | (next, row, false) => (next, row, false)

/-- The row lies among the synthesized ones. -/
def isSynthesized (table : Table) (row : Nat) : Bool :=
  match table.firstSynthesized with
  | some first => first ≤ row
  | none => false

/-- Give the next id of block 0 to a row. -/
def install (table : Table) (row : Nat) : Table :=
  { table with ids := table.ids.install row }

/-- Build the tries over the rows after the reserved ones. -/
def buildLookup (table : Table) : Table :=
  { table with lookup := .ofRows table.rows firstRow }

/-- The node whose rows may encode a record's values. -/
def candidates? (table : Table) (values : List UInt64) : Option Lookup.Trie :=
  table.lookup.follow? values

/-- The report on the table's tries. -/
def lookupText (table : Table) : String :=
  table.lookup.text table.block table.rows

end Table

/-- The line that reports an abbreviation of a block. -/
def abbrevLine (block : UInt64) (shape : Abbrev) : String :=
  s!"Abbrev(block {block}): " ++ shape.text ++ "\n"

/-- The tables of all block ids, in the order in which the ids were first seen. -/
structure Tables where
  entries : List (UInt64 × Table) := []
  deriving DecidableEq, Repr

namespace Tables

/-- The table of a block id. -/
def get? (tables : Tables) (block : UInt64) : Option Table :=
  tables.entries.lookup block

/-- The table of a block id, empty if there is none. -/
def getD (tables : Tables) (block : UInt64) : Table :=
  (tables.get? block).getD { block }

/-- Change the table of a block id, which is added if there is none. -/
def update (tables : Tables) (block : UInt64) (change : Table → Table) : Tables :=
  { entries := Keyed.update block { block } change tables.entries }

/-- Make sure that a block id has a table. -/
def touch (tables : Tables) (block : UInt64) : Tables :=
  tables.update block id

/-- Add an abbreviation to the table of a block id. -/
def add (tables : Tables) (block : UInt64) (shape : Abbrev) : Tables × Nat × Bool :=
  let (table, row, added) := (tables.getD block).add shape
  (tables.update block fun _ => table, row, added)

/-- Build the tries of every table. -/
def buildLookups (tables : Tables) : Tables :=
  { entries := tables.entries.map fun (block, table) => (block, table.buildLookup) }

/-- The reports on the tries of every table. -/
def lookupText (tables : Tables) : String :=
  String.join (tables.entries.map fun (_, table) => table.lookupText)

end Tables

end Bitcode
