import Bitcode.Synthesis.Narrow
import Bitcode.Synthesis.Spread

/-!
New abbreviations from the census of a file. Every abbreviation in use is spread out to each size
of the records that it was used for, and small changes to it are proposed: a constant code, a
constant field, narrower fields. The proposals for the most records go into the tables.
-/

namespace Bitcode.Synthesis

open Census (BlockTally SizeTally FieldTally ValueTally)

/-- Proposed abbreviations of blocks, with the number of records that each is for. -/
structure Candidates where
  counts : List ((UInt64 × Abbrev) × Nat) := []
  deriving DecidableEq, Repr

/-- Records of one code and one size that were read with one abbreviation. -/
structure Leaf where
  table : Table
  shape : Abbrev
  code : UInt64
  size : UInt64
  tally : SizeTally
  deriving DecidableEq, Repr

/-- The leaves of a census, the most important first at every level. -/
def leaves (blocks : Census BlockTally) (tables : Tables) : List Leaf :=
  (Census.rankedBlocks blocks).flatMap fun (block, blockTally) =>
    match tables.get? block with
    | none => []
    | some table =>
        (Census.rankedRows blockTally.rows).flatMap fun (row, rowTally) =>
          match table.get? row.toNat with
          | none => []
          | some shape =>
              (Census.rankedCodes rowTally.codes).flatMap fun (code, codeTally) =>
                (Census.rankedSizes codeTally.sizes).map fun (size, tally) =>
                  { table, shape, code, size, tally }

namespace Candidates

/-- Propose an abbreviation for a number of records. Abbreviations that cannot be defined, or that
the table has already, are not accepted. -/
def propose (candidates : Candidates) (table : Table) (spread : Spread) (count : Nat) :
    Option Candidates :=
  let shape := spread.restore
  if !shape.isValid || (table.find? shape).isSome then none
  else
    some { counts := Keyed.update (table.block, shape) 0 (· + count) candidates.counts }

/-- The most important constant among the values of a field, and how often it was counted. -/
def constant? (tally : FieldTally) : Option (UInt64 × Nat) :=
  let ranges := (Census.rankedValues tally.values).map fun (range, value) =>
    (Census.valueRange range, value.count)
  (ranges.find? fun ((least, greatest), _) => least = greatest).map
    fun ((least, _), count) => (least, count)

/-- Propose to make a field constant, the first one for which that is accepted. -/
def addConstant (table : Table) (spread : Spread) :
    List (UInt64 × FieldTally) → Candidates → Candidates
  | [], candidates => candidates
  | (field, tally) :: rest, candidates =>
      let proposal := do
        let operator ← spread.fields[field.toNat]?
        guard (!operator.isLiteral)
        let (value, count) ← constant? tally
        let fields := spread.fields.set field.toNat (.literal value)
        candidates.propose table { spread with fields } count
      match proposal with
      | some next => next
      | none => addConstant table spread rest candidates

/-- Narrow an operator to the values that were counted at its field. -/
def narrowField (fields : List Operator) (field : UInt64) (tally : FieldTally) : List Operator :=
  match fields[field.toNat]? with
  | none => fields
  | some operator =>
      match narrow? operator tally.values with
      | none => fields
      | some narrowed => fields.set field.toNat narrowed

/-- Propose to narrow all fields at once, if any gets narrower. -/
def addNarrowed (table : Table) (spread : Spread) (tally : SizeTally) (candidates : Candidates) :
    Candidates :=
  let fields := tally.fields.elements.foldl
    (fun fields (field, fieldTally) => narrowField fields field fieldTally) spread.fields
  if fields = spread.fields then candidates
  else (candidates.propose table { spread with fields } tally.count).getD candidates

/-- Propose to make the code constant, if it is not. -/
def addCode (table : Table) (spread : Spread) (code : UInt64) (count : Nat)
    (candidates : Candidates) : Candidates :=
  if spread.code.isLiteral then candidates
  else (candidates.propose table { spread with code := .literal code } count).getD candidates

/-- Make all proposals for a leaf. -/
def addLeaf (candidates : Candidates) (leaf : Leaf) : Candidates :=
  let isOpen := Census.fieldCutoff ≤ leaf.size.toNat
  match Spread.ofAbbrev? leaf.shape (leaf.size.toNat + 1) isOpen with
  | none => candidates
  | some spread =>
      addNarrowed leaf.table spread leaf.tally
        (addConstant leaf.table spread (Census.rankedFields leaf.tally.fields)
          (candidates.addCode leaf.table spread leaf.code leaf.tally.count))

/-- The proposals for a census. -/
def ofCensus (blocks : Census BlockTally) (tables : Tables) : Candidates :=
  (leaves blocks tables).foldl addLeaf {}

end Candidates

/-- A proposal that goes into a table. -/
structure Ranked where
  count : Nat
  block : UInt64
  shape : Abbrev
  deriving DecidableEq, Repr

/-- Proposals are ordered by count, then by block, then by abbreviation. -/
def Ranked.compare (first second : Ranked) : Ordering :=
  ((Ord.compare first.count second.count).then (Ord.compare first.block second.block)).then
    (first.shape.compare second.shape)

/-- The proposals in descending order. -/
def Candidates.ranked (candidates : Candidates) : List Ranked :=
  (candidates.counts.map fun ((block, shape), count) => ({ count, block, shape } : Ranked)).mergeSort
    fun first second => first.compare second ≠ .lt

/-- The proposals for at least a quarter as many records as the first one. -/
def Candidates.accepted (candidates : Candidates) : List Ranked :=
  match candidates.ranked with
  | [] => []
  | first :: rest => (first :: rest).takeWhile fun proposal => first.count / 4 ≤ proposal.count

/-- Put a proposal into the table of its block. -/
def install (tables : Tables) (proposal : Ranked) : Tables :=
  match tables.get? proposal.block with
  | none => tables
  | some table =>
      tables.update proposal.block fun _ => (table.addSynthesized proposal.shape).1

/-- The proposals that a census makes worth adding. -/
def proposals (blocks : Census BlockTally) (tables : Tables) : List Ranked :=
  (Candidates.ofCensus blocks tables).accepted

/-- The tables with the new abbreviations. -/
def extend (blocks : Census BlockTally) (tables : Tables) : Tables :=
  (proposals blocks tables).foldl install tables

/-- The report on new abbreviations, empty if there are none. -/
def proposalsText (accepted : List Ranked) : String :=
  if accepted.isEmpty then ""
  else
    "-- New abbreviations:\n" ++
      String.join (accepted.map fun proposal =>
        alignRight 12 (toString proposal.count) ++ ": " ++
          abbrevLine proposal.block proposal.shape) ++
      "--\n"

end Bitcode.Synthesis
