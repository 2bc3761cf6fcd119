import Bitcode.Abbrev.Definition
import Bitcode.Abbrev.Values
import Bitcode.Bitstream.Record

/-!
Reading a bitstream entry by entry. A failed step leaves the reader where it stopped, and reading
can go on from there.
-/

namespace Bitcode.Bitstream

open Format Bits

/-- A block that has been entered. -/
structure Scope where
  block : UInt64
  /-- The width of abbreviation ids. -/
  idWidth : Nat
  /-- The abbreviations that the block sees, the first of them with id 4. -/
  abbrevs : List Abbrev
  /-- In block 0, the block that definitions are for. -/
  target : Option UInt64 := none
  deriving DecidableEq, Repr

/-- The block holds definitions for other blocks. -/
def Scope.isInfo (scope : Scope) : Bool :=
  scope.block = infoBlockId

/-- A reader of a bitstream. -/
structure Reader where
  cursor : Cursor
  /-- The open blocks, innermost first. -/
  scopes : List Scope := []
  shared : Shared := {}
  deriving DecidableEq, Repr

/-- A computation that advances a reader, also when it fails. -/
abbrev Parsing (α : Type) := EStateM Error Reader α

/-- Run a computation on the reader's cursor. -/
def onCursor {α : Type} (reading : Reading α) : Parsing α := fun reader =>
  match reading reader.cursor with
  | .ok value cursor => .ok value { reader with cursor }
  | .error cause cursor => .error cause { reader with cursor }

instance : MonadLift Reading Parsing where
  monadLift := onCursor

namespace Reader

/-- A reader at the position of a cursor. -/
def ofCursor (cursor : Cursor) : Reader :=
  { cursor }

/-- How many blocks are open. -/
def depth (reader : Reader) : Nat :=
  reader.scopes.length

/-- The width of the next abbreviation id. -/
def idWidth (reader : Reader) : Nat :=
  match reader.scopes with
  | [] => initialIdWidth
  | scope :: _ => scope.idWidth

/-- Read the start of a block, after its abbreviation id. -/
def enterBlock : Parsing (Option Entry) := do
  let block ← Cursor.readVbr 8
  let width ← Cursor.readVbr 4
  onCursor (modify Cursor.align32)
  if width < 1 ∨ 32 < width then throw (.scope (.badIdWidth block width))
  let words ← Cursor.read 32
  modify fun reader =>
    { reader with
      scopes :=
        { block, idWidth := width.toNat, abbrevs := reader.shared.forBlock block } ::
          reader.scopes }
  return if block = infoBlockId then none else some (.block block (4 * words.toNat))

/-- Read the end of a block, after its abbreviation id. -/
def exitBlock : Parsing (Option Entry) := do
  onCursor (modify Cursor.align32)
  match (← get).scopes with
  | [] => throw (.scope .endOutside)
  | scope :: rest =>
      modify fun reader => { reader with scopes := rest }
      return if scope.isInfo then none else some .endBlock

/-- Read a definition, after its abbreviation id. -/
def define : Parsing Entry := do
  let shape ← Abbrev.read
  match (← get).scopes with
  | [] => throw (.content .definitionOutside)
  | scope :: rest =>
      if scope.isInfo then
        match scope.target with
        | none => throw (.content .definitionWithoutBlock)
        | some block =>
            modify fun reader => { reader with shared := reader.shared.add block shape }
            return .definition block shape false
      else
        modify fun reader =>
          { reader with scopes := { scope with abbrevs := scope.abbrevs ++ [shape] } :: rest }
        return .definition scope.block shape true

/-- Act on a record of block 0. -/
def interpret (code : UInt64) (fields : List UInt64) : Parsing Unit := do
  match InfoCode.ofCode? code with
  | none => throw (.badInfoCode code)
  | some .setBlock =>
      match fields with
      | [] => throw (.content .missingBlockId)
      | block :: _ =>
          modify fun reader =>
            match reader.scopes with
            | [] => reader
            | scope :: rest => { reader with scopes := { scope with target := some block } :: rest }
  | some _ => return ()

/-- Read a record without an abbreviation, whose abbreviation id stood at a position. -/
def plainRecord (start : Nat) : Parsing (Option Entry) := do
  match (← get).scopes with
  | [] => throw (.content .recordOutside)
  | scope :: _ =>
      let code ← Cursor.readVbr 6
      let count ← Cursor.readVbr 6
      -- Room for the fields is not accounted for: a count that no memory can hold runs into the end
      -- of the stream, where an implementation may already have given up.
      let fields ← Abbrev.readMany (Cursor.readVbr 6) count.toNat []
      if scope.isInfo then
        interpret code fields
        return none
      else
        let bits := (← get).cursor.position - start
        return some (.record { id := none, code, fields, bits })

/-- Read a record with an abbreviation, whose abbreviation id stood at a position. -/
def abbreviatedRecord (id : UInt64) (start : Nat) : Parsing (Option Entry) := do
  match (← get).scopes with
  | [] => throw (.scope .abbrevOutside)
  | scope :: _ =>
      match abbrevWithId? scope.abbrevs id with
      | none => throw (.unknownAbbrev id)
      | some shape =>
          let values ← shape.readValues
          if scope.isInfo then return none
          else
            match Record.ofValues? id values with
            | none => throw (.content (.missingCode id))
            | some record =>
                let bits := (← get).cursor.position - start
                return some (.record { record with bits })

/-- Read an abbreviation id and what it announces. Block 0 and its records give no entry. -/
def step : Parsing (Option Entry) := do
  let reader ← get
  let start := reader.cursor.position
  let code ← Cursor.read reader.idWidth
  match AbbrevId.ofCode code with
  | .reserved .endBlock => exitBlock
  | .reserved .enterBlock => enterBlock
  | .reserved .defineAbbrev =>
      let entry ← define
      return some entry
  | .reserved .plainRecord => plainRecord start
  | .defined id => abbreviatedRecord id start

/-- Step until there is an entry, at most the given number of times. -/
def advanceWithin : Nat → Parsing Entry
  | 0 => throw .exhausted
  | steps + 1 => do
      let reader ← get
      if reader.cursor.exhausted then
        if reader.depth = 0 then throw .exhausted
        else throw (.scope (.openAtEnd reader.depth))
      else
        match ← step with
        | some entry => return entry
        | none => advanceWithin steps

/-- How many bits are left. -/
def bitsLeft (reader : Reader) : Nat :=
  reader.cursor.bitLength - reader.cursor.position

/-- Read the next entry. Every step takes at least one bit, so the bits left bound the steps. -/
def advance : Parsing Entry := fun reader =>
  advanceWithin (reader.bitsLeft + 1) reader

/-- Read entries until one fails, at most the given number, after those read before in reverse
order. -/
def collectWithin : Nat → List Entry → Reader → List Entry × Error
  | 0, reversed, _ => (reversed.reverse, .exhausted)
  | count + 1, reversed, reader =>
      match advance reader with
      | .ok entry next => collectWithin count (entry :: reversed) next
      | .error cause _ => (reversed.reverse, cause)

/-- All entries up to the first failure, and that failure. -/
def collect (reader : Reader) : List Entry × Error :=
  collectWithin (reader.bitsLeft + 1) [] reader

end Reader

end Bitcode.Bitstream
