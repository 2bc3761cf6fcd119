import Bitcode.Bitstream.File
import Bitcode.Compression.Error
import Bitcode.Tree.Body

/-!
Unrolling: the entries of a file become a tree, and every abbreviation that they define goes into
the table of its block, simplified and without repetition.
-/

namespace Bitcode.Tree

open Compression (StructureError)
open Bitstream (Entry)

/-- A block that has been entered. -/
structure OpenBlock where
  id : UInt64
  bits : Nat
  /-- The ids that the block gives out itself, after those of block 0. -/
  ids : IdMap
  /-- What has been read, in reverse order. -/
  reversed : Body := .empty
  deriving DecidableEq, Repr

/-- The state of unrolling. -/
structure Unrolling where
  tables : Tables := {}
  /-- The open blocks, innermost first. -/
  blocks : List OpenBlock := []
  /-- The finished blocks outside of any block, in reverse order. -/
  reversed : List Block := []
  /-- The abbreviations that were new, in reverse order. -/
  added : List (UInt64 × Abbrev) := []
  deriving DecidableEq, Repr

namespace Unrolling

/-- Put an abbreviation into the table of a block, and return its row. -/
def addAbbrev (state : Unrolling) (block : UInt64) (shape : Abbrev) : Unrolling × Nat :=
  let simplified := shape.simplify
  let (tables, row, isNew) := state.tables.add block simplified
  let added := if isNew then (block, simplified) :: state.added else state.added
  ({ state with tables, added }, row)

/-- Put an abbreviation that block 0 defines into the table of its block. -/
def addShared (state : Unrolling) (block : UInt64) (shape : Abbrev) : Unrolling :=
  let (next, row) := state.addAbbrev block shape
  { next with tables := next.tables.update block (·.install row) }

/-- Enter a block. -/
def enter (state : Unrolling) (id : UInt64) (size : Nat) : Unrolling :=
  let tables := state.tables.touch id
  let ids : IdMap := { first := (tables.getD id).ids.nextId }
  { state with tables, blocks := { id, bits := 8 * size, ids } :: state.blocks }

/-- The row of the abbreviation that a record was read with. -/
def rowOf (state : Unrolling) (block : OpenBlock) : Option UInt64 → Option Nat
  | none => some plainRow
  | some id => (block.ids.get? id).or ((state.tables.getD block.id).ids.get? id)

/-- Take one entry of the file. -/
def step (state : Unrolling) (entry : Entry) : Except Compression.Error Unrolling :=
  match state.blocks, entry with
  | [], .block id size => .ok (state.enter id size)
  | [], .definition block shape false => .ok (state.addShared block shape)
  | [], _ => .error (.malformed .notABlock)
  | _ :: _, .block id size => .ok (state.enter id size)
  | _ :: _, .definition block shape false => .ok (state.addShared block shape)
  | inner :: outer, .definition block shape true =>
      let (next, row) := state.addAbbrev block shape
      .ok { next with blocks := { inner with ids := inner.ids.install row } :: outer }
  | inner :: outer, .record record =>
      match state.rowOf inner record.id with
      | none => .error (.unknownId inner.id (record.id.getD 0))
      | some row =>
          let unrolled : Record :=
            { code := record.code, fields := record.fields, row, bits := record.bits }
          .ok
            { state with
              blocks := { inner with reversed := .record unrolled inner.reversed } :: outer }
  | [inner], .endBlock =>
      .ok
        { state with
          blocks := []
          reversed := ⟨inner.id, inner.bits, inner.reversed.reverse⟩ :: state.reversed }
  | inner :: next :: outer, .endBlock =>
      let reversed := .block inner.id inner.bits inner.reversed.reverse next.reversed
      .ok { state with blocks := { next with reversed } :: outer }

/-- Take entries until one fails. -/
def run (state : Unrolling) : List Entry → Unrolling × Option Compression.Error
  | [] => (state, none)
  | entry :: rest =>
      match state.step entry with
      | .ok next => next.run rest
      | .error cause => (state, some cause)

end Unrolling

/-- What unrolling a file gives. The tables are there also when it fails. -/
structure Unrolled where
  tables : Tables := {}
  /-- The abbreviations that were new, in the order of their definition. -/
  added : List (UInt64 × Abbrev) := []
  result : Except Compression.Error File

/-- The failure of a file whose entries end inside a block. -/
def endFailure (state : Unrolling) : Option Compression.Error :=
  if state.blocks.isEmpty then none else some (.malformed .unexpectedEnd)

/-- Unroll a file. -/
def unroll (bytes : Array UInt8) : Unrolled :=
  if bytes.size % 4 ≠ 0 then { result := .error (.badSize bytes.size) }
  else
    match Bitstream.File.ofBytes bytes with
    | .error cause => { result := .error (.bitstream cause) }
    | .ok file =>
        let (entries, ending) := file.entries
        let (state, failed) := Unrolling.run {} entries
        let failure := (failed.or (ending.map .bitstream)).or (endFailure state)
        { tables := state.tables
          added := state.added.reverse
          result :=
            match failure with
            | some cause => .error cause
            | none => .ok { header := file.header, blocks := state.reversed.reverse } }

end Bitcode.Tree
