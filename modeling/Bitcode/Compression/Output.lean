import Bitcode.Bitstream.Writer
import Bitcode.Compression.Error
import Bitcode.Selection.Basic

/-!
Writing an unrolled file, either with the abbreviations of a selection or without any.
-/

namespace Bitcode.Compression

open Format Bitstream
open Bitcode.Tree (Body Block)

/-- A file that is being written. -/
structure Output where
  writer : Bitstream.Writer := {}
  /-- Nothing, if all records are written without an abbreviation. -/
  selection : Option Selection
  /-- Block 0 has been written, or is not needed. -/
  wroteInfo : Bool := false
  deriving DecidableEq, Repr

/-- A computation that writes to a file, also when it fails. -/
abbrev Writes (α : Type) := EStateM Error Output α

/-- Run a computation on the file's bitstream. -/
def onWriter {α : Type} (composing : Composing α) : Writes α :=
  fun ⟨writer, selection, wroteInfo⟩ =>
    match composing writer with
    | .ok value writer => .ok value ⟨writer, selection, wroteInfo⟩
    | .error cause writer => .error (.bitstream cause) ⟨writer, selection, wroteInfo⟩

instance : MonadLift Composing Writes where
  monadLift := onWriter

namespace Output

/-- The abbreviations kept for a block id. -/
def kept (output : Output) (block : UInt64) : List Abbrev :=
  match output.selection with
  | some selection => selection.kept block
  | none => []

/-- The kept abbreviations that block 0 defines: those of all blocks but the module. -/
def shared (output : Output) : List (UInt64 × List Abbrev) :=
  match output.selection with
  | some selection =>
      (selection.entries.filter fun (block, selected) =>
        block ≠ moduleBlockId ∧ !selected.kept.isEmpty).map
        fun (block, selected) => (block, selected.kept)
  | none => []

/-- The width of abbreviation ids in a block. -/
def idWidth (output : Output) (block : UInt64) : Nat :=
  match output.selection with
  | some _ => idWidthFor (output.kept block).length
  | none => initialIdWidth

/-- Write block 0, once, unless nothing is kept for it. -/
def writeInfo : Writes Unit := do
  if (← get).wroteInfo then return ()
  modify fun output => { output with wroteInfo := true }
  let shared := (← get).shared
  if shared.isEmpty then return ()
  Writer.writeInfoBlock shared

/-- Take the abbreviation id for the next record of a block. -/
def nextId (block code : UInt64) : Writes Nat := do
  match (← get).selection with
  | none => return plainRow
  | some selection =>
      match selection.next? block with
      | none => throw (.malformed (.notSelected code block))
      | some (id, rest) =>
          modify fun output => { output with selection := some rest }
          return id

/-- Write a record of a block. -/
def writeRecord (block : UInt64) (record : Tree.Record) : Writes Unit := do
  let id ← nextId block record.code
  if id = plainRow then Writer.writePlain record.code record.fields
  else Writer.writeAbbreviated (UInt64.ofNat id) record.code record.fields

/-- Start a block. The module defines its own abbreviations, and holds block 0. -/
def enterBlock (block : UInt64) : Writes Unit := do
  let width := (← get).idWidth block
  let own := (← get).kept block
  Writer.enterBlock block (UInt64.ofNat width)
  if block = moduleBlockId then
    own.forM fun shape => discard (onWriter (Writer.define shape))
    writeInfo

/-- Write what stands in a block. -/
def writeBody (block : UInt64) : Body → Writes Unit
  | .empty => return ()
  | .record item rest => do
      writeRecord block item
      writeBody block rest
  | .block id _ body rest => do
      enterBlock id
      writeBody id body
      onWriter Writer.exitBlock
      writeBody block rest

/-- Write a block at the top of a file. If it is not the module, block 0 goes before it. -/
def writeBlock (block : Block) : Writes Unit := do
  if block.id ≠ moduleBlockId then writeInfo
  enterBlock block.id
  writeBody block.id block.body
  onWriter Writer.exitBlock

/-- Write a whole file. -/
def writeFile (file : Tree.File) : Writes (Array UInt8) := do
  Writer.writeHeader file.header
  file.blocks.forM writeBlock
  match (← get).writer.finish with
  | .ok bytes => return bytes
  | .error cause => throw (.bitstream cause)

end Output

/-- The bytes of a file written with a selection, and what is left of the selection. -/
def encodeWith (selection : Selection) (file : Tree.File) :
    Except Error (Array UInt8) × Selection :=
  match Output.writeFile file { selection := some selection } with
  | .ok bytes output => (.ok bytes, output.selection.getD selection)
  | .error cause output => (.error cause, output.selection.getD selection)

/-- The bytes of a file written without abbreviations. -/
def encodePlain (file : Tree.File) : Except Error (Array UInt8) :=
  match Output.writeFile file { selection := none } with
  | .ok bytes _ => .ok bytes
  | .error cause _ => .error cause

end Bitcode.Compression
