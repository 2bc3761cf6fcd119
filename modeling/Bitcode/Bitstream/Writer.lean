import Bitcode.Abbrev.Definition
import Bitcode.Abbrev.Values
import Bitcode.Header
import Bitcode.Bitstream.Record

/-!
Writing a bitstream. Abbreviation ids are resolved by the rules of the reader: a block sees the
abbreviations that block 0 defined for it, and then its own, from id 4 on.
-/

namespace Bitcode.Bitstream

open Format Bits

/-- A block that is being written. -/
structure OpenBlock where
  block : UInt64
  /-- The width of abbreviation ids. -/
  idWidth : Nat
  /-- Where the word for the length of the block stands, in bytes. -/
  lengthAt : Nat
  abbrevs : List Abbrev
  deriving DecidableEq, Repr

/-- A writer of a bitstream. -/
structure Writer where
  bits : Bits.Writer := {}
  /-- The open blocks, innermost first. -/
  blocks : List OpenBlock := []
  shared : Shared := {}
  deriving DecidableEq, Repr

/-- A computation that writes to a bitstream, also when it fails. -/
abbrev Composing (α : Type) := EStateM Error Writer α

/-- Run a computation on the writer's bits. -/
def onBits {α : Type} (writing : Writing α) : Composing α := fun ⟨bits, blocks, shared⟩ =>
  match writing bits with
  | .ok value bits => .ok value ⟨bits, blocks, shared⟩
  | .error cause bits => .error cause ⟨bits, blocks, shared⟩

instance : MonadLift Writing Composing where
  monadLift := onBits

namespace Writer

/-- The width of the next abbreviation id. -/
def idWidth (writer : Writer) : Nat :=
  match writer.blocks with
  | [] => initialIdWidth
  | block :: _ => block.idWidth

/-- Write an abbreviation id. -/
def emitId (id : UInt64) : Composing Unit := do
  Writer.emit id (← get).idWidth

/-- Write a header as it is, in front of everything else. -/
def writeHeader (header : Header) : Composing Unit := do
  if (← get).bits.bitPosition ≠ 0 then throw (.header .notFirst)
  Writer.emitWords header.raw

/-- Start a block whose abbreviation ids have the given width. -/
def enterBlock (block width : UInt64) : Composing Unit := do
  emitId ReservedId.enterBlock.code
  Writer.emitVbr block 8
  Writer.emitVbr width 4
  onBits (modify Writer.align32)
  let lengthAt := (← get).bits.bytePosition
  Writer.emit 0 32
  modify fun writer =>
    { writer with
      blocks :=
        { block, idWidth := width.toNat, lengthAt, abbrevs := writer.shared.forBlock block } ::
          writer.blocks }

/-- End the innermost block, and fill in its length in words. -/
def exitBlock : Composing Unit := do
  match (← get).blocks with
  | [] => throw (.scope .nothingToExit)
  | block :: rest =>
      emitId ReservedId.endBlock.code
      onBits (modify Writer.align32)
      modify fun writer => { writer with blocks := rest }
      let words := ((← get).bits.bytePosition - block.lengthAt - 4) / 4
      Writer.backpatch block.lengthAt (UInt32.ofNat words)

/-- Define an abbreviation in the innermost block, and return its id. -/
def define (shape : Abbrev) : Composing Nat := do
  match (← get).blocks with
  | [] => throw (.scope .definitionOutside)
  | block :: rest =>
      emitId ReservedId.defineAbbrev.code
      shape.write
      modify fun writer =>
        { writer with blocks := { block with abbrevs := block.abbrevs ++ [shape] } :: rest }
      return firstDefinedId + block.abbrevs.length

/-- Write a record without an abbreviation. -/
def writePlain (code : UInt64) (fields : List UInt64) : Composing Unit := do
  match (← get).blocks with
  | [] => throw (.scope .recordOutside)
  | _ :: _ =>
      emitId ReservedId.plainRecord.code
      Writer.emitVbr code 6
      Writer.emitVbr (UInt64.ofNat fields.length) 6
      fields.forM fun field => Writer.emitVbr field 6

/-- Write a record with an abbreviation that the innermost block sees. -/
def writeAbbreviated (id code : UInt64) (fields : List UInt64) : Composing Unit := do
  match (← get).blocks with
  | [] => throw (.scope .recordOutside)
  | block :: _ =>
      match abbrevWithId? block.abbrevs id with
      | none => throw (.unknownAbbrev id)
      | some shape =>
          let values := code :: fields
          if !shape.canEncode values then throw (.encoding (.record shape values))
          emitId id
          shape.writeValues values

/-- Define an abbreviation for all blocks with an id that start later. -/
def share (block : UInt64) (shape : Abbrev) : Composing Unit := do
  emitId ReservedId.defineAbbrev.code
  shape.write
  modify fun writer => { writer with shared := writer.shared.add block shape }

/-- Define abbreviations for all blocks with an id that start later. -/
def shareAll (block : UInt64) (abbrevs : List Abbrev) : Composing Unit :=
  if abbrevs.isEmpty then return ()
  else do
    writePlain setBlockCode [block]
    abbrevs.forM (share block)

/-- Write block 0 with the abbreviations of each listed block. -/
def writeInfoBlock (listed : List (UInt64 × List Abbrev)) : Composing Unit := do
  enterBlock infoBlockId (UInt64.ofNat initialIdWidth)
  listed.forM fun (block, abbrevs) => shareAll block abbrevs
  exitBlock

/-- The bytes of the stream, once every block has been ended. -/
def finish (writer : Writer) : Except Error (Array UInt8) :=
  match writer.blocks with
  | [] => .ok writer.bits.toBytes
  | block :: _ => .error (.scope (.neverExited block.block))

end Writer

end Bitcode.Bitstream
