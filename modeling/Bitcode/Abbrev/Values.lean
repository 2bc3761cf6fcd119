import Bitcode.Bitstream.Basic

/-!
Records in a stream: the values that an abbreviation reads and writes, after the abbreviation id.
Elements of arrays and bytes of blobs are values like all others.
-/

namespace Bitcode

open Format Bits Bitstream

namespace Operator

/-- Read one value. -/
def readScalar (operator : Operator) : Bitstream.Reading UInt64 :=
  match operator with
  | .literal value => return value
  | .fixed width => if width = 0 then return 0 else Cursor.read width.toNat
  | .vbr width => if width = 0 then return 0 else Cursor.readVbr width.toNat
  | .char6 => do
      let code ← Cursor.read 6
      return (Char6.decode? code).getD 0
  | .array => throw (.definition (.notScalar .array))
  | .blob => throw (.definition (.notScalar .blob))

/-- Write one value. -/
def writeScalar (operator : Operator) (value : UInt64) : Bitstream.Writing Unit :=
  if (operator.scalarBits value).isNone then throw (.encoding (.operand operator value))
  else
    match operator with
    | .fixed width => if width = 0 then return () else Writer.emit value width.toNat
    | .vbr width => if width = 0 then return () else Writer.emitVbr value width.toNat
    | .char6 => Writer.emit ((Char6.encode? value).getD 0) 6
    | _ => return ()

end Operator

namespace Abbrev

/-- Read values one after the other, in front of those read before in reverse order. -/
def readMany (readOne : Bitstream.Reading UInt64) : Nat → List UInt64 → Bitstream.Reading (List UInt64)
  | 0, reversed => return reversed.reverse
  | count + 1, reversed => do
      let value ← readOne
      readMany readOne count (value :: reversed)

/-- Read the bytes of a blob, between word boundaries. -/
def readBlob : Bitstream.Reading (List UInt64) := do
  let count ← Cursor.readVbr 6
  modify Cursor.align32
  let bytes ← readMany (Cursor.read 8) count.toNat []
  modify Cursor.align32
  return bytes

/-- Read the values of a list of operators. -/
def readOperatorValues : List Operator → Bitstream.Reading (List UInt64)
  | [] => return []
  | [.array] => throw (.definition .missingElement)
  | .array :: element :: rest => do
      let count ← Cursor.readVbr 6
      let elements ← readMany element.readScalar count.toNat []
      let others ← readOperatorValues rest
      return elements ++ others
  | .blob :: rest => do
      let bytes ← readBlob
      let others ← readOperatorValues rest
      return bytes ++ others
  | operator :: rest => do
      let value ← operator.readScalar
      let others ← readOperatorValues rest
      return value :: others

/-- Read the values of a record. -/
def readValues (shape : Abbrev) : Bitstream.Reading (List UInt64) :=
  readOperatorValues shape.operators

/-- Write one byte of a blob. -/
def writeByte (value : UInt64) : Bitstream.Writing Unit :=
  if 0xff < value then throw (.encoding (.blobByte value)) else Writer.emit value 8

/-- Write the bytes of a blob, between word boundaries. -/
def writeBlob (values : List UInt64) : Bitstream.Writing Unit := do
  Writer.emitVbr (UInt64.ofNat values.length) 6
  modify Writer.align32
  values.forM writeByte
  modify Writer.align32

/-- Write the values of a list of operators. Arrays and blobs take all values that are left. -/
def writeOperatorValues (shape : Abbrev) : List Operator → List UInt64 → Bitstream.Writing Unit
  | [], [] => return ()
  | [], _ :: _ => throw (.encoding (.tooManyValues shape))
  | [.array], _ => throw (.encoding .missingElement)
  | .array :: element :: rest, values => do
      Writer.emitVbr (UInt64.ofNat values.length) 6
      values.forM element.writeScalar
      writeOperatorValues shape rest []
  | .blob :: rest, values => do
      writeBlob values
      writeOperatorValues shape rest []
  | _ :: _, [] => throw (.encoding (.tooFewValues shape))
  | operator :: rest, value :: values => do
      operator.writeScalar value
      writeOperatorValues shape rest values

/-- Write the values of a record. -/
def writeValues (shape : Abbrev) (values : List UInt64) : Bitstream.Writing Unit :=
  writeOperatorValues shape shape.operators values

end Abbrev

end Bitcode
