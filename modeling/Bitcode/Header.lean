import Bitcode.Bitstream.Error

/-!
The header in front of a bitstream: a magic word, a field count and a byte count of 16 bits each,
and the fields. A field is a number of 16 bits that joins a tag and a type, a length of 16 bits,
and data that is filled up to whole words. All numbers are little-endian.
-/

namespace Bitcode

open Bitstream

/-- A field of a header. -/
structure HeaderField where
  tag : Nat
  type : Nat
  /-- The data without the bytes that fill it up. -/
  data : Array UInt8
  deriving DecidableEq, Repr

/-- The tags of header fields. -/
inductive HeaderTag where
  | invalid
  | version
  | alignRecords
  deriving DecidableEq, Repr

/-- The tag with a number. -/
def HeaderTag.ofCode? : Nat → Option HeaderTag
  | 0 => some .invalid
  | 1 => some .version
  | 2 => some .alignRecords
  | _ => none

/-- The types of header fields. -/
inductive HeaderFieldType where
  | buffer
  | word
  deriving DecidableEq, Repr

/-- The type with a number. -/
def HeaderFieldType.ofCode? : Nat → Option HeaderFieldType
  | 0 => some .buffer
  | 1 => some .word
  | _ => none

/-- The number that bytes spell, least significant byte first. -/
def littleEndian : List UInt8 → Nat
  | [] => 0
  | byte :: rest => byte.toNat + 256 * littleEndian rest

/-- The given number of bytes of a number, least significant first. -/
def toLittleEndian (value : Nat) : Nat → List UInt8
  | 0 => []
  | count + 1 => UInt8.ofNat (value % 256) :: toLittleEndian (value / 256) count

/-- The number in a field that holds one. -/
def HeaderField.word? (field : HeaderField) : Option UInt32 :=
  if HeaderFieldType.ofCode? field.type = some .word ∧ field.data.size = 4 then
    some (UInt32.ofNat (littleEndian field.data.toList))
  else none

/-- A header, with the bytes it was read from. -/
structure Header where
  fields : List HeaderField
  raw : Array UInt8
  deriving DecidableEq, Repr

namespace Header

/-- The bytes that every file starts with. -/
def magic : List UInt8 := [0x50, 0x45, 0x58, 0x45]

/-- The size of the magic word and the two counts. -/
def fixedSize : Nat := 8

/-- A size filled up to whole words. -/
def wordAligned (size : Nat) : Nat :=
  (size + 3) / 4 * 4

/-- The 16-bit number at a byte index. -/
def read16 (bytes : Array UInt8) (position : Nat) : Except HeaderError Nat :=
  if position + 2 ≤ bytes.size then
    .ok (littleEndian (bytes.extract position (position + 2)).toList)
  else .error (.truncated position)

/-- Read the given number of fields from a byte index on, and return where they end. -/
def readFields (bytes : Array UInt8) : Nat → Nat → Except HeaderError (List HeaderField × Nat)
  | 0, position => .ok ([], position)
  | count + 1, position => do
      let id ← read16 bytes position
      let length ← read16 bytes (position + 2)
      let start := position + 4
      if bytes.size < start + length then throw .fieldOverrun
      let field : HeaderField :=
        { tag := id / 16, type := id % 16, data := bytes.extract start (start + length) }
      let (rest, finish) ← readFields bytes count (start + wordAligned length)
      return (field :: rest, finish)

/-- Read the header at the start of a file. -/
def parse (bytes : Array UInt8) : Except HeaderError Header := do
  if bytes.size < fixedSize ∨ (bytes.extract 0 4).toList ≠ magic then throw .missingMagic
  let fieldCount ← read16 bytes 4
  let byteCount ← read16 bytes 6
  if bytes.size < fixedSize + byteCount then throw (.shortInput byteCount bytes.size)
  let (fields, finish) ←
    readFields (bytes.extract fixedSize (fixedSize + byteCount)) fieldCount 0
  if finish ≠ byteCount then throw (.sizeMismatch finish byteCount)
  return { fields, raw := bytes.extract 0 (fixedSize + byteCount) }

/-- The bytes of a header field. -/
def fieldBytes (field : HeaderField) : List UInt8 :=
  toLittleEndian (16 * field.tag + field.type) 2 ++ toLittleEndian field.data.size 2 ++
    field.data.toList

/-- The header that holds a version and nothing else. -/
def ofVersion (version : UInt32) : Header :=
  let field : HeaderField :=
    { tag := 1, type := 1, data := (toLittleEndian version.toNat 4).toArray }
  { fields := [field],
    raw := (magic ++ toLittleEndian 1 2 ++ toLittleEndian 8 2 ++ fieldBytes field).toArray }

/-- The size of the header. The bitstream follows it. -/
def size (header : Header) : Nat :=
  header.raw.size

/-- The version that a header names. -/
def version? (header : Header) : Option UInt32 :=
  (header.fields.find? fun field => field.tag = 1).bind HeaderField.word?

/-- Bitstreams of this version can be read. -/
def isReadable (header : Header) : Bool :=
  header.version? == some 1 || header.version? == some 2

/-- The header can be read and holds nothing but a version. -/
def isSupported (header : Header) : Bool :=
  header.isReadable && header.fields.length == 1

end Header

end Bitcode
