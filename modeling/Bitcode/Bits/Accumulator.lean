import Bitcode.Bits.Writer

/-!
Writing bit fields by way of an accumulator. Fields are put on top of the bits that are pending, and
whenever a word of 32 bits is pending, it goes to the buffer.
-/

namespace Bitcode.Bits

/-- Complete words, and the bits after them. -/
structure Accumulator where
  buffer : Array UInt8 := #[]
  /-- The bits that are not in the buffer yet, the first of them lowest. -/
  pending : BitVec 128 := 0
  pendingBits : Nat := 0
  deriving DecidableEq, Repr, Inhabited

/-- A computation that writes by way of an accumulator, also when it fails. -/
abbrev Accumulating (α : Type) := EStateM Error Accumulator α

namespace Accumulator

/-- How many bits have been written. -/
def bitPosition (accumulator : Accumulator) : Nat :=
  8 * accumulator.buffer.size + accumulator.pendingBits

/-- How many bytes the complete words take. -/
def bytePosition (accumulator : Accumulator) : Nat :=
  accumulator.buffer.size

/-- The bytes of a word, the lowest first. -/
def wordBytes (word : UInt32) : Array UInt8 :=
  #[word.toUInt8, (word >>> 8).toUInt8, (word >>> 16).toUInt8, (word >>> 24).toUInt8]

/-- Move words to the buffer while there are any pending. -/
def flushWords (accumulator : Accumulator) : Accumulator :=
  if 32 ≤ accumulator.pendingBits then
    flushWords
      { buffer := accumulator.buffer ++
          wordBytes (UInt32.ofBitVec (accumulator.pending.setWidth 32))
        pending := accumulator.pending >>> 32
        pendingBits := accumulator.pendingBits - 32 }
  else accumulator
termination_by accumulator.pendingBits

/-- Put the bits of a value on top of the pending ones. At most 31 bits are pending between fields,
and a field has at most 63, so nothing is shifted out. -/
def push (accumulator : Accumulator) (value : UInt64) (width : Nat) : Accumulator :=
  flushWords
    { accumulator with
      pending := accumulator.pending |||
        value.toBitVec.setWidth 128 <<< accumulator.pendingBits
      pendingBits := accumulator.pendingBits + width }

/-- Write a value in a field between 1 and 63 bits wide that has room for it. -/
def emit (value : UInt64) (width : Nat) : Accumulating Unit := fun accumulator =>
  if width = 0 ∨ Writer.maxWidth < width then .error (.badWidth width) accumulator
  else if value >>> UInt64.ofNat width ≠ 0 then .error (.valueTooWide value width) accumulator
  else .ok () (accumulator.push value width)

/-- Write a variable-width integer. -/
def emitVbr (value : UInt64) (width : Nat) : Accumulating Unit :=
  if Vbr.ValidWidth width then
    (Vbr.chunks width value).forM fun chunk => emit (UInt64.ofNat chunk) width
  else throw (.badVbrWidth width)

/-- Fill up the last word with zeros. -/
def align32 (accumulator : Accumulator) : Accumulator :=
  if 0 < accumulator.pendingBits then flushWords { accumulator with pendingBits := 32 }
  else accumulator

/-- Complete words with another word at a byte index. -/
def patched (buffer : Array UInt8) (byte : Nat) (word : UInt32) : Array UInt8 :=
  buffer.extract 0 byte ++ wordBytes word ++ buffer.extract (byte + 4) buffer.size

/-- Overwrite the complete word at a byte index. -/
def backpatch (byte : Nat) (word : UInt32) : Accumulating Unit := fun accumulator =>
  -- The sum is a number: an index so close to the last machine word that it would overflow is
  -- refused like any other index outside of the buffer.
  if byte % 4 ≠ 0 ∨ accumulator.buffer.size < byte + 4 then .error (.badBackpatch byte) accumulator
  else .ok () { accumulator with buffer := patched accumulator.buffer byte word }

/-- Append whole words, given as bytes, at a word boundary. -/
def emitWords (bytes : Array UInt8) : Accumulating Unit := fun accumulator =>
  if accumulator.pendingBits ≠ 0 ∨ bytes.size % 4 ≠ 0 then .error .badLength accumulator
  else .ok () { accumulator with buffer := accumulator.buffer ++ bytes }

/-- The bytes of the words written, the last one filled up with zeros. -/
def toBytes (accumulator : Accumulator) : Array UInt8 :=
  accumulator.align32.buffer

/-- What has been written, bit by bit. -/
def view (accumulator : Accumulator) : Writer :=
  { bits := unpackBytes accumulator.buffer ++
      lowBits accumulator.pending.toNat accumulator.pendingBits }

end Accumulator

end Bitcode.Bits
