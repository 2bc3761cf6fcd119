import Bitcode.Bits.Basic
import Bitcode.Bits.Error
import Bitcode.Bits.Vbr

/-!
Writing bit fields. The finished bytes are whole words of 32 bits.
-/

namespace Bitcode.Bits

/-- The bits written so far. -/
structure Writer where
  bits : Array Bool := #[]
  deriving DecidableEq, Repr, Inhabited

/-- A computation that writes bits, also when it fails. -/
abbrev Writing (α : Type) := EStateM Error Writer α

namespace Writer

/-- The widest field that can be written at once. -/
def maxWidth : Nat := 63

/-- How many bits have been written. -/
def bitPosition (writer : Writer) : Nat :=
  writer.bits.size

/-- How many bytes the complete words take. -/
def bytePosition (writer : Writer) : Nat :=
  4 * (writer.bits.size / 32)

/-- Append the low `count` bits of a number. -/
def append (writer : Writer) (value count : Nat) : Writer :=
  { writer with bits := writer.bits ++ lowBits value count }

/-- Write a value in a field between 1 and 63 bits wide that has room for it. -/
def emit (value : UInt64) (width : Nat) : Writing Unit := fun writer =>
  if width = 0 ∨ maxWidth < width then .error (.badWidth width) writer
  else if 1 <<< width ≤ value.toNat then .error (.valueTooWide value width) writer
  else .ok () (writer.append value.toNat width)

/-- Write a variable-width integer. -/
def emitVbr (value : UInt64) (width : Nat) : Writing Unit :=
  if Vbr.ValidWidth width then
    (Vbr.chunks width value).forM fun chunk => emit (UInt64.ofNat chunk) width
  else throw (.badVbrWidth width)

/-- Fill up the last word with zeros. -/
def align32 (writer : Writer) : Writer :=
  writer.append 0 ((32 - writer.bits.size % 32) % 32)

/-- Replace bits that have been written, from a position on. -/
def patch (bits : Array Bool) (position : Nat) : List Bool → Array Bool
  | [] => bits
  | bit :: rest => patch (bits.setIfInBounds position bit) (position + 1) rest

/-- Overwrite the complete word at a byte index. The end of the word is not bounded by a machine
word. -/
def backpatch (byte : Nat) (word : UInt32) : Writing Unit := fun writer =>
  if byte % 4 ≠ 0 ∨ writer.bytePosition < byte + 4 then .error (.badBackpatch byte) writer
  else .ok () { writer with bits := patch writer.bits (8 * byte) (lowBits word.toNat 32) }

/-- Append whole words, given as bytes, at a word boundary. -/
def emitWords (bytes : Array UInt8) : Writing Unit := fun writer =>
  if writer.bits.size % 32 ≠ 0 ∨ bytes.size % 4 ≠ 0 then .error .badLength writer
  else .ok () { writer with bits := writer.bits ++ unpackBytes bytes }

/-- The bytes of the words written, the last one filled up with zeros. -/
def toBytes (writer : Writer) : Array UInt8 :=
  packBytes writer.bits (4 * ((writer.bits.size + 31) / 32))

end Writer

end Bitcode.Bits
