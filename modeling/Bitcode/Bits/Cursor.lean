import Bitcode.Bits.Basic
import Bitcode.Bits.Error
import Bitcode.Bits.Vbr

/-!
Reading bit fields from a byte array.

Bytes are loaded in windows of at most eight into a word, and fields are taken from the low end of
the word. The window decides how far a failed read or an alignment moves: both stop where the loaded
bytes end.
-/

namespace Bitcode.Bits

/-- A reading position in a byte array. -/
structure Cursor where
  bytes : Array UInt8
  /-- How many of the bytes can be read. -/
  size : Nat
  /-- The bytes below this index have been loaded. -/
  loaded : Nat := 0
  /-- The loaded bits that have not been read, the next one lowest. -/
  block : UInt64 := 0
  /-- How many loaded bits have not been read. -/
  pending : Nat := 0
  deriving DecidableEq, Repr, Inhabited

/-- A computation that moves a cursor, also when it fails. -/
abbrev Reading (α : Type) := EStateM Error Cursor α

namespace Cursor

/-- The largest number of bytes in a window. -/
def windowSize : Nat := 8

/-- A cursor at the start of all the bytes. -/
def ofBytes (bytes : Array UInt8) : Cursor :=
  { bytes, size := bytes.size }

/-- A cursor that sees the first `size` bytes only. -/
def ofFirstBytes (bytes : Array UInt8) (size : Nat) : Except Error Cursor :=
  if bytes.size < size then .error .badLength else .ok { bytes, size }

/-- The number of readable bits. -/
def bitLength (cursor : Cursor) : Nat :=
  8 * cursor.size

/-- The next bit to read. -/
def position (cursor : Cursor) : Nat :=
  8 * cursor.loaded - cursor.pending

/-- The position in whole bytes. -/
def bytePosition (cursor : Cursor) : Nat :=
  cursor.position / 8

/-- No bit is left. -/
def exhausted (cursor : Cursor) : Bool :=
  cursor.pending == 0 && cursor.size ≤ cursor.loaded

/-- Move to the end of the loaded bytes. -/
def drain (cursor : Cursor) : Cursor :=
  { cursor with block := 0, pending := 0 }

/-- Forget the loaded bytes and go on from a byte index. -/
def restart (cursor : Cursor) (byte : Nat) : Cursor :=
  { cursor.drain with loaded := byte }

/-- Load the next window, if there is a byte left. What was pending is lost. -/
def nextWindow (cursor : Cursor) : Option Cursor :=
  if cursor.size ≤ cursor.loaded then none
  else
    let stop := min (cursor.loaded + windowSize) cursor.size
    some
      { cursor with
        loaded := stop
        block := joinBytes (cursor.bytes.extract cursor.loaded stop).toList
        pending := 8 * (stop - cursor.loaded) }

/-- The low `count` bits of the block, where `count` is below 64. -/
def front (cursor : Cursor) (count : Nat) : UInt64 :=
  cursor.block &&& (1 <<< UInt64.ofNat count - 1)

/-- Move forward within the block, by less than 64 bits. -/
def skip (cursor : Cursor) (count : Nat) : Cursor :=
  { cursor with
    block := cursor.block >>> UInt64.ofNat count
    pending := cursor.pending - count }

/-- Read between 1 and 63 bits. A failed read has used up the window that it started in. -/
def read (count : Nat) : Reading UInt64 := fun cursor =>
  if count = 0 ∨ 64 ≤ count then .error (.badWidth count) cursor
  else if count ≤ cursor.pending then .ok (cursor.front count) (cursor.skip count)
  else
    match cursor.nextWindow with
    | none => .error .endOfData cursor.drain
    | some next =>
        let low := cursor.front cursor.pending
        let rest := count - cursor.pending
        if rest ≤ next.pending then
          .ok (low ||| next.front rest <<< UInt64.ofNat cursor.pending) (next.skip rest)
        else .error .tooShort next

/-- Read chunks until one has no continuation mark. At most `remaining` chunks are read. -/
def readChunks (width : Nat) : Nat → Nat → UInt64 → Reading UInt64
  | 0, _, _ => throw .vbrOverflow
  | remaining + 1, shift, value => do
      let chunk ← read width
      match Vbr.join? value (Vbr.payload width chunk) shift with
      | none => throw .vbrOverflow
      | some joined =>
          if Vbr.continues width chunk then
            readChunks width remaining (shift + (width - 1)) joined
          else return joined

/-- Read a variable-width integer. Sixty-five chunks always pass the 64th bit. -/
def readVbr (width : Nat) : Reading UInt64 :=
  if Vbr.ValidWidth width then readChunks width 65 0 0 else throw (.badVbrWidth width)

/-- Go to the next multiple of 32 bits, or to the end of the window if that comes first. -/
def align32 (cursor : Cursor) : Cursor :=
  let misaligned := cursor.position % 32
  if misaligned = 0 then cursor
  else if 32 - misaligned ≤ cursor.pending then cursor.skip (32 - misaligned)
  else cursor.drain

/-- Go to a bit position: to the start of its group of 64 bits, and then over the bits before it. -/
def seekBit (target : Nat) : Reading Unit := do
  let start := windowSize * (target / 64)
  if (← get).size < start then throw .endOfData
  modify (·.restart start)
  if target % 64 ≠ 0 then discard (read (target % 64))

/-- The integer types that a field can be read into. -/
structure IntType where
  bits : Nat
  signed : Bool
  deriving DecidableEq, Repr

/-- The largest number of an integer type. -/
def IntType.largest (type : IntType) : Nat :=
  if type.signed then 1 <<< (type.bits - 1) - 1 else 1 <<< type.bits - 1

/-- Read a field whose value has to lie in an integer type. -/
def readAs (type : IntType) (count : Nat) : Reading UInt64 := do
  let value ← read count
  if value.toNat ≤ type.largest then return value else throw .lossyCast

/-- Read as many bits as an integer type has. -/
def readExact (type : IntType) : Reading UInt64 :=
  readAs type type.bits

/-- What the offset of a seek is counted from. -/
inductive Anchor where
  | start
  | finish
  | current
  deriving DecidableEq, Repr

/-- The byte index that an offset names. From the end, only bytes before it can be named. -/
def seekTarget (cursor : Cursor) (anchor : Anchor) (offset : Int) : Option Nat :=
  let target : Option Int :=
    match anchor with
    | .start => some offset
    | .finish => if offset < 0 then some (cursor.size + offset) else none
    | .current => some (cursor.bytePosition + offset)
  target.bind fun byte => if 0 ≤ byte ∧ byte ≤ cursor.size then some byte.toNat else none

/-- Go to a byte, if it is not past the end. -/
def seek (cursor : Cursor) (anchor : Anchor) (offset : Int) : Option Cursor :=
  (cursor.seekTarget anchor offset).map cursor.restart

/-- The report of a seek that leaves the bytes. -/
def seekMessage : String := "seek target out of bounds"

end Cursor

end Bitcode.Bits
