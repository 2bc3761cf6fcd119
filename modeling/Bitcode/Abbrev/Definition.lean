import Bitcode.Bitstream.Basic

/-!
Definitions of abbreviations in a stream: an operator count, and then for each operator a bit that
tells a constant from an encoding, and what the operator carries.
-/

namespace Bitcode

open Format Bits Bitstream

namespace Operator

/-- Read an operator that is not marked as a constant. A field without bits is the constant zero. -/
def readEncoded : Bitstream.Reading Operator := do
  let code ← Cursor.read 3
  match Encoding.ofCode? code with
  | none => throw (.badEncoding code)
  | some .fixed =>
      let width ← Cursor.readVbr 5
      if width = 0 then return .literal 0
      if 63 < width then throw (.definition (.fixedTooWide width))
      return .fixed width
  | some .vbr =>
      let width ← Cursor.readVbr 5
      if width = 0 then return .literal 0
      if ¬ Vbr.ValidWidth width.toNat then throw (.definition (.badVbrWidth width))
      return .vbr width
  | some .array => return .array
  | some .char6 => return .char6
  | some .blob => return .blob

/-- Read an operator. -/
def read : Bitstream.Reading Operator := do
  let mark ← Cursor.read 1
  if mark = 1 then
    let value ← Cursor.readVbr 8
    return .literal value
  else readEncoded

/-- Write an operator. -/
def write (operator : Operator) : Bitstream.Writing Unit :=
  match operator with
  | .literal value => do
      Writer.emit 1 1
      Writer.emitVbr value 8
  | .fixed width => do
      Writer.emit 0 1
      Writer.emit Encoding.fixed.code 3
      Writer.emitVbr width 5
  | .vbr width => do
      Writer.emit 0 1
      Writer.emit Encoding.vbr.code 3
      Writer.emitVbr width 5
  | .array => do
      Writer.emit 0 1
      Writer.emit Encoding.array.code 3
  | .char6 => do
      Writer.emit 0 1
      Writer.emit Encoding.char6.code 3
  | .blob => do
      Writer.emit 0 1
      Writer.emit Encoding.blob.code 3

/-- What is wrong with an operator that `remaining` operators follow. -/
def misplaced? (operator : Operator) (remaining : Nat) (afterArray : Bool) :
    Option DefinitionError :=
  if operator = .array ∧ remaining ≠ 1 then some .misplacedArray
  else if operator = .blob ∧ remaining ≠ 0 then some .misplacedBlob
  else if afterArray ∧ (operator.isLiteral ∨ !operator.isScalar) then some (.badElement operator)
  else none

end Operator

namespace Abbrev

/-- Read the given number of operators. -/
def readOperators : Nat → Bool → Bitstream.Reading (List Operator)
  | 0, _ => return []
  | remaining + 1, afterArray => do
      let operator ← Operator.read
      match operator.misplaced? remaining afterArray with
      | some cause => throw (.definition cause)
      | none =>
          let rest ← readOperators remaining (operator = .array)
          return operator :: rest

/-- Read the definition of an abbreviation, after its abbreviation id. -/
def read : Bitstream.Reading Abbrev := do
  let count ← Cursor.readVbr 5
  if count = 0 then throw (.definition .noOperators)
  -- As for the fields of a record, room for the operators is not accounted for.
  let operators ← readOperators count.toNat false
  return ⟨operators⟩

/-- Write the definition of an abbreviation, after its abbreviation id. -/
def write (shape : Abbrev) : Bitstream.Writing Unit := do
  Writer.emitVbr (UInt64.ofNat shape.operators.length) 5
  shape.operators.forM Operator.write

end Abbrev

end Bitcode
