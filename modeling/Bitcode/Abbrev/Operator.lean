import Bitcode.Bits.Vbr
import Bitcode.Format.Ids
import Bitcode.Format.Char6

/-!
The operators of an abbreviation. Each describes how one value of a record is encoded, but for
`array`, which takes its element from the operator after it, and `blob`.
-/

namespace Bitcode

open Format Bits

/-- An operator of an abbreviation. -/
inductive Operator where
  /-- A constant, which takes no bits. -/
  | literal (value : UInt64)
  /-- A field of a fixed width. -/
  | fixed (width : UInt64)
  /-- A variable-width integer with chunks of the given width. -/
  | vbr (width : UInt64)
  /-- An element count, and then that many elements. -/
  | array
  /-- A character in six bits. -/
  | char6
  /-- A byte count, and then that many bytes from a word boundary on. -/
  | blob
  deriving DecidableEq, Repr, Inhabited

namespace Operator

/-- The constant of a literal. -/
def literal? : Operator → Option UInt64
  | .literal value => some value
  | _ => none

/-- The operator is a constant. -/
def isLiteral (operator : Operator) : Bool :=
  operator.literal?.isSome

/-- How an operator is encoded, if it is not a constant. -/
def encoding? : Operator → Option Encoding
  | .literal _ => none
  | .fixed _ => some .fixed
  | .vbr _ => some .vbr
  | .array => some .array
  | .char6 => some .char6
  | .blob => some .blob

/-- How many of the operators that follow belong to this one. -/
def argumentCount : Operator → Nat
  | .array => 1
  | _ => 0

/-- The operator encodes exactly one value. -/
def isScalar : Operator → Bool
  | .array => false
  | .blob => false
  | _ => true

/-- How many bits an operator takes for a value, if it can encode the value. Fixed fields carry at
most 32 bits, however wide they are. -/
def scalarBits (operator : Operator) (value : UInt64) : Option Nat :=
  match operator with
  | .literal constant => if constant = value then some 0 else none
  | .fixed width =>
      if width = 0 then (if value = 0 then some 0 else none)
      else if UInt32.size ≤ value.toNat ∨ (width < 64 ∧ 1 <<< width.toNat ≤ value.toNat) then none
      else some width.toNat
  | .vbr width =>
      if width = 0 then (if value = 0 then some 0 else none)
      else some (Vbr.bitSize value width.toNat)
  | .char6 => (Char6.encode? value).map fun _ => 6
  | .array => none
  | .blob => none

/-- The place of an operator's kind in the order of operators. -/
def rank : Operator → Nat
  | .literal _ => 0
  | .fixed _ => 1
  | .vbr _ => 2
  | .array => 3
  | .char6 => 4
  | .blob => 5

/-- The number that an operator carries. -/
def payload : Operator → UInt64
  | .literal value => value
  | .fixed width => width
  | .vbr width => width
  | _ => 0

/-- Operators are ordered by kind, then by the number they carry. -/
def compare (first second : Operator) : Ordering :=
  (Ord.compare first.rank second.rank).then (Ord.compare first.payload second.payload)

/-- The text of an operator by itself. -/
def text : Operator → String
  | .literal value => toString value
  | .fixed width => s!"Fixed({width})"
  | .vbr width => s!"VBR({width})"
  | .array => "Array"
  | .char6 => "Char6"
  | .blob => "Blob"

end Operator

end Bitcode
