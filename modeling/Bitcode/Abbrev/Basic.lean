import Bitcode.Abbrev.Operator

/-!
Abbreviations: lists of operators that describe the records of one shape. The first value that an
abbreviation encodes is the code of the record.
-/

namespace Bitcode

open Bits

/-- An abbreviation. -/
structure Abbrev where
  operators : List Operator
  deriving DecidableEq, Repr, Inhabited

namespace Abbrev

/-- The texts of operators, each array around the text of its element. -/
def expressions : List Operator → List String
  | [] => []
  | .array :: rest =>
      match expressions rest with
      | [] => ["Array()"]
      | element :: others => ("Array(" ++ element ++ ")") :: others
  | operator :: rest => operator.text :: expressions rest

/-- The text of an abbreviation. -/
def text (shape : Abbrev) : String :=
  "[" ++ ", ".intercalate (expressions shape.operators) ++ "]"

/-- Compare operator lists position by position. -/
def compareOperators : List Operator → List Operator → Ordering
  | [], [] => .eq
  | [], _ :: _ => .lt
  | _ :: _, [] => .gt
  | first :: rest, second :: others =>
      (first.compare second).then (compareOperators rest others)

/-- Shorter abbreviations come first; those of one length are ordered by their operators. -/
def compare (first second : Abbrev) : Ordering :=
  (Ord.compare first.operators.length second.operators.length).then
    (compareOperators first.operators second.operators)

/-- An operator that stands for any number of values. -/
def isOpen (operator : Operator) : Bool :=
  !operator.isScalar

/-- Every record of the abbreviation has the same number of values. -/
def isFixedSize (shape : Abbrev) : Bool :=
  !shape.operators.any isOpen

/-- The fewest values that a record of the abbreviation can have. -/
def minRecordSize (shape : Abbrev) : Nat :=
  shape.operators.findIdx isOpen

/-- Arrays stand only in the second place from the end. -/
def arraysAtEnd : List Operator → Bool
  | [] => true
  | operator :: rest => (operator != .array || rest.length == 1) && arraysAtEnd rest

/-- An abbreviation whose arrays have exactly one operator after them. -/
def isValid (shape : Abbrev) : Bool :=
  arraysAtEnd shape.operators

/-- Fold operators into arrays from left to right. The operators already passed stand in reverse
order, and those that repeat the element of an array right after them are dropped. -/
def foldIntoArrays (passed : List Operator) : List Operator → List Operator
  | [] => passed.reverse
  | .array :: element :: rest =>
      foldIntoArrays (.array :: passed.dropWhile (· == element)) (element :: rest)
  | operator :: rest => foldIntoArrays (operator :: passed) rest

/-- The abbreviation with every operator that an array can stand for folded into the array. -/
def simplify (shape : Abbrev) : Abbrev :=
  ⟨foldIntoArrays [] shape.operators⟩

/-- The bits of several values under one operator. -/
def elementBits (element : Operator) : List UInt64 → Option Nat
  | [] => some 0
  | value :: rest => do
      let bits ← element.scalarBits value
      let more ← elementBits element rest
      return bits + more

/-- The bits of a record's values under a list of operators, if they can be encoded without a blob. -/
def operatorBits : List Operator → List UInt64 → Option Nat
  | [], [] => some 0
  | [], _ :: _ => none
  | [.array], _ => none
  | .array :: element :: rest, values => do
      let bits ← elementBits element values
      let more ← operatorBits rest []
      return Vbr.bitSize (UInt64.ofNat values.length) 6 + bits + more
  | .blob :: _, _ => none
  | _ :: _, [] => none
  | operator :: rest, value :: values => do
      let bits ← operator.scalarBits value
      let more ← operatorBits rest values
      return bits + more

/-- The bits of a record's values, if the abbreviation can encode them. The size of a blob hangs on
where it stands in the stream, so an abbreviation with a blob has none. -/
def encodedBits (shape : Abbrev) (values : List UInt64) : Option Nat :=
  operatorBits shape.operators values

/-- The operators before a blob at the end. -/
def beforeBlob? (shape : Abbrev) : Option (List Operator) :=
  if shape.operators.getLast? = some .blob then some shape.operators.dropLast else none

/-- The abbreviation can encode a record's values. -/
def canEncode (shape : Abbrev) (values : List UInt64) : Bool :=
  match shape.beforeBlob? with
  | some head =>
      head.length ≤ values.length &&
        (operatorBits head (values.take head.length)).isSome &&
        (values.drop head.length).all (· ≤ 0xff)
  | none => (shape.encodedBits values).isSome

end Abbrev

end Bitcode
