import Bitcode.Abbrev.Basic

/-!
Abbreviations spread out to records of one size, with one operator for each value.
-/

namespace Bitcode.Synthesis

/-- An abbreviation with one operator for each value of a record. -/
structure Spread where
  code : Operator
  fields : List Operator
  /-- The operators past the size, where records may be longer. -/
  rest : List Operator := []
  deriving DecidableEq, Repr

/-- The operators of the given number of values, and those that are left. An array gives its element
again and again. -/
def takeOperators : Nat → List Operator → Option (List Operator × List Operator)
  | 0, operators => some ([], operators)
  | _ + 1, [] => none
  | _ + 1, [.array] => none
  | count + 1, .array :: element :: rest => do
      let (taken, left) ← takeOperators count (.array :: element :: rest)
      return (element :: taken, left)
  | _ + 1, .blob :: _ => none
  | count + 1, operator :: rest => do
      let (taken, left) ← takeOperators count rest
      return (operator :: taken, left)

namespace Spread

/-- Spread an abbreviation out to records of `size` values, or more if the size is open, if it
describes such records. -/
def ofAbbrev? (shape : Abbrev) (size : Nat) (isOpen : Bool) : Option Spread :=
  match takeOperators size shape.operators with
  | none => none
  | some ([], _) => none
  | some (code :: fields, left) =>
      if isOpen then some { code, fields, rest := left }
      else if left.isEmpty ∨ left.head? = some .array then some { code, fields }
      else none

/-- The simplified abbreviation for the operators. -/
def restore (spread : Spread) : Abbrev :=
  Abbrev.simplify ⟨spread.code :: spread.fields ++ spread.rest⟩

end Spread

end Bitcode.Synthesis
