import Bitcode.Census.Tally

/-!
The cheapest encoding of the values that were counted at a field.
-/

namespace Bitcode.Synthesis

open Census (ValueTally valueRange)

/-- The bits that an operator takes for all counted values, each taken as the greatest of its range. -/
def encodingCost (operator : Operator) : List (UInt64 × ValueTally) → Option Nat
  | [] => some 0
  | (range, tally) :: rest => do
      let bits ← operator.scalarBits (valueRange range).2
      let more ← encodingCost operator rest
      return bits * tally.count + more

/-- The greatest value of the ranges that were counted. -/
def greatestValue? (values : Census ValueTally) : Option Nat :=
  (values.elements.map fun (range, _) => (valueRange range).2.toNat).max?

/-- The encodings that can take the place of another, for values up to a greatest one. -/
def alternatives (greatest : Nat) : List Operator :=
  .fixed (UInt64.ofNat (max (Format.bitLength greatest) 1)) ::
    (List.range 31).map fun width => .vbr (UInt64.ofNat (width + 2))

/-- The cheaper of two priced operators, and of equally cheap ones the first in their order. -/
def cheaper (first second : Nat × Operator) : Nat × Operator :=
  if ((Ord.compare second.1 first.1).then (second.2.compare first.2)) = .lt then second else first

/-- The cheapest of priced operators. -/
def cheapest? : List (Nat × Operator) → Option (Nat × Operator)
  | [] => none
  | first :: rest => some (rest.foldl cheaper first)

/-- A cheaper encoding for the counted values, if there is one for a field of this kind. -/
def narrow? (operator : Operator) (values : Census ValueTally) : Option Operator := do
  guard (operator.rank = 1 ∨ operator.rank = 2)
  let current ← encodingCost operator values.elements
  let greatest ← greatestValue? values
  let priced := (alternatives greatest).filterMap fun candidate =>
    (encodingCost candidate values.elements).map fun cost => (cost, candidate)
  let (cost, candidate) ← cheapest? priced
  guard (cost < current ∧ candidate ≠ operator)
  return candidate

end Bitcode.Synthesis
