import Bitcode.Table.Basic

/-!
The cheapest way to write a record: the bits that a record takes without an abbreviation and with
each row of a table.
-/

namespace Bitcode.Selection

open Bits

/-- The bits of a record without an abbreviation, its abbreviation id apart. -/
def plainBits : List UInt64 → Nat
  | [] => 0
  | code :: fields =>
      Vbr.bitSize code 6 + Vbr.bitSize (UInt64.ofNat fields.length) 6 +
        fields.foldr (fun field total => Vbr.bitSize field 6 + total) 0

/-- The bits that a blob takes, with half a word to fill up to word boundaries. -/
def blobBits (length : Nat) : Nat :=
  Vbr.bitSize (UInt64.ofNat length) 6 + 8 * length + 16

/-- The bits of a record under an abbreviation, if that can encode it. -/
def price? (shape : Abbrev) (values : List UInt64) : Option Nat :=
  match shape.encodedBits values with
  | some bits => some bits
  | none =>
      if shape.canEncode values then
        let head := shape.operators.dropLast
        (Abbrev.operatorBits head (values.take head.length)).map
          (· + blobBits (values.length - head.length))
      else none

/-- The better of the best row so far and another row, both priced: the cheaper one, of equally
cheap ones a synthesized one, and else the one so far. -/
def better (table : Table) (best : Option (Nat × Nat)) (bits row : Nat) : Option (Nat × Nat) :=
  match best with
  | none => some (bits, row)
  | some (bestBits, bestRow) =>
      if bits < bestBits ∨
          (bits = bestBits ∧ table.isSynthesized row ∧ !table.isSynthesized bestRow) then
        some (bits, row)
      else some (bestBits, bestRow)

/-- The best of some rows for a record, with its price. -/
def bestRow? (table : Table) (values : List UInt64) (rows : List Nat) : Option (Nat × Nat) :=
  rows.foldl
    (fun best row =>
      match (table.get? row).bind (price? · values) with
      | some bits => better table best bits row
      | none => best) none

/-- The row to write a record with, the plain one if no abbreviation is as cheap. -/
def selectRow (table : Table) (values : List UInt64) : Nat :=
  match table.candidates? values with
  | none => plainRow
  | some node =>
      match bestRow? table values node.rows with
      | some (bits, row) => if bits ≤ plainBits values then row else plainRow
      | none => plainRow

end Bitcode.Selection
