/-!
Ranges of values. Small values are counted one by one, and larger ones in a few ranges.
-/

namespace Bitcode.Census

/-- Values below this are ranges of their own. -/
def singletonCutoff : Nat := 64

/-- Where the ranges of larger values end. -/
def rangeCutoffs : List Nat :=
  [1 <<< 8, 1 <<< 12, 1 <<< 16, 1 <<< 24, 1 <<< 32]

/-- The index of the range that holds a value. -/
def rangeIndex (value : UInt64) : UInt64 :=
  if value.toNat < singletonCutoff then value
  else UInt64.ofNat (singletonCutoff + rangeCutoffs.findIdx (value.toNat < ·))

/-- The least and the greatest value of a range. Every index past the last names the last range. -/
def valueRange (index : UInt64) : UInt64 × UInt64 :=
  if index.toNat < singletonCutoff then (index, index)
  else
    let bucket := index.toNat - singletonCutoff
    let least := if bucket = 0 then singletonCutoff else rangeCutoffs.getD (bucket - 1) (1 <<< 32)
    let greatest := rangeCutoffs.getD bucket UInt64.size - 1
    (UInt64.ofNat least, UInt64.ofNat greatest)

end Bitcode.Census
