import Bitcode.Keyed
import Bitcode.Number.Double

/-!
Distributions: tallies under ascending keys, their ranking by importance, and their report.
-/

namespace Bitcode

/-- Text filled up with blanks on the left. -/
def alignRight (width : Nat) (text : String) : String :=
  "".pushn ' ' (width - text.length) ++ text

/-- Tallies under ascending keys. -/
structure Census (ε : Type) where
  elements : List (UInt64 × ε) := []
  /-- How many items were counted. -/
  total : Nat := 0
  /-- The ranking that was last asked for, kept until an item is counted. -/
  ranking? : Option (List (Double × UInt64)) := none
  deriving DecidableEq, Repr, Inhabited

namespace Census

variable {ε : Type}

/-- Count an item under each of its keys. An item without keys is not counted. -/
def add (census : Census ε) (keys : List UInt64) (fresh : ε) (count : UInt64 → ε → ε) :
    Census ε :=
  if keys.isEmpty then census
  else
    { elements := keys.foldl
        (fun elements key => Keyed.updateSorted key fresh (count key) elements) census.elements
      total := census.total + 1 }

/-- The tally under a key. -/
def get? (census : Census ε) (key : UInt64) : Option ε :=
  census.elements.lookup key

/-- The tallies of some importance, the most important first. Equally important tallies stay in the
order of their keys. -/
def ranked (importance : UInt64 → ε → Double) (census : Census ε) :
    List (Double × UInt64 × ε) :=
  let weighed := census.elements.map fun (key, tally) => (importance key tally, key, tally)
  (weighed.filter fun (weight, _) => weight ≠ Double.zero).mergeSort
    fun (first, _) (second, _) => second.units ≤ first.units

/-- The importances and keys of the ranked tallies. -/
def ranking (importance : UInt64 → ε → Double) (census : Census ε) : List (Double × UInt64) :=
  (census.ranked importance).map fun (weight, key, _) => (weight, key)

/-- Ask for the ranking. It is worked out only if none is kept, and kept from then on. -/
def sorted (importance : UInt64 → ε → Double) (census : Census ε) :
    List (Double × UInt64) × Census ε :=
  let ranking := census.ranking?.getD (census.ranking importance)
  (ranking, { census with ranking? := some ranking })

/-- Ask for the keys of the ranking along with their tallies. -/
def sortedElements (importance : UInt64 → ε → Double) (census : Census ε) :
    List (UInt64 × ε) × Census ε :=
  let (ranking, next) := census.sorted importance
  (ranking.filterMap fun (_, key) => (next.get? key).map (key, ·), next)

/-- How a distribution is ranked and reported. -/
structure Layout (ε : Type) where
  title : String
  /-- The header of the columns with numbers. -/
  statsHeader : String
  /-- The header of the column with the key. -/
  valueHeader : String
  importance : UInt64 → ε → Double
  /-- The columns with numbers. -/
  stats : Census ε → ε → String
  /-- The column with the key. -/
  value : UInt64 → String
  /-- The distributions inside a tally, after an indentation. -/
  nested : String → UInt64 → ε → String

/-- The header line of a distribution. -/
def headerLine (layout : Layout ε) (indent : String) : String :=
  indent ++ layout.statsHeader ++ " " ++ layout.valueHeader ++ "\n"

/-- The lines for ranked tallies. After a tally with lines of its own the header is repeated. -/
def tallyLines (layout : Layout ε) (indent : String) (census : Census ε) :
    Bool → List (Double × UInt64 × ε) → List String
  | _, [] => []
  | repeated, (_, key, tally) :: rest =>
      let continued :=
        if repeated then
          indent ++ "  " ++ layout.title ++ " (continued)\n" ++ headerLine layout indent
        else ""
      let nested := layout.nested indent key tally
      (continued ++ indent ++ layout.stats census tally ++ " " ++ layout.value key ++ "\n" ++
        nested) :: tallyLines layout indent census (!nested.isEmpty) rest

/-- The report on a distribution. -/
def text (layout : Layout ε) (indent : String) (census : Census ε) : String :=
  indent ++ layout.title ++ s!" ({census.elements.length} elements):\n\n" ++
    headerLine layout indent ++
    String.join (tallyLines layout indent census false (census.ranked layout.importance))

/-- The report on a distribution inside a tally, empty if nothing was counted. -/
def nestedText (layout : Layout ε) (indent : String) (census : Census ε) : String :=
  if census.elements.isEmpty then ""
  else "\n" ++ text layout (indent ++ "    ") census ++ "\n"

/-- The columns for a count and its share. -/
def countStats (count total : Nat) : String :=
  alignRight 8 (toString count) ++ " " ++
    alignRight 6 (Double.percent (.ofNat count) (.ofNat total)).text

/-- The columns for bits and their share per item. -/
def bitStats (bits count : Nat) : String :=
  " " ++ alignRight 9 (toString bits) ++ " " ++
    alignRight 12 ((Double.ofNat bits).div (.ofNat (max count 1))).text

end Census

end Bitcode
