import Bitcode.Keyed
import Bitcode.Lookup.Trie

/-!
One trie for each number of values that a record can have. All records with more than seven values
share one trie.
-/

namespace Bitcode.Lookup

/-- How many values of a record are looked at one by one, its code included. -/
def maxKey : Nat := 7

/-- The key of the trie for records with the given number of values. -/
def keyFor (valueCount : Nat) : Nat :=
  min valueCount maxKey

/-- The keys of the tries that an abbreviation belongs to. -/
def keysOf (shape : Abbrev) : List Nat :=
  let least := keyFor shape.minRecordSize
  let greatest := if shape.isFixedSize then least else maxKey
  (List.range (greatest + 1)).drop least

/-- Tries under ascending keys. -/
structure Index where
  tries : List (Nat × Trie) := []
  deriving DecidableEq, Repr, Inhabited

namespace Index

/-- The number of nodes of all tries. -/
def size (index : Index) : Nat :=
  index.tries.foldr (fun (_, trie) total => trie.size + total) 0

/-- The keys in ascending order. -/
def keys (index : Index) : List Nat :=
  index.tries.map (·.1)

/-- The trie with a key. -/
def get? (index : Index) (key : Nat) : Option Trie :=
  index.tries.lookup key

/-- Change the tries that an abbreviation belongs to. -/
def modify (index : Index) (shape : Abbrev) (change : Trie → Trie) : Index :=
  { tries := (keysOf shape).foldl
      (fun tries key => Keyed.updateSorted key {} change tries) index.tries }

/-- Add the nodes that an abbreviation calls for. -/
def add (index : Index) (shape : Abbrev) : Index :=
  index.modify shape (·.add shape)

/-- Add the nodes that each abbreviation calls for, one after the other. -/
def addAll (shapes : List Abbrev) (index : Index) : Index :=
  shapes.foldl add index

/-- Extend the trie with a key, from the empty trie on if there is none yet, and tell whether there
was a new node so far. -/
def extendAt (shape : Abbrev) (state : Index × Bool) (key : Nat) : Index × Bool :=
  let root := state.1.get? key
  let (edges, more) := (root.getD {}).edges.extend shape 0 0 (Nat.le_refl _)
  ({ tries := Keyed.updateSorted key {} ({ · with edges }) state.1.tries },
    state.2 || (root.isNone || more))

/-- Extend the tries that an abbreviation belongs to. -/
def extend (shape : Abbrev) (state : Index × Bool) : Index × Bool :=
  (keysOf shape).foldl (extendAt shape) state

/-- One round: extend the tries for each abbreviation, and tell whether there was a new node. -/
def extendAll (shapes : List Abbrev) (index : Index) : Index × Bool :=
  shapes.foldl (fun state shape => extend shape state) (index, false)

/-- Repeat the additions until one round adds no node, at most the given number of times. -/
def complete (shapes : List Abbrev) : Nat → Index → Index
  | 0, index => index
  | rounds + 1, index =>
      let next := addAll shapes index
      if next.size = index.size then next else complete shapes rounds next

/-- How many rounds of additions are enough: a node at some depth is there after as many rounds,
and no node lies deeper than the constants of an abbreviation reach. -/
def roundBound (shapes : List Abbrev) : Nat :=
  (shapes.map Abbrev.minRecordSize).foldl max 0 + 1

/-- The tries of abbreviations, each given with its row. -/
def build (numbered : List (Nat × Abbrev)) : Index :=
  let shapes := numbered.map (·.2)
  numbered.foldl (fun index (row, shape) => index.modify shape (·.insert row shape))
    (complete shapes (roundBound shapes) {})

/-- The tries of the abbreviations from a row on. -/
def ofRows (abbrevs : List Abbrev) (first : Nat) : Index :=
  build ((abbrevs.zipIdx.drop first).map fun (shape, row) => (row, shape))

/-- The node that the values of a record lead to. -/
def follow? (index : Index) (values : List UInt64) : Option Trie :=
  (index.get? (keyFor values.length)).map (·.follow values)

/-- The lines for the tries with their keys, with a line between every two. -/
def triesText (index : Index) (abbrevs : List Abbrev) : String :=
  "-----\n".intercalate
    (index.tries.map fun (key, trie) => s!"Index {key}:\n" ++ trie.text "  " abbrevs)

/-- The report on the tries of a block. -/
def text (index : Index) (block : UInt64) (abbrevs : List Abbrev) : String :=
  "------------------------------\n" ++ s!"Block {block} abbreviation tries:\n" ++
    index.triesText abbrevs ++ "------------------------------\n"

end Index

end Bitcode.Lookup
