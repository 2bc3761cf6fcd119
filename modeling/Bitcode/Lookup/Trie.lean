import Bitcode.Abbrev.Basic

/-!
Tries over the constants of abbreviations. An edge stands for a value that a record has at a
position, and a node holds the rows of a table that may encode the records that end there. Along
every path the positions ascend.
-/

namespace Bitcode.Lookup

/-- The edges below a node, ascending by position and value, each with the rows and the edges of
the node that it leads to. -/
inductive Forest where
  | nil
  | edge (position : Nat) (value : UInt64) (rows : List Nat) (below others : Forest)
  deriving DecidableEq, Repr, Inhabited

namespace Forest

/-- How many nodes the edges lead to, at all depths. -/
def size : Forest → Nat
  | .nil => 0
  | .edge _ _ _ below others => 1 + below.size + others.size

/-- A single path along constants. -/
def path : List (Nat × UInt64) → Forest
  | [] => .nil
  | (position, value) :: rest => .edge position value [] (path rest) .nil

/-- Add the nodes that constants, ascending by position, call for. A record can pass any edge at an
earlier position, so the constants are added below each of those. -/
def add : Forest → List (Nat × UInt64) → Forest
  | forest, [] => forest
  | .nil, literals => path literals
  | .edge position value rows below others, (next, constant) :: rest =>
      if position < next then
        .edge position value rows (below.add ((next, constant) :: rest))
          (others.add ((next, constant) :: rest))
      else if position = next ∧ value = constant then
        .edge position value rows (below.add rest) others
      else if position = next ∧ value < constant then
        .edge position value rows below (others.add ((next, constant) :: rest))
      else .edge next constant [] (path rest) (.edge position value rows below others)

/-- The rows and the edges of the node that an edge leads to. -/
def successor? (position : Nat) (value : UInt64) : Forest → Option (List Nat × Forest)
  | .nil => none
  | .edge otherPosition otherValue rows below others =>
      if otherPosition = position ∧ otherValue = value then some (rows, below)
      else others.successor? position value

end Forest

/-- A trie: the rows and the edges of its root. -/
structure Trie where
  rows : List Nat := []
  edges : Forest := .nil
  deriving DecidableEq, Repr, Inhabited

/-- What an abbreviation demands of the value at a position. -/
inductive Demand where
  /-- The value is a constant of the abbreviation. -/
  | constant (value : UInt64)
  /-- The abbreviation may encode any value there. -/
  | any
  /-- The abbreviation encodes no value there. -/
  | absent
  deriving DecidableEq, Repr

/-- What an abbreviation demands of the value at a position. -/
def demand (shape : Abbrev) (position : Nat) : Demand :=
  if position < shape.minRecordSize then
    match shape.operators[position]? with
    | some (.literal value) => .constant value
    | _ => .any
  else if shape.isFixedSize then .absent
  else .any

/-- The constants among operators before the first one that stands for any number of values, with
their positions. -/
def literalsFrom (position : Nat) : List Operator → List (Nat × UInt64)
  | [] => []
  | .array :: _ => []
  | .blob :: _ => []
  | .literal value :: rest => (position, value) :: literalsFrom (position + 1) rest
  | _ :: rest => literalsFrom (position + 1) rest

/-- The constants of an abbreviation, with their positions. -/
def literals (shape : Abbrev) : List (Nat × UInt64) :=
  literalsFrom 0 shape.operators

/-- The first constant of an abbreviation from a position on. -/
def nextLiteral? (shape : Abbrev) (index : Nat) : Option (Nat × UInt64) :=
  if index < shape.minRecordSize then
    match shape.operators[index]? with
    | some (.literal value) => some (index, value)
    | _ => nextLiteral? shape (index + 1)
  else none
termination_by shape.minRecordSize - index

theorem le_of_nextLiteral? {shape : Abbrev} {index next : Nat} {value : UInt64}
    (hnext : nextLiteral? shape index = some (next, value)) : index ≤ next := by
  fun_induction nextLiteral? shape index with
  | case1 index _ _ _ => exact Nat.le_of_eq (Prod.mk.inj (Option.some.inj hnext)).1
  | case2 index _ _ ih => exact Nat.le_of_succ_le (ih hnext)
  | case3 => cases hnext

/-- Set the node that an edge leads to, with a new edge if there is none yet. -/
def Forest.put (position : Nat) (value : UInt64) (node : List Nat × Forest) : Forest → Forest
  | .nil => .edge position value node.1 node.2 .nil
  | .edge otherPosition otherValue rows below others =>
      if otherPosition < position ∨ otherPosition = position ∧ otherValue < value then
        .edge otherPosition otherValue rows below (others.put position value node)
      else if otherPosition = position ∧ otherValue = value then
        .edge position value node.1 node.2 others
      else .edge position value node.1 node.2 (.edge otherPosition otherValue rows below others)

mutual

/-- Add the nodes that the constants of an abbreviation from the position `index` on call for, and
tell whether there was a new one. The edges from `skip` up to `index` are passed first. Then the
search for the next constant goes on: one at `index` has its node here, and for a later one the same
node is extended again, to pass the edges up to that constant. -/
def Forest.extend (shape : Abbrev) (index skip : Nat) (hskip : skip ≤ index) (node : Forest) :
    Forest × Bool :=
  if shape.operators.length ≤ index then (node, false)
  else
    let (passed, grown) := node.extendBelow shape index skip hskip
    match hnext : nextLiteral? shape index with
    | none => (passed, grown)
    | some (next, value) =>
        if next = index then
          match passed.successor? next value with
          | some (rows, below) =>
              let (deeper, more) := below.extend shape (next + 1) (next + 1) (Nat.le_refl _)
              (passed.put next value (rows, deeper), grown || more)
          | none =>
              let (deeper, _) := Forest.nil.extend shape (next + 1) (next + 1) (Nat.le_refl _)
              (passed.put next value ([], deeper), true)
        else
          let (again, more) := passed.extend shape next index (le_of_nextLiteral? hnext)
          (again, grown || more)
termination_by (shape.operators.length - index, sizeOf node, 1)
decreasing_by
  · exact Prod.Lex.right _ (Prod.Lex.right _ Nat.zero_lt_one)
  all_goals
    have hle := le_of_nextLiteral? hnext
    exact Prod.Lex.left _ _ (by omega)

/-- Extend the nodes below the edges at positions from `skip` up to `index`. -/
def Forest.extendBelow (shape : Abbrev) (index skip : Nat) (hskip : skip ≤ index) (node : Forest) :
    Forest × Bool :=
  match node with
  | .nil => (.nil, false)
  | .edge position value rows below others =>
      let (others', more) := others.extendBelow shape index skip hskip
      if hposition : skip ≤ position ∧ position < index then
        let (below', deeper) := below.extend shape index (position + 1) hposition.2
        (.edge position value rows below' others', deeper || more)
      else (.edge position value rows below others', more)
termination_by (shape.operators.length - index, sizeOf node, 0)
decreasing_by
  all_goals
    refine Prod.Lex.right _ (Prod.Lex.left _ _ ?_)
    rw [Forest.edge.sizeOf_spec]
    omega

end

/-- Record a row at the nodes below where a record of its abbreviation can end. The answer also
tells whether every such record leaves the node above along an edge. -/
def Forest.insert (row : Nat) (shape : Abbrev) : Forest → Forest × Bool
  | .nil => (.nil, false)
  | .edge position value rows below others =>
      let (deeper, leaves) := below.insert row shape
      let rows' := if leaves then rows else rows ++ [row]
      match demand shape position with
      | .constant constant =>
          if value = constant then (.edge position value rows' deeper others, true)
          else
            let (others', left) := others.insert row shape
            (.edge position value rows below others', left)
      | .any =>
          let (others', left) := others.insert row shape
          (.edge position value rows' deeper others', left)
      | .absent =>
          let (others', left) := others.insert row shape
          (.edge position value rows below others', left)

/-- Follow a record's values down the edges, from a node on. -/
def Forest.follow (values : List UInt64) (here : Trie) : Forest → Trie
  | .nil => here
  | .edge position value rows below others =>
      match values[position]? with
      | none => here
      | some found =>
          if found = value then below.follow values { rows, edges := below }
          else others.follow values here

namespace Trie

/-- The number of nodes. -/
def size (trie : Trie) : Nat :=
  1 + trie.edges.size

/-- Add the nodes that an abbreviation calls for. -/
def add (trie : Trie) (shape : Abbrev) : Trie :=
  { trie with edges := trie.edges.add (literals shape) }

/-- Record a row at every node where a record of its abbreviation can end. -/
def insert (trie : Trie) (row : Nat) (shape : Abbrev) : Trie :=
  let (edges, left) := trie.edges.insert row shape
  { rows := if left then trie.rows else trie.rows ++ [row], edges }

/-- The deepest node that a record's values lead to. -/
def follow (trie : Trie) (values : List UInt64) : Trie :=
  trie.edges.follow values trie

/-- The node that an edge of the root leads to. -/
def successor? (trie : Trie) (position : Nat) (value : UInt64) : Option Trie :=
  (trie.edges.successor? position value).map fun (rows, edges) => { rows, edges }

end Trie

/-! Texts of tries. -/

/-- The lines for the rows of a node. -/
def rowLines (indent : String) (abbrevs : List Abbrev) (rows : List Nat) : String :=
  if rows.isEmpty then ""
  else
    indent ++ "Abbreviations:\n" ++
      String.join (rows.map fun row =>
        let name :=
          match abbrevs[row]? with
          | some shape => shape.text
          | none => "?"
        indent ++ "  " ++ name ++ s!" (abbrev #{row})\n")

/-- The line for an edge. -/
def edgeLine (indent : String) (position : Nat) (value : UInt64) : String :=
  if position = 0 then indent ++ s!"  Record.Code = {value}\n"
  else indent ++ s!"  Record.Values[{position - 1}] = {value}\n"

/-- The line above the edges of a node, if it has any. -/
def edgesTitle (indent : String) : Forest → String
  | .nil => ""
  | .edge .. => indent ++ "Successor Map:\n"

/-- The lines for edges and the nodes below them. -/
def Forest.text (abbrevs : List Abbrev) (indent : String) : Forest → String
  | .nil => ""
  | .edge position value rows below others =>
      let inner := indent ++ "    "
      edgeLine indent position value ++ rowLines inner abbrevs rows ++ edgesTitle inner below ++
        below.text abbrevs inner ++ others.text abbrevs indent

/-- The lines for a node alone. -/
def Trie.localText (trie : Trie) (indent : String) (abbrevs : List Abbrev) : String :=
  rowLines indent abbrevs trie.rows

/-- The lines for a node and everything below it. -/
def Trie.text (trie : Trie) (indent : String) (abbrevs : List Abbrev) : String :=
  rowLines indent abbrevs trie.rows ++ edgesTitle indent trie.edges ++
    trie.edges.text abbrevs indent

end Bitcode.Lookup
