import Bitcode.Header
import Bitcode.Table.Basic

/-!
Unrolled files: the tree of blocks and records, where every record knows the row of the
abbreviation that it was read with.
-/

namespace Bitcode.Tree

/-- A record of an unrolled file. -/
structure Record where
  code : UInt64
  fields : List UInt64
  /-- The row, in the table of its block, of the abbreviation that it was read with. -/
  row : Nat
  /-- How many bits it took. -/
  bits : Nat
  deriving DecidableEq, Repr

namespace Record

/-- The record was read with an abbreviation. -/
def usedAbbrev (record : Record) : Bool :=
  record.row != plainRow

/-- The code, and then the fields. -/
def values (record : Record) : List UInt64 :=
  record.code :: record.fields

end Record

/-- What stands in a block, in order. -/
inductive Body where
  | empty
  | record (record : Record) (rest : Body)
  | block (id : UInt64) (bits : Nat) (body rest : Body)
  deriving DecidableEq, Repr, Inhabited

/-- A block. -/
structure Block where
  id : UInt64
  /-- The size of its body in bits. -/
  bits : Nat
  body : Body
  deriving DecidableEq, Repr

namespace Body

/-- The entries in reverse order, in front of others. -/
def reverseOnto : Body → Body → Body
  | .empty, others => others
  | .record item rest, others => rest.reverseOnto (.record item others)
  | .block id bits body rest, others => rest.reverseOnto (.block id bits body others)

/-- The entries in reverse order. -/
def reverse (body : Body) : Body :=
  body.reverseOnto .empty

/-- The records that stand directly in a body. -/
def records : Body → List Record
  | .empty => []
  | .record item rest => item :: rest.records
  | .block _ _ _ rest => rest.records

/-- The size of the blocks that stand directly in a body. -/
def nestedBits : Body → Nat
  | .empty => 0
  | .record _ rest => rest.nestedBits
  | .block _ bits _ rest => bits + rest.nestedBits

/-- The blocks inside a body at every depth, each before the blocks inside it. -/
def blocks : Body → List Block
  | .empty => []
  | .record _ rest => rest.blocks
  | .block id bits body rest => ⟨id, bits, body⟩ :: (body.blocks ++ rest.blocks)

end Body

/-- The size of a block without the blocks inside it. -/
def Block.localBits (block : Block) : Nat :=
  block.bits - block.body.nestedBits

/-- The events of a file in stream order. -/
inductive Event where
  | enter (id : UInt64) (bits localBits : Nat)
  | record (record : Record)
  | exit
  deriving DecidableEq, Repr

/-- The events of a body, in front of others. -/
def Body.eventsOnto : Body → List Event → List Event
  | .empty, others => others
  | .record item rest, others => .record item :: rest.eventsOnto others
  | .block id bits body rest, others =>
      .enter id bits (bits - body.nestedBits) ::
        body.eventsOnto (.exit :: rest.eventsOnto others)

/-- The events of a block, in front of others. -/
def Block.eventsOnto (block : Block) (others : List Event) : List Event :=
  .enter block.id block.bits block.localBits :: block.body.eventsOnto (.exit :: others)

/-- An unrolled file. -/
structure File where
  header : Header
  blocks : List Block
  deriving DecidableEq, Repr

namespace File

/-- The events of a file. -/
def events (file : File) : List Event :=
  file.blocks.foldr Block.eventsOnto []

/-- All blocks at every depth, each before the blocks inside it. -/
def allBlocks (file : File) : List Block :=
  file.blocks.flatMap fun block => block :: block.body.blocks

end File

end Bitcode.Tree
