import Bitcode.Abbrev.Basic

/-!
What a bitstream consists of, as its reader reports it: blocks, records and definitions.
-/

namespace Bitcode.Bitstream

/-- A record of a stream. -/
structure Record where
  /-- The abbreviation id, if the record was read with an abbreviation. -/
  id : Option UInt64
  code : UInt64
  fields : List UInt64
  /-- How many bits the record took, with its abbreviation id. -/
  bits : Nat := 0
  deriving DecidableEq, Repr

namespace Record

/-- The record that an abbreviation read. Its code is the first value. -/
def ofValues? (id : UInt64) : List UInt64 → Option Record
  | [] => none
  | code :: fields => some { id := some id, code, fields }

/-- The code, and then the fields. -/
def values (record : Record) : List UInt64 :=
  record.code :: record.fields

/-- The text of a record. -/
def text (record : Record) : String :=
  "[" ++ ", ".intercalate (record.values.map toString) ++ "]"

end Record

/-- An entry of a stream. Block 0 is no entry, but the abbreviations that it defines are. -/
inductive Entry where
  | endBlock
  /-- The start of a block, with the size of its body in bytes. -/
  | block (id : UInt64) (size : Nat)
  | record (record : Record)
  /-- An abbreviation, defined in the block itself or for all blocks with an id. -/
  | definition (block : UInt64) (shape : Abbrev) (isLocal : Bool)
  deriving DecidableEq, Repr

/-- The abbreviations that block 0 defines for other blocks, in the order of their definition. -/
structure Shared where
  definitions : List (UInt64 × Abbrev) := []
  deriving DecidableEq, Repr

namespace Shared

/-- The abbreviations for blocks with an id. -/
def forBlock (shared : Shared) (block : UInt64) : List Abbrev :=
  (shared.definitions.filter fun definition => definition.1 = block).map (·.2)

/-- Add an abbreviation for blocks with an id. -/
def add (shared : Shared) (block : UInt64) (shape : Abbrev) : Shared :=
  { definitions := shared.definitions ++ [(block, shape)] }

end Shared

/-- The abbreviation with an id, where the first one defined has id 4. -/
def abbrevWithId? (abbrevs : List Abbrev) (id : UInt64) : Option Abbrev :=
  if id.toNat < Format.firstDefinedId then none else abbrevs[id.toNat - Format.firstDefinedId]?

end Bitcode.Bitstream
