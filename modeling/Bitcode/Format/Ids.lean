/-!
The numbers that the container format assigns: abbreviation ids, block ids, operator encodings and
the record codes of block 0.
-/

namespace Bitcode.Format

/-- The width of abbreviation ids outside of any block, and in block 0. -/
def initialIdWidth : Nat := 2

/-- Abbreviation ids from this one on are defined by a stream. -/
def firstDefinedId : Nat := 4

/-- The largest abbreviation id where nothing has been defined. -/
def lastReservedId : Nat := 3

/-- How many bits a number takes, none for zero. -/
def bitLength (value : Nat) : Nat :=
  if value = 0 then 0 else value.log2 + 1

/-- The width of abbreviation ids up to `largest`. -/
def idWidth (largest : Nat) : Nat :=
  max (bitLength largest) initialIdWidth

/-- The width of abbreviation ids in a block that sees `count` abbreviations. -/
def idWidthFor (count : Nat) : Nat :=
  idWidth (firstDefinedId + count - 1)

/-- Abbreviation ids with a meaning of their own. -/
inductive ReservedId where
  | endBlock
  | enterBlock
  | defineAbbrev
  | plainRecord
  deriving DecidableEq, Repr

/-- The number of a reserved abbreviation id. -/
def ReservedId.code : ReservedId → UInt64
  | .endBlock => 0
  | .enterBlock => 1
  | .defineAbbrev => 2
  | .plainRecord => 3

/-- An abbreviation id, by its meaning. -/
inductive AbbrevId where
  | reserved (id : ReservedId)
  | defined (id : UInt64)
  deriving DecidableEq, Repr

/-- The meaning of an abbreviation id. -/
def AbbrevId.ofCode (code : UInt64) : AbbrevId :=
  match code.toNat with
  | 0 => .reserved .endBlock
  | 1 => .reserved .enterBlock
  | 2 => .reserved .defineAbbrev
  | 3 => .reserved .plainRecord
  | _ => .defined code

/-- The id of the block whose definitions are shared with other blocks. -/
def infoBlockId : UInt64 := 0

/-- The records of block 0 that have a meaning. -/
inductive InfoCode where
  | setBlock
  | blockName
  | recordName
  deriving DecidableEq, Repr

/-- The meaning of a record code in block 0. -/
def InfoCode.ofCode? (code : UInt64) : Option InfoCode :=
  match code.toNat with
  | 1 => some .setBlock
  | 2 => some .blockName
  | 3 => some .recordName
  | _ => none

/-- The code of the record that chooses the block for the definitions that follow. -/
def setBlockCode : UInt64 := 1

/-- The operators of an abbreviation that take up bits in a record. -/
inductive Encoding where
  | fixed
  | vbr
  | array
  | char6
  | blob
  deriving DecidableEq, Repr

/-- The number of an operator encoding in a definition. -/
def Encoding.code : Encoding → UInt64
  | .fixed => 1
  | .vbr => 2
  | .array => 3
  | .char6 => 4
  | .blob => 5

/-- The operator encoding with a number. -/
def Encoding.ofCode? (code : UInt64) : Option Encoding :=
  match code.toNat with
  | 1 => some .fixed
  | 2 => some .vbr
  | 3 => some .array
  | 4 => some .char6
  | 5 => some .blob
  | _ => none

/-- The blocks of a program. -/
inductive BlockKind where
  | module
  | paramAttr
  | paramAttrGroup
  | constants
  | function
  | valueSymtab
  | metadata
  | metadataAttachment
  | type
  | uselist
  | globalVar
  deriving DecidableEq, Repr

/-- The block with an id. -/
def BlockKind.ofId? (id : UInt64) : Option BlockKind :=
  match id.toNat with
  | 8 => some .module
  | 9 => some .paramAttr
  | 10 => some .paramAttrGroup
  | 11 => some .constants
  | 12 => some .function
  | 14 => some .valueSymtab
  | 15 => some .metadata
  | 16 => some .metadataAttachment
  | 17 => some .type
  | 18 => some .uselist
  | 19 => some .globalVar
  | _ => none

/-- The id of the outermost block of a program. -/
def moduleBlockId : UInt64 := 8

end Bitcode.Format
