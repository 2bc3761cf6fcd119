import Bitcode.Bits.Error
import Bitcode.Abbrev.Basic

/-!
Why a bitstream cannot be read or written. The causes are grouped by what was being done.
-/

namespace Bitcode.Bitstream

/-- What is wrong with a file header. -/
inductive HeaderError where
  | missingMagic
  | shortInput (claimed actual : Nat)
  | truncated (byte : Nat)
  | fieldOverrun
  | sizeMismatch (taken claimed : Nat)
  | partialWord (size : Nat)
  | unsupportedVersion (version : Option UInt32)
  | notFirst
  deriving DecidableEq, Repr

/-- The text of a version that may be missing. -/
def versionText : Option UInt32 → String
  | some version => s!"Some({version})"
  | none => "None"

/-- The detail of a header error. -/
def HeaderError.message : HeaderError → String
  | .missingMagic => "missing PEXE magic"
  | .shortInput claimed actual =>
      s!"header claims {claimed} bytes of fields, but input is only {actual} bytes"
  | .truncated byte => s!"truncated at byte {byte}"
  | .fieldOverrun => "field data overruns header"
  | .sizeMismatch taken claimed => s!"fields take {taken} bytes, but header claims {claimed}"
  | .partialWord size => s!"bitcode size ({size}) is not a multiple of 4"
  | .unsupportedVersion version => "unsupported PNaCl version: " ++ versionText version
  | .notFirst => "header must come first"

/-- What is wrong with a record or definition in its place. -/
inductive ContentError where
  | definitionWithoutBlock
  | definitionOutside
  | recordOutside
  | missingBlockId
  | missingCode (id : UInt64)
  deriving DecidableEq, Repr

/-- The detail of a content error. -/
def ContentError.message : ContentError → String
  | .definitionWithoutBlock => "DEFINE_ABBREV in BLOCKINFO but no preceding SETBID"
  | .definitionOutside => "DEFINE_ABBREV outside of any block scope"
  | .recordOutside => "UNABBREV_RECORD outside of any block scope"
  | .missingBlockId => "SETBID record without a block ID"
  | .missingCode id => s!"abbreviated record {id} has no code"

/-- What is wrong with an abbreviation that is read or read with. -/
inductive DefinitionError where
  | noOperators
  | misplacedArray
  | misplacedBlob
  | badElement (operator : Operator)
  | fixedTooWide (width : UInt64)
  | badVbrWidth (width : UInt64)
  | notScalar (operator : Operator)
  | missingElement
  deriving DecidableEq, Repr

/-- The detail of a definition error. -/
def DefinitionError.message : DefinitionError → String
  | .noOperators => "expected at least one abbrev operand"
  | .misplacedArray => "array operand at invalid index"
  | .misplacedBlob => "blob operand at invalid index"
  | .badElement operator => "invalid element type for an array: " ++ operator.text
  | .fixedTooWide width => s!"fixed width too large: {width}"
  | .badVbrWidth width => s!"invalid VBR width: {width}"
  | .notScalar operator => operator.text ++ " is not a scalar operand"
  | .missingElement => "array operand without element type"

/-- What is wrong with the nesting of blocks. -/
inductive ScopeError where
  | openAtEnd (depth : Nat)
  | badIdWidth (block width : UInt64)
  | endOutside
  | abbrevOutside
  | nothingToExit
  | definitionOutside
  | recordOutside
  | neverExited (block : UInt64)
  deriving DecidableEq, Repr

/-- The detail of a scope error. -/
def ScopeError.message : ScopeError → String
  | .openAtEnd depth => s!"stream ended inside {depth} open block(s)"
  | .badIdWidth block width =>
      s!"can't enter block {block}: invalid abbreviation ID width: {width}"
  | .endOutside => "malformed stream: END_BLOCK outside of any block"
  | .abbrevOutside => "non-block scope cannot contain records"
  | .nothingToExit => "no block to exit"
  | .definitionOutside => "abbreviations can only be defined inside a block"
  | .recordOutside => "records can only appear inside a block"
  | .neverExited block => s!"block {block} was never exited"

/-- Why an abbreviation cannot encode a record. -/
inductive EncodingError where
  | missingElement
  | operand (operator : Operator) (value : UInt64)
  | blobByte (value : UInt64)
  | tooFewValues (shape : Abbrev)
  | tooManyValues (shape : Abbrev)
  | record (shape : Abbrev) (values : List UInt64)
  deriving DecidableEq, Repr

/-- The text of a list of values. -/
def valuesText (values : List UInt64) : String :=
  "[" ++ ", ".intercalate (values.map toString) ++ "]"

/-- The detail of an encoding error. -/
def EncodingError.message : EncodingError → String
  | .missingElement => "array operand without element type"
  | .operand operator value => "operand " ++ operator.text ++ s!" can't encode {value}"
  | .blobByte value => s!"blob byte out of range: {value}"
  | .tooFewValues shape => "too few values for abbreviation " ++ shape.text
  | .tooManyValues shape => "too many values for abbreviation " ++ shape.text
  | .record shape values =>
      "abbreviation " ++ shape.text ++ " can't encode " ++ valuesText values

/-- The causes of failure while reading or writing a bitstream. -/
inductive Error where
  | exhausted
  | field (cause : Bits.Error)
  | header (cause : HeaderError)
  | badInfoCode (code : UInt64)
  | badEncoding (code : UInt64)
  | content (cause : ContentError)
  | definition (cause : DefinitionError)
  | unknownAbbrev (id : UInt64)
  | scope (cause : ScopeError)
  | encoding (cause : EncodingError)
  deriving DecidableEq, Repr

/-- The sentence that reports a failure. -/
def Error.message : Error → String
  | .exhausted => "bitstream has been exhausted"
  | .field cause => "underlying bitcursor error: " ++ cause.message
  | .header cause => "couldn't parse PEXE header: " ++ cause.message
  | .badInfoCode _ => "bad record code for BLOCKINFO block"
  | .badEncoding _ => "bad operand code for DEFINE_ABBREV operand"
  | .content cause => "error while parsing stream: " ++ cause.message
  | .definition cause => "error while parsing abbrev record: " ++ cause.message
  | .unknownAbbrev id => s!"unknown abbreviation for ID: {id}"
  | .scope cause => "error while handling block scope: " ++ cause.message
  | .encoding cause => "can't encode record: " ++ cause.message

/-- The report of a number that names nothing. -/
def unknownNumberMessage (kind : String) (code : UInt64) : String :=
  "No discriminant in enum `" ++ kind ++ s!"` matches the value `{code}`"

/-- The reports of a failure and of the failures under it, outermost first. -/
def Error.messages (error : Error) : List String :=
  error.message ::
    match error with
    | .field cause => [cause.message]
    | .badInfoCode code => [unknownNumberMessage "BlockInfoCode" code]
    | .badEncoding code => [unknownNumberMessage "AbbrevOpEnc" code]
    | _ => []

end Bitcode.Bitstream
