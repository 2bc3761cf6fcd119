import Bitcode.Bitstream.Error

/-!
Why a file cannot be unrolled, analysed or compressed.
-/

namespace Bitcode.Compression

/-- What is wrong with the structure of a file. -/
inductive StructureError where
  | unexpectedEnd
  | notABlock
  | notSelected (code block : UInt64)
  deriving DecidableEq, Repr

/-- The detail of a structure error. -/
def StructureError.message : StructureError → String
  | .unexpectedEnd => "unexpected stream end during unroll"
  | .notABlock => "bitstream has non-blocks at the top-level scope"
  | .notSelected code block =>
      s!"no abbreviation selected for record {code} in block {block}"

/-- The causes of failure while working on a file. -/
inductive Error where
  | badSize (size : Nat)
  | bitstream (cause : Bitstream.Error)
  | malformed (cause : StructureError)
  | unknownId (block id : UInt64)
  deriving DecidableEq, Repr

/-- The sentence that reports a failure. -/
def Error.message : Error → String
  | .badSize size => s!"bitcode size ({size}) is not a multiple of 4"
  | .bitstream cause => "bitstream error: " ++ cause.message
  | .malformed cause => "error while unrolling the bitstream: " ++ cause.message
  | .unknownId block id => s!"bad abbreviation index {id} in block {block}"

/-- The reports of a failure and of the failures under it, outermost first. -/
def Error.messages (error : Error) : List String :=
  error.message ::
    match error with
    | .bitstream cause => cause.messages
    | _ => []

end Bitcode.Compression
