/-!
Why a bit field cannot be read or written.
-/

namespace Bitcode.Bits

/-- The causes of failure while reading or writing bit fields. -/
inductive Error where
  | endOfData
  | badLength
  | lossyCast
  | badWidth (width : Nat)
  | badVbrWidth (width : Nat)
  | vbrOverflow
  | valueTooWide (value : UInt64) (width : Nat)
  | badBackpatch (byte : Nat)
  | tooShort
  deriving DecidableEq, Repr, Inhabited

/-- Digits of a number in base sixteen, without a mark in front. -/
def hexDigits (value : Nat) : String :=
  String.ofList (Nat.toDigits 16 value)

/-- The sentence that reports a failure. -/
def Error.message : Error → String
  | .endOfData => "EOF while reading"
  | .badLength => "invalid length for buffer supplied to cursor"
  | .lossyCast => "loss of data with cast"
  | .badWidth width => s!"invalid bit width for read or write: {width}"
  | .badVbrWidth width => s!"invalid VBR width: {width}"
  | .vbrOverflow => "VBR value overflows 64 bits"
  | .valueTooWide value width =>
      "value 0x" ++ hexDigits value.toNat ++ s!" does not fit in {width} bits"
  | .badBackpatch byte => s!"cannot backpatch word at byte {byte}"
  | .tooShort => "too little data to service request"

end Bitcode.Bits
