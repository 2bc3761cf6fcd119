/-!
Non-negative double-precision numbers, exactly. A number is counted in units of `2 ^ -1074`, the
smallest positive double, and every operation rounds its exact result to 53 significant bits, a
half to the even neighbour.
-/

namespace Bitcode

/-- A quotient rounded to the nearest integer, a half to the even one. -/
def roundDiv (numerator denominator : Nat) : Nat :=
  let quotient := numerator / denominator
  let remainder := numerator % denominator
  if 2 * remainder < denominator then quotient
  else if denominator < 2 * remainder then quotient + 1
  else quotient + quotient % 2

/-- A quotient rounded to the nearest integer with at most 53 significant bits. -/
def roundSignificant (numerator denominator : Nat) : Nat :=
  let shift := (numerator / denominator).log2 - 52
  roundDiv numerator (denominator <<< shift) <<< shift

/-- A non-negative double. -/
structure Double where
  units : Nat
  deriving DecidableEq, Repr, Inhabited

namespace Double

/-- How many units make one. -/
def scale : Nat := 1 <<< 1074

/-- The double nearest to an integer. -/
def ofNat (value : Nat) : Double :=
  ⟨roundSignificant (value * scale) 1⟩

/-- Zero. -/
def zero : Double := ⟨0⟩

/-- The sum of two doubles. -/
def add (first second : Double) : Double :=
  ⟨roundSignificant (first.units + second.units) 1⟩

/-- The product of two doubles. -/
def mul (first second : Double) : Double :=
  ⟨roundSignificant (first.units * second.units) scale⟩

/-- The quotient of two doubles, for a divisor that is not zero. -/
def div (first second : Double) : Double :=
  ⟨roundSignificant (first.units * scale) second.units⟩

/-- A part of a whole in percent, zero if the whole is. -/
def percent (part whole : Double) : Double :=
  if whole = zero then zero else (part.div whole).mul (ofNat 100)

/-- The 64 bits of the double: a biased exponent over 52 bits of the significand. -/
def toBits (value : Double) : Nat :=
  let exponent := value.units.log2 - 52
  exponent <<< 52 + value.units >>> exponent

/-- The decimal with two places, a half rounded to the even neighbour. -/
def text (value : Double) : String :=
  let hundredths := roundDiv (value.units * 100) scale
  let places := hundredths % 100
  s!"{hundredths / 100}." ++ (if places < 10 then "0" else "") ++ toString places

end Double

end Bitcode
