import Bitcode.Bits.Basic

/-!
Variable-width integers. A value is cut into chunks of `width - 1` payload bits, least significant
first, and the top bit of a chunk says that another one follows.
-/

namespace Bitcode.Bits.Vbr

/-- The widest chunk. -/
def maxWidth : Nat := 32

/-- The chunk widths that can be read and written. -/
def ValidWidth (width : Nat) : Prop :=
  2 ≤ width ∧ width ≤ maxWidth

instance (width : Nat) : Decidable (ValidWidth width) :=
  inferInstanceAs (Decidable (2 ≤ width ∧ width ≤ maxWidth))

/-- The bit of a chunk that marks a continuation. -/
def mark (width : Nat) : UInt64 :=
  1 <<< UInt64.ofNat (width - 1)

/-- Another chunk follows. -/
def continues (width : Nat) (chunk : UInt64) : Bool :=
  chunk &&& mark width != 0

/-- What a chunk carries besides its mark. -/
def payload (width : Nat) (chunk : UInt64) : UInt64 :=
  chunk &&& ~~~mark width

/-- Put a payload on top of the bits read before it, unless it passes the 64th bit. -/
def join? (value payload : UInt64) (shift : Nat) : Option UInt64 :=
  if 64 ≤ shift ∨ 0 < shift ∧ leadingZeros payload < shift then none
  else some (value ||| payload <<< UInt64.ofNat shift)

/-- Cut a value into at most `steps + 1` chunks, where `half` is the bit that marks a continuation. -/
def cut (half : Nat) : Nat → Nat → List Nat
  | 0, value => [value]
  | steps + 1, value =>
      if value < half then [value] else (value % half + half) :: cut half steps (value / half)

/-- The chunks of a 64-bit value. Every chunk but the last takes away at least one bit. -/
def chunks (width : Nat) (value : UInt64) : List Nat :=
  cut (1 <<< (width - 1)) 64 value.toNat

/-- How many bits the chunks after the first one take, which carry what is `left` of a value. -/
def moreBits (width : Nat) : Nat → UInt64 → Nat
  | 0, _ => 0
  | steps + 1, left =>
      if left = 0 then 0 else width + moreBits width steps (left >>> UInt64.ofNat (width - 1))

/-- How many bits a value takes. -/
def bitSize (value : UInt64) (width : Nat) : Nat :=
  width + moreBits width 64 (value >>> UInt64.ofNat (width - 1))

end Bitcode.Bits.Vbr
