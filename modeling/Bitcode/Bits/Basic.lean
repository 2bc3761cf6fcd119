/-!
Bits of a byte array, least significant first, and the numbers that consecutive bits spell.
-/

namespace Bitcode.Bits

/-- The number spelled by `count` consecutive bits from a position on, least significant first. -/
def spell (bit : Nat → Bool) (position : Nat) : Nat → Nat
  | 0 => 0
  | count + 1 => (bit position).toNat + 2 * spell bit (position + 1) count

/-- The bit of a byte array at a position; past the end all bits are zero. -/
def bitAt (bytes : Array UInt8) (position : Nat) : Bool :=
  (bytes.getD (position / 8) 0).toNat.testBit (position % 8)

/-- The field of `count` bits that starts at a bit position. -/
def fieldAt (bytes : Array UInt8) (position count : Nat) : Nat :=
  spell (bitAt bytes) position count

/-- The word that at most eight bytes spell, the first byte lowest. -/
def joinBytes : List UInt8 → UInt64
  | [] => 0
  | byte :: rest => byte.toUInt64 ||| joinBytes rest <<< 8

/-- How many bits of a word are zero above its highest one. -/
def leadingZeros (word : UInt64) : Nat :=
  if word = 0 then 64 else 63 - word.toNat.log2

/-- The low `count` bits of a number, least significant first. -/
def lowBits (value : Nat) : Nat → List Bool
  | 0 => []
  | count + 1 => value.testBit 0 :: lowBits (value / 2) count

/-- Pack bits into `count` bytes; missing bits are zero. -/
def packBytes (bits : Array Bool) (count : Nat) : Array UInt8 :=
  Array.ofFn fun index : Fin count => UInt8.ofNat (spell (bits.getD · false) (8 * index) 8)

/-- Unpack a byte array into its bits. -/
def unpackBytes (bytes : Array UInt8) : Array Bool :=
  Array.ofFn fun position : Fin (8 * bytes.size) => bitAt bytes position

end Bitcode.Bits
