/-!
Characters in six bits: small letters, capital letters, digits, the full stop and the underscore.
-/

namespace Bitcode.Format.Char6

/-- The six-bit code of a character. -/
def encode? (character : UInt64) : Option UInt64 :=
  let c := character.toNat
  if 97 ≤ c ∧ c ≤ 122 then some (UInt64.ofNat (c - 97))
  else if 65 ≤ c ∧ c ≤ 90 then some (UInt64.ofNat (c - 65 + 26))
  else if 48 ≤ c ∧ c ≤ 57 then some (UInt64.ofNat (c - 48 + 52))
  else if c = 46 then some 62
  else if c = 95 then some 63
  else none

/-- The character with a six-bit code. -/
def decode? (code : UInt64) : Option UInt64 :=
  let k := code.toNat
  if k < 26 then some (UInt64.ofNat (k + 97))
  else if k < 52 then some (UInt64.ofNat (k - 26 + 65))
  else if k < 62 then some (UInt64.ofNat (k - 52 + 48))
  else if k = 62 then some 46
  else if k = 63 then some 95
  else none

end Bitcode.Format.Char6
