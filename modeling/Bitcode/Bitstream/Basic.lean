import Bitcode.Bits.Cursor
import Bitcode.Bits.Writer
import Bitcode.Bitstream.Error

/-!
Computations on the bits of a stream. They keep the position reached when they fail.
-/

namespace Bitcode.Bitstream

/-- Failures with bit fields are failures with the stream. -/
instance {σ : Type} : MonadLift (EStateM Bits.Error σ) (EStateM Error σ) where
  monadLift := EStateM.adaptExcept .field

/-- A computation that reads from a stream. -/
abbrev Reading (α : Type) := EStateM Error Bits.Cursor α

/-- A computation that writes to a stream. -/
abbrev Writing (α : Type) := EStateM Error Bits.Writer α

end Bitcode.Bitstream
