import Bitcode.Streaming.Error

/-!
Sources of bytes, and the reading of a source that answers in pieces.
-/

namespace Bitcode.Streaming

/-- A source of bytes. A pull that gives fewer bytes than it was asked for has met the end. -/
class Source (σ : Type) where
  /-- Take up to a number of bytes from the source. -/
  pull : Nat → EStateM Error σ (Array UInt8)
  /-- How many bytes the source can still give. -/
  remaining : σ → Nat

/-- How a reader answers one request. -/
inductive Reply where
  /-- Give nothing; the request is to be repeated. -/
  | interrupted
  /-- Give nothing, and report a failure. -/
  | failed (report : String)
  /-- Give what is left, up to a limit if there is one. -/
  | piece (limit : Option Nat)
  deriving DecidableEq, Repr, Inhabited

/-- How many bytes a piece has, of those that are wanted and left. -/
def Reply.pieceSize (limit : Option Nat) (wanted left : Nat) : Nat :=
  min (min wanted left) (limit.getD wanted)

/-- Bytes that are handed out request by request. -/
structure Reader where
  bytes : Array UInt8
  /-- How many bytes have been handed out. -/
  position : Nat := 0
  /-- The answers to the next requests. -/
  script : List Reply := []
  /-- The limit of a piece once the script has run out. -/
  limit : Option Nat := none
  deriving DecidableEq, Repr, Inhabited

namespace Reader

/-- How many bytes have not been handed out. -/
def left (reader : Reader) : Nat :=
  reader.bytes.size - reader.position

/-- The answer to the next request. -/
def nextReply (reader : Reader) : Reply :=
  reader.script.head?.getD (.piece reader.limit)

/-- Use up one answer of the script and hand out some bytes. -/
def advance (reader : Reader) (count : Nat) : Reader :=
  { reader with position := reader.position + count, script := reader.script.tail }

/-- Collect pieces in at most a number of requests. A failure loses what was collected. -/
def collect : Nat → Nat → Array UInt8 → EStateM Error Reader (Array UInt8)
  | 0, _, collected => return collected
  | requests + 1, wanted, collected => do
      if wanted = 0 then return collected
      let reader ← get
      match reader.nextReply with
      | .interrupted =>
          set (reader.advance 0)
          collect requests wanted collected
      | .failed report =>
          set (reader.advance 0)
          throw (.source report)
      | .piece limit =>
          let count := Reply.pieceSize limit wanted reader.left
          set (reader.advance count)
          if count = 0 then return collected
          let piece := reader.bytes.extract reader.position (reader.position + count)
          collect requests (wanted - count) (collected ++ piece)

/-- Ask until the wanted bytes are there or a piece is empty. Each request uses up an answer of the
script or hands out a byte, unless it is the last one. -/
def pull (wanted : Nat) : EStateM Error Reader (Array UInt8) := do
  collect ((← get).script.length + wanted + 1) wanted #[]

end Reader

instance : Source Reader where
  pull := Reader.pull
  remaining := Reader.left

end Bitcode.Streaming
