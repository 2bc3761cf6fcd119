import Bitcode.Streaming.Cache

/-!
The requests that a streamed object answers, directly or through a cache.
-/

namespace Bitcode.Streaming

/-- What can be asked of a streamed object. -/
inductive Request where
  /-- Give up to `length` bytes from an address on. -/
  | read (address length : Nat)
  /-- Does an address lie in the object? -/
  | isValid (address : Nat)
  /-- Is an address the first one after the object? -/
  | isEnd (address : Nat)
  /-- Let the addresses begin later. -/
  | drop (count : Nat)
  /-- State the size of the object. -/
  | setSize (size : Nat)
  /-- What is the size of the object? -/
  | extent
  deriving DecidableEq, Repr, Inhabited

/-- What a request is answered with. -/
inductive Response where
  | bytes (found : Array UInt8)
  | truth (value : Bool)
  | done
  | size (value : Nat)
  deriving DecidableEq, Repr, Inhabited

variable {σ : Type} [Source σ]

/-- Answer a request from the memory. -/
def Memory.answer : Request → Fetching σ Response
  | .read address length => return .bytes (← Memory.read address length)
  | .isValid address => return .truth (← Memory.isValid address)
  | .isEnd address => return .truth (← Memory.isEnd address)
  | .drop count => do
      Memory.drop count
      return .done
  | .setSize size => do
      modify (·.setSize size)
      return .done
  | .extent => return .size (← Memory.extent)

/-- Answer a request through a cache. -/
def Window.answer : Request → Viewing σ Response
  | .read address length => return .bytes (← Window.read address length)
  | .isValid address => return .truth (← Window.isValid address)
  | .isEnd address => return .truth (← Window.isEnd address)
  | .drop count => do
      Window.drop count
      return .done
  | .setSize size => do
      modify (·.setSize size)
      return .done
  | .extent => return .size (← Window.extent)

/-- Answer a request of the reader with a cache, or of one without. -/
def Shared.answer (reader : Option Nat) (request : Request) : EStateM Error (Shared σ) Response :=
  match reader with
  | some index => Shared.through index (Window.answer request)
  | none => Shared.direct (Memory.answer request)

end Bitcode.Streaming
