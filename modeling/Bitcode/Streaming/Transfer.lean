import Bitcode.Streaming.Cache

/-!
Moving whole streams: through a source in pieces of given sizes, and through caches to workers that
take the words of the stream in turn.
-/

namespace Bitcode.Streaming

/-- Cut the bytes from `start` on into at most a number of pieces. -/
def cutFrom (bytes : Array UInt8) (sizes : List Nat) : Nat → List Nat → Nat → List (Array UInt8)
  | 0, _, _ => []
  | _ + 1, [], _ => []
  | pieces + 1, size :: rest, start =>
      if bytes.size ≤ start then []
      else
        bytes.extract start (start + size) ::
          cutFrom bytes sizes pieces (if rest.isEmpty then sizes else rest) (start + size)

/-- Cut bytes into pieces of the given sizes, which are used over and over. Each round through the
sizes uses up a byte, unless all of them are zero. -/
def cut (sizes : List Nat) (bytes : Array UInt8) : List (Array UInt8) :=
  cutFrom bytes sizes (bytes.size * sizes.length + 1) sizes 0

/-- What came out of a source, and by how many pulls. -/
structure Receipt where
  pulls : Nat := 0
  /-- The size of the last pull. -/
  last : Nat := 0
  bytes : Array UInt8 := #[]
  deriving DecidableEq, Repr, Inhabited

variable {σ : Type} [Source σ]

/-- Pull the given sizes, at most a number of times, until a pull comes back short. -/
def receiveWithin (sizes : List Nat) : Nat → List Nat → Receipt → EStateM Error σ Receipt
  | 0, _, receipt => return receipt
  | _ + 1, [], receipt => return receipt
  | pulls + 1, size :: rest, receipt => do
      let bytes ← Source.pull size
      let receipt : Receipt :=
        { pulls := receipt.pulls + 1, last := bytes.size, bytes := receipt.bytes ++ bytes }
      if bytes.size < size then return receipt
      receiveWithin sizes pulls (if rest.isEmpty then sizes else rest) receipt

/-- Pull the given sizes over and over until the source ends. -/
def receive (sizes : List Nat) : EStateM Error σ Receipt := do
  receiveWithin sizes ((Source.remaining (← get) + 1) * sizes.length) sizes {}

/-- The part of a stream that one worker has read. -/
structure Share where
  reads : Nat := 0
  bytes : Array UInt8 := #[]
  /-- The worker stopped at the end of the object, and not somewhere after it. -/
  atEnd : Bool := false
  deriving DecidableEq, Repr, Inhabited

namespace Shared

/-- The size of the words that workers take in turn. -/
def wordSize : Nat := 4

/-- Read words at a distance through a cache, at most a number of them, while their addresses are
valid. -/
def workFrom (reader stride : Nat) : Nat → Nat → Share → EStateM Error (Shared σ) Share
  | 0, _, share => return share
  | words + 1, address, share => do
      if ← through reader (Window.isValid address) then
        let word ← through reader (Window.read address wordSize)
        workFrom reader stride words (address + stride)
          { share with reads := share.reads + 1, bytes := share.bytes ++ word }
      else
        return { share with atEnd := ← through reader (Window.isEnd address) }

/-- Read every word of the stream whose number leaves the worker's number when divided by the
number of workers. -/
def work (workers worker : Nat) : EStateM Error (Shared σ) Share := do
  let memory := (← get).memory
  workFrom worker (wordSize * workers) (memory.bytesRead + Source.remaining memory.source + 1)
    (wordSize * worker) {}

end Shared

end Bitcode.Streaming
