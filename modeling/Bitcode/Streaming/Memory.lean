import Bitcode.Streaming.Source

/-!
A stream seen as an addressed object that is fetched as far as it is asked for.
-/

namespace Bitcode.Streaming

/-- One past the largest address. -/
def addressLimit : Nat := UInt64.size

theorem Memory.counted_start : 0 + 0 = (#[] : Array UInt8).size :=
  rfl

/-- The part of a stream that has been fetched, and the source of the rest. Addresses count from
the first byte that has not been dropped. -/
structure Memory (σ : Type) where
  source : σ
  /-- All bytes that have been fetched. -/
  bytes : Array UInt8 := #[]
  /-- How many bytes can be read without a fetch. -/
  bytesRead : Nat := 0
  /-- How many of the fetched bytes lie before address zero. -/
  dropped : Nat := 0
  /-- The size of the object, once it is known. -/
  objectSize : Option Nat := none
  /-- Nothing more is fetched. -/
  ended : Bool := false
  /-- Every fetched byte is counted once. -/
  counted : dropped + bytesRead = bytes.size := by exact Memory.counted_start
  deriving DecidableEq, Repr, Inhabited

/-- A computation that may fetch more of a stream, also when it fails. -/
abbrev Fetching (σ α : Type) := EStateM Error (Memory σ) α

namespace Memory

/-- How many bytes are fetched at a time. -/
def chunkSize : Nat := 16384

variable {σ : Type}

theorem bytesRead_eq (memory : Memory σ) :
    memory.bytesRead = memory.bytes.size - memory.dropped := by
  have hcounted := memory.counted
  omega

theorem dropped_le (memory : Memory σ) : memory.dropped ≤ memory.bytes.size :=
  Nat.le.intro memory.counted

/-- No known size puts an address outside of the object. -/
def within (memory : Memory σ) (address : Nat) : Bool :=
  memory.objectSize.all (address < ·)

/-- Add fetched bytes. -/
def extend (memory : Memory σ) (chunk : Array UInt8) : Memory σ :=
  { memory with
    bytes := memory.bytes ++ chunk
    bytesRead := memory.bytesRead + chunk.size
    counted := by rw [Array.size_append, ← memory.counted, Nat.add_assoc] }

/-- Take a chunk. One that is not full ends the object, whose size is then known. -/
def absorb (memory : Memory σ) (chunk : Array UInt8) : Memory σ :=
  let next := memory.extend chunk
  if chunk.size < chunkSize then
    { next with ended := true, objectSize := some (memory.objectSize.getD next.bytesRead) }
  else next

variable [Source σ]

/-- Fetch one chunk. -/
def fetchChunk : Fetching σ Unit := fun memory =>
  match (Source.pull chunkSize : EStateM Error σ _) memory.source with
  | .ok chunk source => .ok () ({ memory with source }.absorb chunk)
  | .error cause source => .error cause { memory with source }

/-- Fetch chunks, at most a number of them, until an address has been fetched or the stream ends.
The answer is whether the address lies in the object. -/
def fetchWithin (address : Nat) : Nat → Fetching σ Bool
  | 0 => return false
  | chunks + 1 => do
      let memory ← get
      if address < memory.bytesRead then return memory.within address
      else if memory.ended then return false
      else
        fetchChunk
        fetchWithin address chunks

/-- Fetch as far as an address. Every full chunk has a byte at least, so there are not more chunks
before the address than addresses. -/
def fetchTo (address : Nat) : Fetching σ Bool :=
  fetchWithin address (address + 2)

/-- Read up to `length` bytes. Nothing is read past the last address. -/
def read (address length : Nat) : Fetching σ (Array UInt8) := do
  if length = 0 ∨ addressLimit ≤ address + length then return #[]
  discard (fetchTo (address + length - 1))
  let memory ← get
  let past := min (address + length) memory.bytesRead
  return memory.bytes.extract (memory.dropped + address) (memory.dropped + past)

/-- Whether an address lies in the object. -/
def isValid (address : Nat) : Fetching σ Bool := do
  if (← get).objectSize.any (address < ·) then return true
  fetchTo address

/-- Whether an address is the first one after the object. -/
def isEnd (address : Nat) : Fetching σ Bool := do
  match (← get).objectSize with
  | some size => return address == size
  | none =>
      discard (fetchTo address)
      return (← get).objectSize == some address && address != 0

/-- Ask for one chunk after the other until one is not there. -/
def fetchAll : Nat → Nat → Fetching σ Unit
  | 0, _ => return
  | chunks + 1, address => do
      if ← fetchTo address then fetchAll chunks (address + chunkSize)

/-- The size of the object, for which all of it is fetched. -/
def extent : Fetching σ Nat := do
  let memory ← get
  match memory.objectSize with
  | some size => return size
  | none =>
      fetchAll (Source.remaining memory.source + 1) (memory.bytesRead + chunkSize)
      let memory ← get
      return memory.objectSize.getD memory.bytesRead

omit [Source σ]

/-- Let the addresses begin later, after bytes that have been read. -/
def advance (memory : Memory σ) (count : Nat) (hcount : count ≤ memory.bytesRead) : Memory σ :=
  { memory with
    dropped := memory.dropped + count
    bytesRead := memory.bytesRead - count
    objectSize := memory.objectSize.map (· - count)
    counted := by
      have hcounted := memory.counted
      omega }

/-- Drop the first bytes. Only bytes that have been read can be dropped. -/
def drop (count : Nat) : Fetching σ Unit := fun memory =>
  if hpast : memory.bytesRead < count then .error (.dropPastRead count memory.bytesRead) memory
  else .ok () (memory.advance count (Nat.le_of_not_lt hpast))

/-- State the size of the object. Nothing is fetched once all of it is there. Room for the object is
not accounted for, however large the size is. -/
def setSize (memory : Memory σ) (size : Nat) : Memory σ :=
  { memory with objectSize := some size, ended := memory.ended || decide (size ≤ memory.bytesRead) }

end Memory

end Bitcode.Streaming
