import Bitcode.Streaming.Memory

/-!
Windows on a memory that several readers share.

A cache holds one aligned line of the memory. Requests inside the line are served without the
memory; any other request replaces the line.
-/

namespace Bitcode.Streaming

/-- One reader's window on a memory. -/
structure Cache where
  line : Array UInt8
  /-- The address of the line's first byte, once a line has been fetched. -/
  base : Option Nat := none
  /-- How many bytes of the line belong to the object. -/
  valid : Nat := 0
  /-- Every address below is known to lie in the object. -/
  minObjectSize : Nat := 0
  deriving DecidableEq, Repr, Inhabited

namespace Cache

/-- The size of a line. -/
def lineSize : Nat := 16384

/-- A cache without a line. -/
def empty : Cache :=
  { line := Array.replicate lineSize 0 }

/-- The start of the line that an address lies in. -/
def lineStart (address : Nat) : Nat :=
  address / lineSize * lineSize

/-- A size, or the largest number of 64 bits if the size is larger. -/
def saturate (size : Nat) : Nat :=
  min size (addressLimit - 1)

/-- Raise the bound below which addresses are known to be valid. -/
def raise (cache : Cache) (size : Nat) : Cache :=
  { cache with minObjectSize := max cache.minObjectSize size }

/-- Put bytes at the start of the line. -/
def overwrite (cache : Cache) (bytes : Array UInt8) : Cache :=
  { cache with line := bytes ++ cache.line.extract bytes.size cache.line.size }

/-- The line is loaded and a request lies in it. -/
def covers (cache : Cache) (address past : Nat) : Bool :=
  cache.base.any fun base => decide (base ≤ address ∧ past - base ≤ lineSize)

/-- The bytes of a request that are in the line and in the object. -/
def serve (cache : Cache) (address past : Nat) : Array UInt8 :=
  let base := cache.base.getD 0
  cache.line.extract (address - base) (min past (base + cache.valid) - base)

end Cache

/-- A memory seen through a cache. -/
structure Window (σ : Type) where
  memory : Memory σ
  cache : Cache := .empty
  deriving DecidableEq, Repr, Inhabited

/-- A computation that may change a cache and its memory, also when it fails. -/
abbrev Viewing (σ α : Type) := EStateM Error (Window σ) α

namespace Window

variable {σ : Type}

/-- Work on the memory behind the cache. -/
def onMemory {α : Type} (operation : Fetching σ α) : Viewing σ α := fun window =>
  match operation window.memory with
  | .ok value memory => .ok value { window with memory }
  | .error cause memory => .error cause { window with memory }

/-- Change the cache only. -/
def modifyCache (change : Cache → Cache) : Viewing σ Unit :=
  modify fun window => { window with cache := change window.cache }

/-- Drop leading bytes of the memory. The line stays as it is. -/
def drop (count : Nat) : Viewing σ Unit :=
  onMemory (Memory.drop count)

/-- State the size of the object. -/
def setSize (window : Window σ) (size : Nat) : Window σ :=
  { memory := window.memory.setSize size, cache := window.cache.raise size }

/-- A cache does not know the size of the object. -/
def extent : Viewing σ Nat :=
  throw .extentOfCache

variable [Source σ]

/-- How many bytes of the line at `base` lie in the object, and what is known of the object's size
by that. -/
def lineExtent (base : Nat) : Fetching σ (Nat × Nat) := do
  if ← Memory.isValid (base + (Cache.lineSize - 1)) then
    return (Cache.lineSize, Cache.saturate (base + Cache.lineSize))
  else
    let size ← Memory.extent
    return (size - base, size)

/-- Replace the line by the one of an address. If bytes are missing the old line keeps its place,
though its first bytes have been overwritten. -/
def fetchLine (address : Nat) : Viewing σ Unit := do
  let base := Cache.lineStart address
  let (expected, size) ← onMemory (lineExtent base)
  let bytes ← onMemory (Memory.read base expected)
  modifyCache (·.overwrite bytes)
  if bytes.size ≠ expected then throw (.shortRead base expected bytes.size)
  modifyCache fun cache => { cache with base := some base, valid := expected }.raise size

/-- Read up to `length` bytes, which have to lie in one line if the cache does not hold them. -/
def read (address length : Nat) : Viewing σ (Array UInt8) := do
  let past := address + length
  if length = 0 ∨ addressLimit ≤ past then return #[]
  unless (← get).cache.covers address past do
    if Cache.lineStart address ≠ Cache.lineStart (past - 1) then throw (.spansLines address past)
    fetchLine address
  return (← get).cache.serve address past

/-- Whether an address lies in the object. -/
def isValid (address : Nat) : Viewing σ Bool := do
  if address < (← get).cache.minObjectSize then return true
  let valid ← onMemory (Memory.isValid address)
  if valid then modifyCache (·.raise (Cache.saturate (address + 1)))
  return valid

/-- Whether an address is the first one after the object. -/
def isEnd (address : Nat) : Viewing σ Bool :=
  onMemory (Memory.isEnd address)

end Window

/-- A memory with the caches of all its readers. -/
structure Shared (σ : Type) where
  memory : Memory σ
  caches : Array Cache
  deriving DecidableEq, Repr, Inhabited

namespace Shared

variable {σ α : Type}

/-- Work on the memory itself. -/
def direct (operation : Fetching σ α) : EStateM Error (Shared σ) α := fun shared =>
  match operation shared.memory with
  | .ok value memory => .ok value { shared with memory }
  | .error cause memory => .error cause { shared with memory }

/-- Work through one of the caches. No other reader comes between the steps of an operation. -/
def through (reader : Nat) (operation : Viewing σ α) : EStateM Error (Shared σ) α := fun shared =>
  match operation ⟨shared.memory, shared.caches.getD reader .empty⟩ with
  | .ok value window =>
      .ok value ⟨window.memory, shared.caches.setIfInBounds reader window.cache⟩
  | .error cause window =>
      .error cause ⟨window.memory, shared.caches.setIfInBounds reader window.cache⟩

end Shared

end Bitcode.Streaming
