import Bitcode.Streaming.Source

/-!
A bounded queue of bytes between one producer and one consumer.

Each of the two works in sections that nobody interrupts. A section either finishes its call or
ends in waiting for the other side, and then says what is still to be done.
-/

namespace Bitcode.Streaming

/-- The bytes that wait between a producer and a consumer. -/
structure Queue where
  /-- The waiting bytes, after some that have been taken. -/
  stored : Array UInt8 := #[]
  /-- How many stored bytes have been taken. -/
  start : Nat := 0
  /-- How many bytes may wait. -/
  capacity : Nat := 65536
  /-- The producer gives nothing more. -/
  closed : Bool := false
  deriving DecidableEq, Repr, Inhabited

namespace Queue

/-- The capacity that is never passed. -/
def maxCapacity : Nat := 262144

/-- How many bytes wait. -/
def size (queue : Queue) : Nat :=
  queue.stored.size - queue.start

/-- The waiting bytes in the order in which they came. -/
def contents (queue : Queue) : List UInt8 :=
  queue.stored.toList.drop queue.start

/-- How many bytes fit beside the waiting ones. -/
def space (queue : Queue) : Nat :=
  queue.capacity - queue.size

/-- The first of two, four, … times a capacity that makes room for the bytes, or the last that is
allowed. Nothing grows past `maxCapacity` within as many doublings as are given. -/
def grownCapacity (waiting wanted : Nat) : Nat → Nat → Nat
  | 0, capacity => capacity
  | doublings + 1, capacity =>
      if capacity - waiting < wanted ∧ 2 * capacity ≤ maxCapacity then
        grownCapacity waiting wanted doublings (2 * capacity)
      else capacity

/-- Make room for more bytes as far as it is allowed. -/
def grow (queue : Queue) (wanted : Nat) : Queue :=
  { queue with
    capacity := grownCapacity queue.size wanted maxCapacity queue.capacity }

/-- Add bytes at the end. -/
def append (queue : Queue) (bytes : Array UInt8) : Queue :=
  { queue with stored := queue.stored ++ bytes }

/-- Take bytes from the front. -/
def take (queue : Queue) (count : Nat) : Array UInt8 × Queue :=
  let past := min (queue.start + count) queue.stored.size
  (queue.stored.extract queue.start past,
    if past = queue.stored.size then { queue with stored := #[], start := 0 }
    else { queue with start := past })

/-- What a section of a put leaves to be done: nothing, or bytes that did not fit. -/
abbrev Unsent := Option (Array UInt8)

/-- One section of a put. What does not fit waits until the consumer has taken something. -/
def put (queue : Queue) (bytes : Array UInt8) : Unsent × Queue :=
  let grown := queue.grow bytes.size
  if bytes.size ≤ grown.space then (none, grown.append bytes)
  else
    (some (bytes.extract grown.space bytes.size), grown.append (bytes.extract 0 grown.space))

/-- Give nothing more. -/
def close (queue : Queue) : Queue :=
  { queue with closed := true }

/-- What a section of a get has taken, and whether its call waits for more. -/
structure Taken where
  bytes : Array UInt8
  waits : Bool
  deriving DecidableEq, Repr, Inhabited

/-- One section of a get. It waits for more as long as more may come. -/
def get (queue : Queue) (wanted : Nat) : Taken × Queue :=
  let (bytes, rest) := queue.take wanted
  (⟨bytes, !queue.closed && decide (queue.size < wanted)⟩, rest)

end Queue

/-- A queue together with what its producer is going to put before it closes the queue. -/
structure Feed where
  queue : Queue := {}
  pending : List (Array UInt8)
  deriving DecidableEq, Repr, Inhabited

namespace Feed

/-- One section of the producer. -/
def produce (feed : Feed) : Feed :=
  match feed.pending with
  | [] => { feed with queue := feed.queue.close }
  | piece :: rest =>
      let (unsent, queue) := feed.queue.put piece
      { queue, pending := unsent.toList ++ rest }

/-- How many bytes the consumer can still get. -/
def remaining (feed : Feed) : Nat :=
  feed.queue.size + feed.pending.foldr (fun piece total => piece.size + total) 0

/-- Let the consumer and the producer work in turn, for at most a number of turns, until the wanted
bytes are there or the queue is closed. -/
def collect : Nat → Nat → Array UInt8 → EStateM Error Feed (Array UInt8)
  | 0, _, collected => return collected
  | turns + 1, wanted, collected => do
      let feed ← get
      let (taken, queue) := feed.queue.get wanted
      if taken.waits then
        set ({ feed with queue } : Feed).produce
        collect turns (wanted - taken.bytes.size) (collected ++ taken.bytes)
      else
        set { feed with queue }
        return collected ++ taken.bytes

/-- Each turn of the producer puts a byte, finishes a piece or closes the queue. -/
def pull (wanted : Nat) : EStateM Error Feed (Array UInt8) := do
  let feed ← get
  collect (feed.remaining + feed.pending.length + 2) wanted #[]

end Feed

instance : Source Feed where
  pull := Feed.pull
  remaining := Feed.remaining

end Bitcode.Streaming
