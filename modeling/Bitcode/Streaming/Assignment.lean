import Bitcode.Streaming.Error

/-!
Dividing functions among threads, in turn or in chunks that the threads claim.
-/

namespace Bitcode.Streaming

/-- The functions that threads divide among them. -/
structure Assignment where
  functions : Nat
  threads : Nat
  /-- No function from this one on has been claimed. -/
  unclaimed : Nat := 0
  deriving DecidableEq, Repr, Inhabited

namespace Assignment

/-- An assignment to at least one thread. -/
def ofCounts (functions threads : Nat) : Except Error Assignment :=
  if threads = 0 then .error .noThreads else .ok { functions, threads }

/-- A function belongs to a thread when the threads take turns. -/
def isInTurn (assignment : Assignment) (function thread : Nat) : Bool :=
  function % assignment.threads == thread

/-- The first half of a claim: see that a function has not been claimed. The failure names the
first unclaimed function. -/
def observe (assignment : Assignment) (function : Nat) : Except Nat Nat :=
  if function < assignment.unclaimed then .error assignment.unclaimed
  else .ok assignment.unclaimed

/-- The second half of a claim: take a chunk from the first unclaimed function on, if that is still
the one that was observed. The counter is a word of 64 bits, and wraps around. -/
def exchange (observed chunk : Nat) : EStateM Nat Assignment Nat := do
  let assignment ← get
  if assignment.unclaimed = observed then
    let next := (observed + chunk) % UInt64.size
    set { assignment with unclaimed := next }
    return next
  else throw assignment.unclaimed

/-- Claim a chunk on the way to a function. The answer is the first function after the chunk. -/
def claim (function chunk : Nat) : EStateM Nat Assignment Nat := do
  match (← get).observe function with
  | .error next => throw next
  | .ok observed => exchange observed chunk

/-- A chunk that is large while many functions are left, and between 1 and 8. -/
def chunkSize (assignment : Assignment) : Nat :=
  let left := max (assignment.functions - assignment.unclaimed) 1
  min (max (left / (assignment.threads * 4)) 1) 8

end Assignment

end Bitcode.Streaming
