/-!
The ways in which streaming bytes can fail.
-/

namespace Bitcode.Streaming

/-- Why a streaming operation failed. -/
inductive Error where
  /-- The source reported a failure of its own. -/
  | source (report : String)
  /-- A line holds fewer bytes than the memory promised. -/
  | shortRead (address expected actual : Nat)
  /-- More bytes are dropped than have been read. -/
  | dropPastRead (requested available : Nat)
  /-- Functions are divided among no threads. -/
  | noThreads
  /-- A request through a cache reaches over the border of a line. -/
  | spansLines (first past : Nat)
  /-- A cache is asked for the size of the whole object. -/
  | extentOfCache
  deriving DecidableEq, Repr, Inhabited

/-- The report of an error. -/
def Error.message : Error → String
  | .source report => s!"I/O error while streaming: {report}"
  | .shortRead address expected actual =>
      s!"short read at {address}: expected {expected} bytes, got {actual}"
  | .dropPastRead requested available =>
      s!"can't drop {requested} leading bytes: only {available} have been read"
  | .noThreads => "a function queue needs at least one thread"
  | .spansLines first past => s!"read_bytes request spans cache lines: {first}..{past}"
  | .extentOfCache => "get_extent can't be called on a streaming cache"

end Bitcode.Streaming
