import Bitcode.Census.Report
import Bitcode.Compression.Output
import Bitcode.Synthesis.Candidates
import Bitcode.Tree.Unroll

/-!
Compressing and analysing files. A file is unrolled and counted, new abbreviations are synthesized,
the best one is selected for every record, and the file is written again.
-/

namespace Bitcode.Compression

/-- The bytes of a compressed file, or of a file without abbreviations. -/
def compress (bytes : Array UInt8) (removeAbbrevs : Bool) : Except Error (Array UInt8) := do
  let unrolled := Tree.unroll bytes
  let file ← unrolled.result
  if removeAbbrevs then encodePlain file
  else
    let tables := (Synthesis.extend (Census.ofFile file) unrolled.tables).buildLookups
    (encodeWith (Selection.choose tables file.blocks) file).1

/-- Which reports an analysis has. -/
structure Reports where
  distributions : Bool := false
  tries : Bool := false
  frequencies : Bool := false
  deriving DecidableEq, Repr

/-- Some report is asked for. -/
def Reports.any (reports : Reports) : Bool :=
  reports.distributions || reports.tries || reports.frequencies

/-- The reports on a file. -/
def analyze (bytes : Array UInt8) (reports : Reports) : Except Error String := do
  let unrolled := Tree.unroll bytes
  let file ← unrolled.result
  let census := Census.ofFile file
  let frequencies :=
    if reports.frequencies then Census.frequencyText census unrolled.tables else ""
  let distributions :=
    if reports.distributions then census.text Census.blockLayout "" else ""
  let tries :=
    if reports.tries then (Synthesis.extend census unrolled.tables).buildLookups.lookupText else ""
  return frequencies ++ distributions ++ tries

/-- The trace of the abbreviations that a file defines, and of the new ones if it is synthesized
for. -/
def trace (bytes : Array UInt8) (synthesizes : Bool) : String :=
  let unrolled := Tree.unroll bytes
  let defined := String.join (unrolled.added.map fun (block, shape) => abbrevLine block shape)
  match unrolled.result with
  | .error _ => defined
  | .ok file =>
      if synthesizes then
        defined ++ Synthesis.proposalsText
          (Synthesis.proposals (Census.ofFile file) unrolled.tables)
      else defined

end Bitcode.Compression
