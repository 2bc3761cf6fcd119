import Bitcode.Command.Execution
import Bitcode.Command.Path

/-!
The command line.
-/

namespace Bitcode.Command

/-- The number of a failure of the system, which is reported with either sign. -/
def errorNumber (code : UInt32) : Nat :=
  min code.toNat (0 - code).toNat

/-- The file error behind a failure of the system. -/
def FileError.ofSystem (failure : IO.Error) : FileError :=
  let known (code : UInt32) : FileError :=
    match errorNumber code with
    | 16 => .busy
    | 20 => .notDirectory
    | 21 => .isDirectory
    | 36 => .tooLong
    | _ => .other (toString failure)
  match failure with
  | .noFileOrDirectory _ _ _ => .notFound
  | .inappropriateType _ code _ => known code
  | .resourceBusy code _ => known code
  | .invalidArgument _ code _ => known code
  | failure => .other (toString failure)

/-- The result of an action, with its failure as a file error. -/
def attempt {α : Type} (action : IO α) : IO (Except FileError α) := do
  try return .ok (← action)
  catch failure => return .error (.ofSystem failure)

/-- Everything that a stream still holds. -/
partial def readAll (stream : IO.FS.Stream) (bytes : ByteArray) : IO ByteArray := do
  let chunk ← stream.read 65536
  if chunk.isEmpty then return bytes else readAll stream (bytes ++ chunk)

/-- A path at which a new file can be built up before it takes its place. -/
def stagingPath (path : String) : IO String := do
  let number ← IO.rand 100000 999999
  return Path.beside path s!".tmp{number}"

instance : Host IO where
  readStandard := return (← readAll (← IO.getStdin) .empty).data
  readFile path := attempt do return (← IO.FS.readBinFile path).data
  stage path := attempt do
    let staged ← stagingPath path
    IO.FS.writeBinFile staged .empty
    IO.FS.removeFile staged
  replaceFile path bytes := attempt do
    let staged ← stagingPath path
    IO.FS.writeBinFile staged ⟨bytes⟩
    try IO.FS.rename staged path
    catch failure =>
      IO.FS.removeFile staged
      throw failure

end Bitcode.Command

/-- Run the command and print what it says. -/
def main (arguments : List String) : IO UInt32 := do
  let outcome ← (Bitcode.Command.run arguments : IO Bitcode.Command.Outcome)
  (← IO.getStderr).putStr outcome.stderr
  let stdout ← IO.getStdout
  stdout.write ⟨outcome.stdout⟩
  stdout.flush
  return UInt32.ofNat outcome.code
