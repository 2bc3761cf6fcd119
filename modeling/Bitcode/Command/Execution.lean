import Bitcode.Command.Options

/-!
What the command does: it reads its input, makes sure that its output can be written, does its work,
and only then replaces the output.
-/

namespace Bitcode.Command

/-- Why a file cannot be read or written. -/
inductive FileError where
  | notFound
  | busy
  | notDirectory
  | isDirectory
  /-- A name or the whole path is too long. -/
  | tooLong
  | other (report : String)
  deriving DecidableEq, Repr, Inhabited

/-- The report of a file error. -/
def FileError.message : FileError → String
  | .notFound => "No such file or directory (os error 2)"
  | .busy => "Device or resource busy (os error 16)"
  | .notDirectory => "Not a directory (os error 20)"
  | .isDirectory => "Is a directory (os error 21)"
  | .tooLong => "File name too long (os error 36)"
  | .other report => report

/-- Why the command failed. -/
inductive Failure where
  | input (path : String) (cause : FileError)
  /-- There is no place for the output. -/
  | noPlace (path : String) (cause : FileError)
  | compression (cause : Compression.Error)
  | analysis (cause : Compression.Error)
  | output (path : String) (cause : FileError)
  deriving Inhabited

namespace Failure

/-- What the command was doing. -/
def context : Failure → String
  | .input path _ => s!"read input {path}"
  | .noPlace path _ => s!"open output {path}"
  | .compression _ => "compress bitcode"
  | .analysis _ => "analyze bitcode"
  | .output path _ => s!"write output {path}"

/-- The chain of causes, each the cause of the one before. -/
def causes : Failure → List String
  | .input _ cause => [cause.message]
  | .noPlace _ cause => [cause.message]
  | .compression cause => cause.messages
  | .analysis cause => cause.messages
  | .output _ cause => [s!"failed to persist temporary file: {cause.message}", cause.message]

/-- The lines of the causes. Several causes are numbered. -/
def causeLines (causes : List String) : List String :=
  match causes with
  | [cause] => [s!"    {cause}"]
  | causes => causes.zipIdx.map fun (cause, number) =>
      alignRight 5 (toString number) ++ ": " ++ cause

/-- The report of a failure. It ends with a line break unless the output has no place. -/
def text (failure : Failure) : String :=
  let lines := s!"Error: {failure.context}" :: "" :: "Caused by:" :: causeLines failure.causes
  let report := "\n".intercalate lines
  match failure with
  | .noPlace _ _ => report
  | _ => report ++ "\n"

end Failure

/-- The files and streams that the command works with. -/
class Host (m : Type → Type) where
  /-- All of standard input. -/
  readStandard : m (Array UInt8)
  /-- All of a file. -/
  readFile : String → m (Except FileError (Array UInt8))
  /-- Make sure that there is a place for a new file beside the one at a path. -/
  stage : String → m (Except FileError Unit)
  /-- Put a new file in the place of the one at a path. -/
  replaceFile : String → Array UInt8 → m (Except FileError Unit)

/-- How the command ended, with what it printed. -/
structure Outcome where
  code : Nat := 0
  stdout : Array UInt8 := #[]
  stderr : String := ""
  deriving DecidableEq, Repr, Inhabited

/-- The bytes of a text. -/
def encodeText (text : String) : Array UInt8 :=
  text.toUTF8.data

/-- The reports on a file or the compressed file. -/
def work (options : Options) (bytes : Array UInt8) : Except Failure (Array UInt8) :=
  if options.reports.any then
    match Compression.analyze bytes options.reports with
    | .ok text => .ok (encodeText text)
    | .error cause => .error (.analysis cause)
  else
    (Compression.compress bytes (options.has .removeAbbrevs)).mapError .compression

/-- What the work says about abbreviations. New ones are synthesized for compression and for
lookup tries. -/
def traceText (options : Options) (bytes : Array UInt8) : String :=
  if options.has .trace then
    Compression.trace bytes (!options.reports.any || options.reports.tries)
  else ""

variable {m : Type → Type} [Monad m] [Host m]

/-- Read the input. -/
def readInput (path : String) : ExceptT Failure m (Array UInt8) := do
  if path = standardPath then Host.readStandard (m := m)
  else
    match ← Host.readFile (m := m) path with
    | .ok bytes => return bytes
    | .error cause => throw (.input path cause)

/-- Make sure that the output can be written. -/
def stageOutput (path : String) : ExceptT Failure m Unit := do
  if path = standardPath then return
  match ← Host.stage (m := m) path with
  | .ok _ => return
  | .error cause => throw (.noPlace path cause)

/-- Write the output, and give back what goes to standard output. -/
def writeOutput (path : String) (bytes : Array UInt8) : ExceptT Failure m (Array UInt8) := do
  if path = standardPath then return bytes
  match ← Host.replaceFile (m := m) path bytes with
  | .ok _ => return #[]
  | .error cause => throw (.output path cause)

/-- Everything up to the work: its input, or what went wrong. -/
def prepare (options : Options) : ExceptT Failure m (Array UInt8) := do
  let bytes ← readInput options.inputPath
  stageOutput options.outputPath
  return bytes

/-- Do what the options ask for. The trace is printed before anything that goes wrong later. -/
def execute (options : Options) : m Outcome := do
  match ← (prepare options : ExceptT Failure m _).run with
  | .error failure => return { code := 1, stderr := failure.text }
  | .ok bytes =>
      let trace := traceText options bytes
      let written : ExceptT Failure m (Array UInt8) := do
        let result ← MonadExcept.ofExcept (work options bytes)
        writeOutput options.outputPath result
      match ← written.run with
      | .ok stdout => return { stdout, stderr := trace }
      | .error failure => return { code := 1, stderr := trace ++ failure.text }

/-- The name and the version of the command. -/
def versionText : String := "pnacl-bccompress 0.1.0\n"

/-- How the command is used. -/
def usageText : String :=
  "Usage: pnacl-bccompress [OPTIONS] [INPUT]\n\n" ++
  "  -o, --output <PATH>              Output file (\"-\" for stdout)\n" ++
  "      --abbreviations              Trace abbreviations as they're read and created\n" ++
  "      --show-distributions         Print the data distributions instead of compressing\n" ++
  "      --show-lookup-tries          Print the abbreviation lookup tries instead of compressing\n" ++
  "      --show-abbreviation-frequencies\n" ++
  "                                   Print how often each abbreviation is used instead of compressing\n" ++
  "      --remove-abbreviations       Write every record unabbreviated\n" ++
  "  -h, --help                       Print help\n" ++
  "  -V, --version                    Print version\n"

/-- Run the command with its arguments. -/
def run (arguments : List String) : m Outcome :=
  match Invocation.ofArguments arguments with
  | .run options => execute options
  | .version => return { stdout := encodeText versionText }
  | .help => return { stdout := encodeText usageText }
  | .misuse => return { code := 2, stderr := usageText }

end Bitcode.Command
