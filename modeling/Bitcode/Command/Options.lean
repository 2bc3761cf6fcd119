import Bitcode.Compression.Compressor

/-!
The arguments of the command.

Arguments are read from left to right, and the first one that settles what to do wins over all that
follow it.
-/

namespace Bitcode.Command

/-- The path that stands for standard input and standard output. -/
def standardPath : String := "-"

/-- A switch of the command, which is either given or not. -/
inductive Flag where
  | trace
  | distributions
  | tries
  | frequencies
  | removeAbbrevs
  deriving DecidableEq, Repr

/-- The flag of a long option. -/
def Flag.ofName? (name : String) : Option Flag :=
  match name with
  | "abbreviations" => some .trace
  | "show-distributions" => some .distributions
  | "show-lookup-tries" => some .tries
  | "show-abbreviation-frequencies" => some .frequencies
  | "remove-abbreviations" => some .removeAbbrevs
  | _ => none

/-- What has been asked for by the arguments so far. -/
structure Options where
  input : Option String := none
  output : Option String := none
  flags : List Flag := []
  deriving DecidableEq, Repr, Inhabited

namespace Options

/-- The path that is read. -/
def inputPath (options : Options) : String :=
  options.input.getD standardPath

/-- The path that is written. -/
def outputPath (options : Options) : String :=
  options.output.getD standardPath

/-- A flag is given. -/
def has (options : Options) (flag : Flag) : Bool :=
  options.flags.contains flag

/-- The reports that are asked for. -/
def reports (options : Options) : Compression.Reports where
  distributions := options.has .distributions
  tries := options.has .tries
  frequencies := options.has .frequencies

/-- Name the input. There is one input, and its path is not empty. -/
def setInput (options : Options) (path : String) : Option Options :=
  if options.input.isSome || path.isEmpty then none
  else some { options with input := some path }

/-- Name the output. There is one output, and its path is not empty. -/
def setOutput (options : Options) (path : String) : Option Options :=
  if options.output.isSome || path.isEmpty then none
  else some { options with output := some path }

/-- Add a flag, which is given once at most. -/
def addFlag (options : Options) (flag : Flag) : Option Options :=
  if options.has flag then none
  else some { options with flags := options.flags ++ [flag] }

end Options

/-- What the command is to do. -/
inductive Invocation where
  | run (options : Options)
  | version
  | help
  /-- The arguments make no sense. -/
  | misuse
  deriving DecidableEq, Repr, Inhabited

/-- The form of an argument. -/
inductive Argument where
  /-- A path. -/
  | plain (text : String)
  /-- The mark after which there are only paths. -/
  | separator
  /-- An option with a long name, and the value after its equals sign. -/
  | long (name : String) (value : Option String)
  /-- Options of one letter. -/
  | short (letters : List Char)
  deriving DecidableEq, Repr

/-- Split a long option at its first equals sign. -/
def Argument.ofLong (text : List Char) : Argument :=
  let name := String.ofList (text.takeWhile (· ≠ '='))
  match text.dropWhile (· ≠ '=') with
  | [] => .long name none
  | _ :: value => .long name (some (String.ofList value))

/-- Tell options from paths. A lone hyphen is a path. -/
def Argument.ofText (text : String) : Argument :=
  match text.toList with
  | ['-'] => .plain text
  | ['-', '-'] => .separator
  | '-' :: '-' :: rest => .ofLong rest
  | '-' :: letters => .short letters
  | _ => .plain text

/-- How far the arguments have been understood. -/
inductive Progress where
  /-- Options and paths may follow. -/
  | reading (options : Options)
  /-- The path of the output has to follow. -/
  | awaiting (options : Options)
  /-- Only paths may follow. -/
  | verbatim (options : Options)
  /-- Nothing that follows matters. -/
  | decided (invocation : Invocation)
  deriving DecidableEq, Repr, Inhabited

namespace Progress

/-- Go on with changed options, if the change is allowed. -/
def resume (next : Options → Progress) (changed : Option Options) : Progress :=
  (changed.map next).getD (.decided .misuse)

/-- Understand options of one letter. A value may stand right after its letter. -/
def readLetters (options : Options) (letters : List Char) : Progress :=
  match letters with
  | ['o'] => .awaiting options
  | 'o' :: '=' :: path => resume .reading (options.setOutput (String.ofList path))
  | 'o' :: path => resume .reading (options.setOutput (String.ofList path))
  | 'V' :: _ => .decided .version
  | 'h' :: _ => .decided .help
  | _ => .decided .misuse

/-- Understand a long option. Only the output has a value. -/
def readLong (options : Options) (name : String) (value : Option String) : Progress :=
  match name, value with
  | "output", none => .awaiting options
  | "output", some path => resume .reading (options.setOutput path)
  | "version", none => .decided .version
  | "help", none => .decided .help
  | _, none => resume .reading ((Flag.ofName? name).bind options.addFlag)
  | _, some _ => .decided .misuse

/-- Understand one more argument. -/
def read (progress : Progress) (text : String) : Progress :=
  match progress with
  | .decided invocation => .decided invocation
  | .verbatim options => resume .verbatim (options.setInput text)
  | .awaiting options =>
      match Argument.ofText text with
      | .plain path => resume .reading (options.setOutput path)
      | _ => .decided .misuse
  | .reading options =>
      match Argument.ofText text with
      | .plain path => resume .reading (options.setInput path)
      | .separator => .verbatim options
      | .long name value => readLong options name value
      | .short letters => readLetters options letters

/-- What to do when there are no more arguments. -/
def finish : Progress → Invocation
  | .reading options => .run options
  | .verbatim options => .run options
  | .awaiting _ => .misuse
  | .decided invocation => invocation

end Progress

/-- What the arguments ask for. -/
def Invocation.ofArguments (arguments : List String) : Invocation :=
  (arguments.foldl Progress.read (.reading {})).finish

end Bitcode.Command
