import Bitcode.Command.Execution
import Bitcode.Command.Path
import Bitcode.Keyed

/-!
A directory of files as a value, in which the command can be run.

Paths can also lead out of the directory. The directories that enclose it are there, with the nodes in
them that are told.
-/

namespace Bitcode.Command

/-- What a path leads to. -/
inductive Node where
  | file (bytes : Array UInt8)
  | directory
  deriving DecidableEq, Repr, Inhabited

/-- A working directory with its surroundings, and the standard input of a command that runs in it. -/
structure Directory where
  nodes : List (Place × Node) := []
  stdin : Array UInt8 := #[]
  deriving DecidableEq, Repr, Inhabited

namespace Directory

/-- Put a node at a place. -/
def insert (directory : Directory) (place : Place) (node : Node) : Directory :=
  { directory with nodes := Keyed.update place node (fun _ => node) directory.nodes }

/-- Put a node in the working directory, along with the directories on the way to it. -/
def add (directory : Directory) (path : String) (node : Node) : Directory :=
  let names := (Path.names path).filter (!Path.idle ·)
  let onTheWay := (List.range names.length).drop 1
  let place (count : Nat) : Place := { origin := .above 0, names := names.take count }
  let surrounded := onTheWay.foldl (fun before count => before.insert (place count) .directory)
    directory
  surrounded.insert (place names.length) node

/-- A working directory with the given nodes, in given surroundings. -/
def ofNodes (nodes : List (String × Node)) (surroundings : Directory) : Directory :=
  nodes.foldl (fun directory (path, node) => directory.add path node) surroundings

/-- The node at a place. A place without names is a directory. -/
def node? (directory : Directory) (place : Place) : Option Node :=
  if place.names = [] then some .directory else directory.nodes.lookup place

/-- The nodes in the working directory that are not in a directory inside. -/
def topNodes (directory : Directory) : List (String × Node) :=
  directory.nodes.filterMap fun (place, node) =>
    match place with
    | { origin := .above 0, names := [name] } => some (name, node)
    | _ => none

/-- One step on a path, which has to start from a directory. -/
def enter (directory : Directory) (place : Place) (name : String) : Except FileError Place :=
  match directory.node? place with
  | none => .error .notFound
  | some (.file _) => .error .notDirectory
  | some .directory =>
      if Path.idle name then .ok place
      else if name = ".." then .ok place.parent
      else if Path.longestName < name.utf8ByteSize then .error .tooLong
      else .ok (place.child name)

/-- The place that the given names of a path lead to. -/
def walk (directory : Directory) (path : String) (names : List String) :
    Except FileError Place :=
  if Path.longest < path.utf8ByteSize then .error .tooLong
  else names.foldlM directory.enter (Path.start path)

/-- The place that a path leads to. -/
def resolve (directory : Directory) (path : String) : Except FileError Place :=
  directory.walk path (Path.names path)

/-- The bytes of the file at a path. -/
def read (directory : Directory) (path : String) : Except FileError (Array UInt8) := do
  match directory.node? (← directory.resolve path) with
  | none => throw .notFound
  | some .directory => throw .isDirectory
  | some (.file bytes) => return bytes

/-- A new file has to find a place beside the one at a path. -/
def stage (directory : Directory) (path : String) : Except FileError Unit :=
  discard (directory.resolve (Path.beside path ".tmp000000"))

/-- Put a new file in the place of the one at a path. The path has to end in a name. -/
def replace (directory : Directory) (path : String) (bytes : Array UInt8) :
    Except FileError Directory := do
  let names := (Path.names path).reverse
  let named := names.dropWhile (· = "")
  let place ← directory.walk path ((named.drop 1).reverse ++ ["."])
  let name := named.headD ""
  if Path.idle name || name = ".." then throw .busy
  let target ← directory.enter place name
  if named.length < names.length then throw .notDirectory
  match directory.node? target with
  | some .directory => throw .isDirectory
  | _ => return directory.insert target (.file bytes)

end Directory

instance : Host (StateM Directory) where
  readStandard := return (← get).stdin
  readFile path := return (← get).read path
  stage path := return (← get).stage path
  replaceFile path bytes := do
    match (← get).replace path bytes with
    | .ok directory =>
        set directory
        return .ok ()
    | .error cause => return .error cause

/-- Run the command in a directory. -/
def runIn (directory : Directory) (arguments : List String) : Outcome × Directory :=
  (run arguments : StateM Directory Outcome).run directory

end Bitcode.Command
