/-!
Paths and the places that they lead to.

A path is a text of names with slashes between them. A place is what is left of it after all steps
have been taken: where they began and the names from there.
-/

namespace Bitcode.Command

/-- The directory from which the names of a place lead on. -/
inductive Origin where
  | root
  /-- The directory so many levels above the working directory. -/
  | above (levels : Nat)
  deriving DecidableEq, Repr, Inhabited

/-- A directory and the names on the way from it. -/
structure Place where
  origin : Origin
  names : List String := []
  deriving DecidableEq, Repr, Inhabited

namespace Place

/-- The root of all directories. -/
def root : Place := { origin := .root }

/-- The working directory. -/
def working : Place := { origin := .above 0 }

/-- The place of a name in a directory. -/
def child (place : Place) (name : String) : Place :=
  { place with names := place.names ++ [name] }

/-- The directory that a place is in. The root is in itself. -/
def parent : Place → Place
  | { origin := .above levels, names := [] } => { origin := .above (levels + 1) }
  | { origin, names } => { origin, names := names.dropLast }

end Place

namespace Path

/-- The largest number of bytes in a path. -/
def longest : Nat := 4095

/-- The largest number of bytes in a name. -/
def longestName : Nat := 255

/-- The names of a path. Those between neighbouring slashes are empty. -/
def names (path : String) : List String :=
  path.splitOn "/"

/-- The place that a path leads on from. -/
def start (path : String) : Place :=
  if path.startsWith "/" then .root else .working

/-- A name that stays in its directory. -/
def idle (name : String) : Bool :=
  name = "" || name = "."

/-- The path without its last name, leaving aside names that stay where they are. -/
def parent (path : String) : String :=
  let before := (((names path).reverse.dropWhile idle).drop 1).dropWhile idle
  if before.isEmpty then
    if path.startsWith "/" then "/" else "."
  else "/".intercalate before.reverse

/-- The path to a new name in the directory that a path ends in. -/
def beside (path name : String) : String :=
  parent path ++ "/" ++ name

end Path

end Bitcode.Command
