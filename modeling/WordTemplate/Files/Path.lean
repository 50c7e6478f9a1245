import WordTemplate.Text.Pieces

/-!
Paths. A path is a text of names between slashes; it is absolute if it begins with a slash.
Repeated and trailing slashes do not count, nor does a single dot, except at the beginning of a
relative path.
-/

namespace WordTemplate.Path

def isAbsolute (path : String) : Bool :=
  path.toList.head? = some '/'

/-- What stands between slashes, empty stretches included. -/
def steps (path : String) : List String :=
  (Text.pieces '/' path.toList).map String.ofList

/-- The names of a path. A dot that stands at the beginning counts as a name. -/
def names (path : String) : List String :=
  match steps path with
  | "." :: rest => "." :: rest.filter fun name => name != "" && name != "."
  | steps => steps.filter fun name => name != "" && name != "."

/-- Whether two paths consist of the same names. -/
def same (path other : String) : Bool :=
  isAbsolute path = isAbsolute other && names path = names other

/-- Drops trailing slashes and dots that do not count from a reversed path. -/
def dropUncounted : List Char → List Char
  | ['/'] => ['/']
  | '/' :: rest => dropUncounted rest
  | '.' :: '/' :: rest => dropUncounted ('/' :: rest)
  | path => path

/-- The path without its last name. The top of all paths and the empty path have no parent. -/
def parent? (path : String) : Option String :=
  match dropUncounted path.toList.reverse with
  | [] => none
  | ['/'] => none
  | reversed =>
    some (String.ofList (dropUncounted (reversed.dropWhile (· != '/'))).reverse)

def ancestorsTo : Nat → String → List String
  | 0, _ => []
  | length + 1, path =>
    path ::
      match parent? path with
      | some parent => ancestorsTo length parent
      | none => []

/-- The path, its parent, the parent of that and so on. A parent is shorter than its path. -/
def ancestors (path : String) : List String :=
  ancestorsTo (path.length + 1) path

/-- The last name, unless it leads to another directory than the one it stands in. -/
def fileName? (path : String) : Option String :=
  match (names path).getLast? with
  | some name => if name = "." || name = ".." then none else some name
  | none => none

/-- What follows the last dot of the last name, if the dot is not its first character. -/
def extension? (path : String) : Option String := do
  let name ← fileName? path
  let reversed := name.toList.reverse
  match reversed.dropWhile (· != '.') with
  | _ :: _ :: _ => some (String.ofList (reversed.takeWhile (· != '.')).reverse)
  | _ => none

/-- A path that starts from a directory; an absolute path stays as it is. -/
def join (directory path : String) : String :=
  if isAbsolute path || directory.isEmpty then path
  else if directory.toList.getLast? = some '/' then directory ++ path
  else directory ++ "/" ++ path

end WordTemplate.Path
