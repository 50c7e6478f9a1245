import WordTemplate.Files.Path
import WordTemplate.Named

/-!
A tree of files and directories, with the directory that relative paths start from.
-/

namespace WordTemplate

inductive FileError
  | notFound
  | alreadyExists
  | notDirectory
  | isDirectory
  | nameTooLong
  | invalidName
  | notText
  | other (description : String)
deriving DecidableEq, Repr

namespace FileError

def message : FileError → String
  | notFound => "No such file or directory (os error 2)"
  | alreadyExists => "File exists (os error 17)"
  | notDirectory => "Not a directory (os error 20)"
  | isDirectory => "Is a directory (os error 21)"
  | nameTooLong => "File name too long (os error 36)"
  | invalidName => "file name contained an unexpected NUL byte"
  | notText => "stream did not contain valid UTF-8"
  | other description => description

end FileError

/-- The entries of a directory stand in the order of their names. -/
inductive Entry
  | file (content : ByteArray)
  | directory (entries : List (String × Entry))

namespace Entry

def empty : Entry :=
  directory []

def at? : Entry → List String → Option Entry
  | entry, [] => some entry
  | file _, _ :: _ => none
  | directory entries, name :: rest =>
    match Named.get? entries name with
    | some entry => entry.at? rest
    | none => none

/-- Puts an entry where names lead to; directories on the way are made. -/
def put : Entry → List String → Entry → Entry
  | _, [], new => new
  | directory entries, name :: rest, new =>
    directory (Named.insert name (((Named.get? entries name).getD empty).put rest new) entries)
  | file _, name :: rest, new => directory [(name, empty.put rest new)]

mutual

def files : Entry → List (List String × ByteArray)
  | file content => [([], content)]
  | directory entries => filesOf entries

def filesOf : List (String × Entry) → List (List String × ByteArray)
  | [] => []
  | (name, entry) :: rest =>
    (files entry).map (fun (names, content) => (name :: names, content)) ++ filesOf rest

end

end Entry

structure FileTree where
  top : Entry := .empty
  workingDirectory : List String := []

namespace FileTree

/-- The lengths in bytes from which on names and paths are too long. -/
def maxName : Nat := 255

def maxPath : Nat := 4095

def follow (top : Entry) (location : List String) : List String → Except FileError (List String)
  | [] => .ok location
  | step :: rest =>
    -- Every step has to start in a directory, also one that stays there.
    match top.at? location with
    | none => .error .notFound
    | some (.file _) => .error .notDirectory
    | some (.directory _) =>
      if maxName < step.utf8ByteSize then .error .nameTooLong
      else if step = "" || step = "." then follow top location rest
      else if step = ".." then follow top location.dropLast rest
      else follow top (location ++ [step]) rest

def origin (tree : FileTree) (path : String) : List String :=
  if Path.isAbsolute path then [] else tree.workingDirectory

def pathError? (path : String) : Option FileError :=
  if path.toList.contains '\x00' then some .invalidName
  else if path.isEmpty then some .notFound
  else if maxPath < path.utf8ByteSize then some .nameTooLong
  else none

def lookAt (tree : FileTree) (location : List String) : Except FileError (List String × Entry) :=
  match tree.top.at? location with
  | some entry => .ok (location, entry)
  | none => .error .notFound

def find (tree : FileTree) (path : String) : Except FileError (List String × Entry) :=
  match pathError? path with
  | some error => .error error
  | none => do
    let location ← follow tree.top (tree.origin path) (Path.steps path)
    tree.lookAt location

def isPresent (tree : FileTree) (path : String) : Bool :=
  (tree.find path).isOk

def isDirectory (tree : FileTree) (path : String) : Bool :=
  match tree.find path with
  | .ok (_, .directory _) => true
  | _ => false

def read (tree : FileTree) (path : String) : Except FileError ByteArray := do
  match ← tree.find path with
  | (_, .file content) => return content
  | (_, .directory _) => throw .isDirectory

def filesBelow (tree : FileTree) (path : String) :
    Except FileError (List (String × ByteArray)) := do
  match ← tree.find path with
  | (_, .file _) => throw .notDirectory
  | (_, .directory entries) =>
    return (Entry.filesOf entries).map fun (names, content) => ("/".intercalate names, content)

/-- Where something new at a path would be put: the directory that holds it and its name. A last
step that is no name leads to what is there already. -/
def place (tree : FileTree) (path : String) : Except FileError (List String × String) :=
  match pathError? path with
  | some error => .error error
  | none => do
    let steps := Path.steps path
    let directory ← follow tree.top (tree.origin path) (steps.dropLast ++ [""])
    let name := steps.getLastD ""
    if maxName < name.utf8ByteSize then throw .nameTooLong
    return (directory, name)

def isName (step : String) : Bool :=
  step != "" && step != "." && step != ".."

/-- Makes a directory. Slashes at the end of its path do not count. -/
def createDirectory (tree : FileTree) (path : String) : Except FileError FileTree := do
  let trimmed := String.ofList (path.toList.reverse.dropWhile (· = '/')).reverse
  if trimmed.isEmpty then throw (if path.isEmpty then .notFound else .alreadyExists)
  let (directory, name) ← tree.place trimmed
  if isName name && (tree.top.at? (directory ++ [name])).isNone then
    return { tree with top := tree.top.put (directory ++ [name]) .empty }
  else throw .alreadyExists

/-- Makes a file, or replaces the content of one. -/
def write (tree : FileTree) (path : String) (content : ByteArray) : Except FileError FileTree := do
  match tree.find path with
  | .ok (location, .file _) => return { tree with top := tree.top.put location (.file content) }
  | .ok (_, .directory _) => throw .isDirectory
  | .error .notFound =>
    let (directory, name) ← tree.place path
    if isName name then
      return { tree with top := tree.top.put (directory ++ [name]) (.file content) }
    else throw .isDirectory
  | .error error => throw error

end FileTree

end WordTemplate
