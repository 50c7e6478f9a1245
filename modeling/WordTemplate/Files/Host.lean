import WordTemplate.Files.Tree

/-!
What a command uses of the machine it runs on: files, directories and environment variables. One
such machine is a value that keeps them all.
-/

namespace WordTemplate

class Host (m : Type → Type) where
  workingDirectory : m String
  environmentValue? : String → m (Option String)
  isPresent : String → m Bool
  isDirectory : String → m Bool
  read : String → m (Except FileError ByteArray)
  /-- All files below a directory, each with its path from there. -/
  filesBelow : String → m (Except FileError (List (String × ByteArray)))
  createDirectory : String → m (Except FileError Unit)
  write : String → ByteArray → m (Except FileError Unit)

namespace Host

variable {m : Type → Type} [Monad m] [Host m]

def readText (path : String) : m (Except FileError String) := do
  match ← Host.read path with
  | .error error => return .error error
  | .ok content =>
    match String.fromUTF8? content with
    | some text => return .ok text
    | none => return .error .notText

/-- The directories among a path and its ancestors that are missing, outermost first, up to the
nearest one that is there or could be made. -/
def missingDirectories : List String → m (Except FileError (List String))
  | [] => return .ok []
  | path :: rest => do
    if (Path.parent? path).isNone then return .ok []
    match ← createDirectory path with
    | .ok () => return .ok []
    | .error .notFound =>
      match ← missingDirectories rest with
      | .ok missing => return .ok (missing ++ [path])
      | .error error => return .error error
    | .error .alreadyExists =>
      if ← isDirectory path then return .ok [] else return .error .alreadyExists
    | .error error => return .error error

/-- Makes directories one after the other; those that are there already stay. -/
def createEach : List String → m (Except FileError Unit)
  | [] => return .ok ()
  | path :: rest => do
    match ← createDirectory path with
    | .ok () => createEach rest
    | .error error =>
      if error = .alreadyExists && (← isDirectory path) then createEach rest
      else return .error error

def createDirectories (path : String) : m (Except FileError Unit) := do
  match ← missingDirectories (Path.ancestors path) with
  | .ok missing => createEach missing
  | .error error => return .error error

end Host

structure Machine where
  files : FileTree := {}
  environment : List (String × String) := []

namespace Machine

/-- Applies a change to the files, if it succeeds. -/
def change (change : FileTree → Except FileError FileTree) :
    StateM Machine (Except FileError Unit) :=
  fun machine =>
    match change machine.files with
    | .ok files => (.ok (), { machine with files })
    | .error error => (.error error, machine)

instance : Host (StateM Machine) where
  workingDirectory machine := ("/" ++ "/".intercalate machine.files.workingDirectory, machine)
  environmentValue? name machine := (machine.environment.lookup name, machine)
  isPresent path machine := (machine.files.isPresent path, machine)
  isDirectory path machine := (machine.files.isDirectory path, machine)
  read path machine := (machine.files.read path, machine)
  filesBelow path machine := (machine.files.filesBelow path, machine)
  createDirectory path := change fun files => files.createDirectory path
  write path content := change fun files => files.write path content

end Machine

end WordTemplate
