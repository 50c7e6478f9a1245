import WordTemplate.CommandLine.Run

/-!
The program: it carries out a command on the machine it was started on.
-/

namespace WordTemplate.Main

/-- The code by which a system tells reading a directory as a file from the reverse. -/
def directoryCode : UInt32 := 21

def fileErrorOf : IO.Error → FileError
  | .noFileOrDirectory .. => .notFound
  | .noSuchThing .. => .notFound
  | .alreadyExists .. => .alreadyExists
  | .inappropriateType _ code _ => if code = directoryCode then .isDirectory else .notDirectory
  | error => .other (toString error)

/-- Does something with a path, which is not empty. -/
def attempt {α : Type} (path : String) (action : IO α) : IO (Except FileError α) := do
  match FileTree.pathError? path with
  | some error => return .error error
  | none =>
    match ← action.toBaseIO with
    | .ok value => return .ok value
    | .error error => return .error (fileErrorOf error)

/-- All files below a directory. Files that cannot be read are left out. -/
partial def filesBelow (path start : String) : IO (List (String × ByteArray)) := do
  let directory := (← IO.currentDir) / path
  let mut files := []
  for entry in (← directory.readDir) do
    let inner := Path.join path entry.fileName
    let name := start ++ entry.fileName
    match (← entry.path.symlinkMetadata).type with
    | .dir => files := files ++ (← filesBelow inner (name ++ "/"))
    | _ =>
      match ← attempt inner (IO.FS.readBinFile inner) with
      | .ok content => files := files ++ [(name, content)]
      | .error _ => pure ()
  return files

instance : Host IO where
  workingDirectory := return (← IO.currentDir).toString
  environmentValue? name := IO.getEnv name
  isPresent path := do
    return !path.isEmpty && (← ((← IO.currentDir) / path).pathExists)
  isDirectory path := do
    return !path.isEmpty && (← ((← IO.currentDir) / path).isDir)
  read path := attempt path (IO.FS.readBinFile path)
  filesBelow path := attempt path (filesBelow path "")
  createDirectory path := attempt path (IO.FS.createDir path)
  write path content := attempt path (IO.FS.writeBinFile path content)

def runOn (arguments : List String) : IO UInt32 := do
  let outcome : CommandLine.Outcome ← CommandLine.run arguments
  IO.print outcome.output.results
  IO.eprint outcome.output.notes
  return UInt32.ofNat outcome.code

end WordTemplate.Main

def main (arguments : List String) : IO UInt32 :=
  WordTemplate.Main.runOn arguments
