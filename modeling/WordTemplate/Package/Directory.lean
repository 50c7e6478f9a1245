import WordTemplate.Files.Host
import WordTemplate.Package.Basic

/-!
Packages as directories: every part is a file whose path from the directory is the name of the part.
-/

namespace WordTemplate

/-- A file or directory that could not be read or written. -/
structure DirectoryError where
  path : String
deriving DecidableEq, Repr

namespace DirectoryError

def message (error : DirectoryError) : String :=
  "I/O error at " ++ error.path

end DirectoryError

namespace Package

variable {m : Type → Type} [Monad m] [Host m]

def readDirectory (directory : String) : m (Except DirectoryError Package) := do
  match ← Host.filesBelow directory with
  | .ok files => return .ok (ofParts files)
  | .error _ => return .error ⟨directory⟩

/-- Writes one part; the directories that its name passes are made. -/
def writePart (directory name : String) (content : ByteArray) : m (Except DirectoryError Unit) := do
  let path := Path.join directory name
  match Path.parent? path with
  | some parent =>
    match ← Host.createDirectories (m := m) parent with
    | .error _ => return .error ⟨parent⟩
    | .ok () => writeFile path
  | none => writeFile path
where
  writeFile (path : String) : m (Except DirectoryError Unit) := do
    match ← Host.write path content with
    | .error _ => return .error ⟨path⟩
    | .ok () => return .ok ()

def writeParts (directory : String) : List (String × ByteArray) → m (Except DirectoryError Unit)
  | [] => return .ok ()
  | (name, content) :: rest => do
    match ← writePart directory name content with
    | .ok () => writeParts directory rest
    | .error error => return .error error

/-- Writes all parts in the order of their names, up to the first that cannot be written. -/
def writeDirectory (package : Package) (directory : String) : m (Except DirectoryError Unit) :=
  writeParts directory package.parts

end Package

end WordTemplate
