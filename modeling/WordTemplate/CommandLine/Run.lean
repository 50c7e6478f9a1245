import WordTemplate.CommandLine.Arguments
import WordTemplate.Package.Directory

/-!
Carrying out commands: filling the package in a directory, and listing the placeholders or the text
of one.
-/

namespace WordTemplate.CommandLine

inductive CommandError
  | sameDirectory
  | noPackage (path : String)
  | settings (error : SettingsError)
  | file (error : FileError)
  | directory (error : DirectoryError)
  | template (error : TemplateError)
  | params (error : ParamsError)
deriving DecidableEq, Repr

namespace CommandError

def message : CommandError → String
  | sameDirectory => "output directory must differ from the package directory"
  | noPackage path => "package directory not found: " ++ path
  | settings error => error.message
  | file error => error.message
  | directory error => error.message
  | template error => error.message
  | params error => error.message

end CommandError

structure Output where
  results : String := ""
  notes : String := ""

structure Outcome where
  code : Nat
  output : Output := {}

abbrev Run (m : Type → Type) := ExceptT CommandError (StateT Output m)

variable {m : Type → Type} [Monad m] [Host m]

def result (line : String) : Run m Unit :=
  modify fun output => { output with results := output.results ++ line ++ "\n" }

def note (line : String) : Run m Unit :=
  modify fun output => { output with notes := output.notes ++ line ++ "\n" }

/-- Does something on the machine, and names the command error if it fails. -/
def attempt {ε α : Type} (wrap : ε → CommandError) (action : m (Except ε α)) : Run m α := do
  match ← (liftM action : StateT Output m (Except ε α)) with
  | .ok value => return value
  | .error error => throw (wrap error)

def isDirectory (path : String) : Run m Bool :=
  ExceptT.lift (StateT.lift (Host.isDirectory path))

def openTemplate (config : Option String) (overrides : Settings.Overrides) (directory : String) :
    Run m Template := do
  if !(← isDirectory directory) then throw (.noPackage directory)
  let settings ← attempt .settings (Settings.load config (some overrides))
  let package ← attempt .directory (Package.readDirectory directory)
  match Template.openPackage package settings.parts with
  | .ok template => return template
  | .error error => throw (.template error)

def readParams (path : String) : Run m Params := do
  let content ← attempt .file (Host.read path)
  match Params.ofBytes content with
  | .ok params => return params
  | .error error => throw (.params error)

/-- The contents of those files that can be read. -/
def readFiles : List String → m (List (String × ByteArray))
  | [] => return []
  | path :: rest => do
    let others ← readFiles rest
    match ← Host.read path with
    | .ok content => return (path, content) :: others
    | .error _ => return others

/-- Images come from files; no address can be reached. -/
def imageSources (params : Params) : m ImageSources := do
  let files ← readFiles (params.all.filterMap fun param => param.image?.bind (·.path))
  return { file? := fun path => files.lookup path, download := fun _ => .error 404 }

def fillTemplate (template : Template) (params : Params) : Run m (Template × Nat) := do
  let sources ← ExceptT.lift (StateT.lift (imageSources params))
  return template.apply sources params

def render (config : Option String) (directory paramsPath output : String)
    (overrides : Settings.Overrides) : Run m Unit := do
  if Path.same output directory then throw .sameDirectory
  let template ← openTemplate config overrides directory
  let params ← readParams paramsPath
  note ("Rendering " ++ directory ++ " with " ++ paramsPath)
  let (template, count) ← fillTemplate template params
  attempt .directory (template.package.writeDirectory output)
  note ("Rendered " ++ toString count ++ " part(s) into " ++ output)
  let leftovers := template.placeholders
  if !leftovers.isEmpty then
    note (toString leftovers.length ++ " placeholder(s) left without data: " ++
      ", ".intercalate leftovers)

/-- Keeps the first of equal texts. -/
def distinct : List String → List String
  | [] => []
  | text :: rest => text :: (distinct rest).filter (· != text)

def listPlaceholders (config : Option String) (directory : String) (unique : Bool) :
    Run m Unit := do
  let template ← openTemplate config {} directory
  let found := template.placeholders
  (if unique then distinct found else found).forM result

def printText (config : Option String) (directory : String) (paramsPath : Option String) :
    Run m Unit := do
  let template ← openTemplate config {} directory
  let template ←
    match paramsPath with
    | some path => do
      let params ← readParams path
      let (template, _) ← fillTemplate template params
      pure template
    | none => pure template
  let text := template.plaintext
  if !text.isEmpty then result text

def carryOut (arguments : Arguments) : Run m Unit :=
  match arguments.command with
  | .render package params output overrides =>
    render arguments.config package params output overrides
  | .placeholders package unique => listPlaceholders arguments.config package unique
  | .plaintext package params => printText arguments.config package params

def version : String := "docxt 0.1.0"

/-- The code of a command that failed, and of a command line that leads to none. -/
def failureCode : Nat := 1

def usageCode : Nat := 2

def configVariable : String := "DOCXT_CONFIG"

def run (arguments : List String) : m Outcome := do
  let environment ← Host.environmentValue? configVariable
  match read environment arguments with
  | .error .usage => return { code := usageCode }
  | .error .help => return { code := 0 }
  | .error .version => return { code := 0, output := { results := version ++ "\n" } }
  | .ok arguments =>
    match ← (carryOut arguments).run.run {} with
    | (.ok (), output) => return { code := 0, output }
    | (.error error, output) =>
      let notes := output.notes ++ "Error: " ++ error.message ++ "\n"
      return { code := failureCode, output := { output with notes } }

end WordTemplate.CommandLine
