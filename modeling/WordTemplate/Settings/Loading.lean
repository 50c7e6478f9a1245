import WordTemplate.Files.Host
import WordTemplate.Settings.Basic
import WordTemplate.Settings.Expansion

/-!
Loading settings from a file: a given one, or the nearest one from the working directory upwards.
-/

namespace WordTemplate.Settings

def fileName : String := "docxt.toml"

/-- Values that win over those of the file. -/
structure Overrides where
  parts : Option (List String) := none
  downloadTimeout : Option Nat := none
  userAgent : Option String := none

def override (settings : Settings) (overrides : Overrides) : Settings :=
  { settings with
    parts := overrides.parts.getD settings.parts
    downloadTimeout := overrides.downloadTimeout.getD settings.downloadTimeout
    userAgent := overrides.userAgent.or settings.userAgent }

/-! Variables -/

def variableNames (settings : Settings) : List String :=
  (settings.parts ++ settings.userAgent.toList).flatMap variablesOf

def expandField (lookUp : String → Option String) (field text : String) :
    Except SettingsError String :=
  match expand lookUp text with
  | .ok text => .ok text
  | .error name => .error (.missingVariable field name)

/-- Expands patterns, the first of which is at a position, and trims them. -/
def expandParts (lookUp : String → Option String) (position : Nat) :
    List String → Except SettingsError (List String)
  | [] => .ok []
  | part :: rest => do
    let part ← expandField lookUp ("template.parts[" ++ toString position ++ "]") part
    let rest ← expandParts lookUp (position + 1) rest
    return String.ofList (Text.trim part.toList) :: rest

def expandAll (lookUp : String → Option String) (settings : Settings) :
    Except SettingsError Settings := do
  let parts ← expandParts lookUp 0 settings.parts
  let userAgent ←
    match settings.userAgent with
    | some agent => (expandField lookUp "images.user_agent" agent).map some
    | none => .ok none
  return { settings with parts, userAgent }

/-! Files -/

variable {m : Type → Type} [Monad m] [Host m]

/-- The values of those variables that have one. -/
def lookUpAll : List String → m (List (String × String))
  | [] => return []
  | name :: rest => do
    let others ← lookUpAll rest
    match ← Host.environmentValue? name with
    | some value => return (name, value) :: others
    | none => return others

/-- Settings from a file, with variables expanded. -/
def loadFile (path : String) : m (Except SettingsError Settings) := do
  match ← Host.readText path with
  | .error error => return .error (.file error)
  | .ok text =>
    match ofText text with
    | .error error => return .error error
    | .ok settings =>
      let values ← lookUpAll settings.variableNames
      match settings.expandAll (fun name => values.lookup name) with
      | .error error => return .error error
      | .ok settings => return { settings with path := some path }.validate

/-- The first of some paths that is there. -/
def firstPresent? : List String → m (Option String)
  | [] => return none
  | path :: rest => do
    if ← Host.isPresent path then return some path else firstPresent? rest

/-- The nearest settings file. -/
def discover? : m (Option String) := do
  let directory ← Host.workingDirectory
  firstPresent? ((Path.ancestors directory).map fun directory => Path.join directory fileName)

/-- Settings from the given file or from the nearest one, or the default ones if there is none. -/
def loadBase (path : Option String) : m (Except SettingsError Settings) := do
  match path with
  | some path => if ← Host.isPresent path then loadFile path else return .error (.notFound path)
  | none =>
    match ← discover? with
    | some path => loadFile path
    | none => return .ok {}

/-- Overriding values are neither expanded nor trimmed, and are validated again. -/
def load (path : Option String) (overrides : Option Overrides) :
    m (Except SettingsError Settings) := do
  let loaded ← loadBase path
  return do
    let settings ← loaded
    match overrides with
    | some overrides => (settings.override overrides).validate
    | none => return settings

end WordTemplate.Settings
