import WordTemplate.Files.Tree
import WordTemplate.Template
import WordTemplate.Text.Blank
import WordTemplate.Toml.Reader

/-!
Settings: which parts of a package are filled, and how images are downloaded.
-/

namespace WordTemplate

structure Settings where
  parts : List String := Template.defaultPatterns
  /-- In seconds. -/
  downloadTimeout : Nat := 30
  userAgent : Option String := none
  /-- The file that the settings come from. -/
  path : Option String := none
deriving DecidableEq, Repr

namespace Settings

/-- What is wrong with settings that could be read. -/
inductive Fault
  | noParts
  | emptyPart
  | zeroTimeout
  | emptyUserAgent
deriving DecidableEq, Repr

def Fault.message : Fault → String
  | noParts => "template.parts cannot be empty"
  | emptyPart => "template.parts cannot contain empty patterns"
  | zeroTimeout => "images.download_timeout must be greater than 0"
  | emptyUserAgent => "images.user_agent cannot be empty"

def fault? (settings : Settings) : Option Fault :=
  if settings.parts.isEmpty then some .noParts
  else if settings.parts.any String.isEmpty then some .emptyPart
  else if settings.downloadTimeout = 0 then some .zeroTimeout
  else if settings.userAgent.any fun agent => Text.isAllBlank agent.toList then some .emptyUserAgent
  else none

end Settings

inductive SettingsError
  | notFound (path : String)
  | file (error : FileError)
  /-- No TOML, or a value of the wrong type. -/
  | malformed
  | invalid (fault : Settings.Fault)
  | missingVariable (field name : String)
deriving DecidableEq, Repr

namespace SettingsError

def message : SettingsError → String
  | notFound path => "Configuration file not found: " ++ path
  | file error => "I/O error: " ++ error.message
  | malformed => "TOML parse error:"
  | invalid fault => "Configuration error: " ++ fault.message
  | missingVariable field name =>
    "Environment variable error in " ++ field ++ ": $\x7b" ++ name ++ "\x7d not set"

end SettingsError

namespace Settings

def validate (settings : Settings) : Except SettingsError Settings :=
  match settings.fault? with
  | some fault => .error (.invalid fault)
  | none => .ok settings

/-! Reading -/

open Toml (Value Entries)

/-- The fields of a record stand in a table by name, or in an array in order; an array may end early
and may go on behind the last field. A moment counts as a table without any of them. -/
def fields? (names : List String) : Value → Option (List (Option Value))
  | .table _ entries => some (names.map (Named.get? entries))
  | .array items => some (takeFields names items)
  | .tables items => some (takeFields names items)
  | .moment => some (takeFields names [])
  | _ => none
where
  takeFields : List String → List Value → List (Option Value)
    | [], _ => []
    | _ :: names, [] => none :: takeFields names []
    | _ :: names, item :: items => some item :: takeFields names items

def text? : Value → Option String
  | .string text => some text
  | _ => none

def texts? : Value → Option (List String)
  | .array items => items.mapM text?
  | .tables items => items.mapM text?
  | _ => none

def maxTimeout : Int := 0xFFFFFFFFFFFFFFFF

def seconds? : Value → Option Nat
  | .integer value => if 0 ≤ value && value ≤ maxTimeout then some value.toNat else none
  | _ => none

def optional? {α : Type} (read : Value → Option α) (missing : α) : Option Value → Option α
  | some value => read value
  | none => some missing

def readTemplate? (settings : Settings) (value : Value) : Option Settings := do
  match ← fields? ["parts"] value with
  | [parts] =>
    let parts ← optional? texts? settings.parts parts
    return { settings with parts }
  | _ => none

def readImages? (settings : Settings) (value : Value) : Option Settings := do
  match ← fields? ["download_timeout", "user_agent"] value with
  | [timeout, agent] =>
    let downloadTimeout ← optional? seconds? settings.downloadTimeout timeout
    let userAgent ← optional? (fun value => (text? value).map some) settings.userAgent agent
    return { settings with downloadTimeout, userAgent }
  | _ => none

/-- Unknown entries do not matter; what is missing keeps its default. -/
def ofEntries? (entries : Entries) : Option Settings := do
  let settings ← optional? (readTemplate? {}) {} (Named.get? entries "template")
  optional? (readImages? settings) settings (Named.get? entries "images")

def ofText (text : String) : Except SettingsError Settings :=
  match Toml.read? text with
  | none => .error .malformed
  | some entries =>
    match ofEntries? entries with
    | some settings => .ok settings
    | none => .error .malformed

end Settings

end WordTemplate
