import WordTemplate.Settings.Loading

/-!
Command lines. Options may stand before the command and behind it. An option that takes a value
finds it behind an equals sign, in the same argument behind its letter, or in the next argument.
-/

namespace WordTemplate.CommandLine

inductive OptionName
  | config
  | verbose
  | version
  | help
  | params
  | output
  | part
  | downloadTimeout
  | userAgent
  | unique
deriving DecidableEq, Repr

/-- How an option is written, and whether it takes a value. -/
structure OptionForm where
  name : OptionName
  letter : Option Char
  word : String
  takesValue : Bool

inductive CommandName
  | render
  | placeholders
  | plaintext
deriving DecidableEq, Repr

def CommandName.ofWord? (word : String) : Option CommandName :=
  [("render", render), ("placeholders", placeholders), ("plaintext", plaintext)].lookup word

def helpWord : String := "help"

def configForm : OptionForm := ⟨.config, some 'c', "config", true⟩
def verboseForm : OptionForm := ⟨.verbose, some 'v', "verbose", false⟩
def helpForm : OptionForm := ⟨.help, some 'h', "help", false⟩
def versionForm : OptionForm := ⟨.version, some 'V', "version", false⟩
def paramsForm : OptionForm := ⟨.params, some 'p', "params", true⟩

def commonForms : List OptionForm :=
  [configForm, verboseForm, helpForm]

/-- Options before the command. -/
def topForms : List OptionForm :=
  commonForms ++ [versionForm]

/-- Options behind the command. -/
def CommandName.forms : CommandName → List OptionForm
  | render =>
    commonForms ++
      [paramsForm, ⟨.output, some 'o', "output", true⟩, ⟨.part, none, "part", true⟩,
        ⟨.downloadTimeout, none, "download-timeout", true⟩,
        ⟨.userAgent, none, "user-agent", true⟩]
  | placeholders => commonForms ++ [⟨.unique, some 'u', "unique", false⟩]
  | plaintext => commonForms ++ [paramsForm]

/-- Why a command line leads to no command. -/
inductive Halt
  | usage
  | help
  | version
deriving DecidableEq, Repr

/-- What was read so far: options with their values and the package directory, an option that waits
for its value, and whether everything that follows is no option. -/
structure Given where
  options : List (OptionName × String) := []
  package : Option String := none
  pending : Option OptionForm := none
  escaped : Bool := false

namespace Given

def value? (given : Given) (name : OptionName) : Option String :=
  given.options.lookup name

def values (given : Given) (name : OptionName) : List String :=
  (given.options.filter fun option => option.1 = name).map Prod.snd

def has (given : Given) (name : OptionName) : Bool :=
  (given.value? name).isSome

end Given

def maxSeconds : Nat := 0xFFFFFFFFFFFFFFFF

/-- A number of seconds; a plus sign before it counts for nothing. -/
def seconds? (text : String) : Option Nat :=
  let digits :=
    match text.toList with
    | '+' :: digits => digits
    | digits => digits
  (Text.number? 10 digits).filter fun seconds => seconds ≤ maxSeconds

/-- Whether a text can be the value of an option. Paths are not empty. -/
def isValue (name : OptionName) (value : String) : Bool :=
  match name with
  | .config | .params | .output => !value.isEmpty
  | .downloadTimeout => (seconds? value).isSome
  | _ => true

/-- Only patterns may be given more than once at one place. -/
def accept (given : Given) (name : OptionName) (value : String) : Except Halt Given :=
  match name with
  | .help => .error .help
  | .version => .error .version
  | _ =>
    if (name != .part && given.has name) || !isValue name value then .error .usage
    else .ok { given with options := given.options ++ [(name, value)], pending := none }

def readWord (forms : List OptionForm) (given : Given) (text : List Char) : Except Halt Given :=
  let word := String.ofList (text.takeWhile (· != '='))
  match forms.find? fun form => form.word = word with
  | none => .error .usage
  | some form =>
    match text.dropWhile (· != '='), form.takesValue with
    | [], true => .ok { given with pending := some form }
    | [], false => accept given form.name ""
    | _ :: value, true => accept given form.name (String.ofList value)
    | _ :: _, false => .error .usage

/-- Reads options by their letters. The first that takes a value takes all that follows it. -/
def readLetters (forms : List OptionForm) (given : Given) : List Char → Except Halt Given
  | [] => .ok given
  | letter :: rest =>
    match forms.find? fun form => form.letter = some letter with
    | none => .error .usage
    | some form =>
      if form.takesValue then
        match rest with
        | [] => .ok { given with pending := some form }
        | '=' :: value => accept given form.name (String.ofList value)
        | value => accept given form.name (String.ofList value)
      else do
        let given ← accept given form.name ""
        readLetters forms given rest

/-- Takes an argument that is no option. A command takes one, the directory of a package. -/
def readPlain (takesPackage : Bool) (given : Given) (argument : String) : Except Halt Given :=
  if takesPackage && given.package.isNone && given.pending.isNone && !argument.isEmpty then
    .ok { given with package := some argument }
  else .error .usage

def readArgument (forms : List OptionForm) (takesPackage : Bool) (given : Given)
    (argument : String) : Except Halt Given :=
  if given.escaped then readPlain takesPackage given argument
  else
    match argument.toList, given.pending with
    | ['-', '-'], none => .ok { given with escaped := true }
    | '-' :: '-' :: text, none => readWord forms given text
    | '-' :: letter :: letters, none => readLetters forms given (letter :: letters)
    | '-' :: _ :: _, some _ => .error .usage
    | _, some form => accept given form.name argument
    | _, none => readPlain takesPackage given argument

def readArguments (forms : List OptionForm) (given : Given) : List String → Except Halt Given
  | [] => if given.pending.isSome then .error .usage else .ok given
  | argument :: rest => do
    let given ← readArgument forms true given argument
    readArguments forms given rest

/-- What is given before the command, the command, and what is given behind it. -/
structure Split where
  before : Given
  command : CommandName
  behind : Given

def haltForHelp : List String → Halt
  | [] => .help
  | [word] => if word = helpWord || (CommandName.ofWord? word).isSome then .help else .usage
  | _ => .usage

/-- Reads options up to the command. The value of an option is no command. -/
def readTop (given : Given) : List String → Except Halt Split
  | [] => .error .usage
  | argument :: rest =>
    let free := given.pending.isNone && !given.escaped
    match if free then CommandName.ofWord? argument else none with
    | some command => do
      let behind ← readArguments command.forms {} rest
      return ⟨given, command, behind⟩
    | none =>
      if free && argument = helpWord then .error (haltForHelp rest)
      else do
        let given ← readArgument topForms false given argument
        readTop given rest

/-! Commands -/

inductive Command
  | render (package params output : String) (overrides : Settings.Overrides)
  | placeholders (package : String) (unique : Bool)
  | plaintext (package : String) (params : Option String)

structure Arguments where
  /-- The settings file. -/
  config : Option String
  command : Command

/-- Values of options win over settings; patterns only if there are any. -/
def overrides (given : Given) : Settings.Overrides where
  parts := if (given.values .part).isEmpty then none else some (given.values .part)
  downloadTimeout := (given.value? .downloadTimeout).bind seconds?
  userAgent := given.value? .userAgent

def command? (name : CommandName) (given : Given) : Option Command := do
  let package ← given.package
  match name with
  | .render =>
    let params ← given.value? .params
    let output ← given.value? .output
    return .render package params output (overrides given)
  | .placeholders => return .placeholders package (given.has .unique)
  | .plaintext => return .plaintext package (given.value? .params)

/-- The settings file given behind the command wins over the one before it, and both over the
environment, from which one is taken at every place without option. -/
def configOf (environment : Option String) (split : Split) : Except Halt (Option String) :=
  let before := split.before.value? .config
  let behind := split.behind.value? .config
  if environment = some "" && (before.isNone || behind.isNone) then .error .usage
  else .ok (behind.or (before.or environment))

/-- Reads a command line. The environment may name a settings file. -/
def read (environment : Option String) (arguments : List String) : Except Halt Arguments := do
  let split ← readTop {} arguments
  match command? split.command split.behind with
  | none => throw .usage
  | some command =>
    let config ← configOf environment split
    return { config, command }

end WordTemplate.CommandLine
