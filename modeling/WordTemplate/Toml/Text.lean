import WordTemplate.Text.Numeral

/-!
The small parts of TOML texts: blanks, comments, strings and keys. Every reader takes the text from
where its part begins and gives the text behind it.
-/

namespace WordTemplate.Toml

def isSpace (c : Char) : Bool :=
  c = ' ' || c = '\t'

def skipSpace (text : List Char) : List Char :=
  text.dropWhile isSpace

/-- Characters that stand in a line; of the control characters only the tab. -/
def isPrintable (c : Char) : Bool :=
  c = '\t' || (0x20 ≤ c.toNat && c.toNat != 0x7F)

def readNewline? : List Char → Option (List Char)
  | '\n' :: rest => some rest
  | '\r' :: '\n' :: rest => some rest
  | _ => none

def skipComment : List Char → List Char
  | '#' :: rest => rest.dropWhile isPrintable
  | text => text

/-- Reads the end of a line: blanks, a comment, and a line break or the end of the text. -/
def readLineEnd? (text : List Char) : Option (List Char) :=
  match skipComment (skipSpace text) with
  | [] => some []
  | rest => readNewline? rest

/-- Skips blanks, comments and line breaks. Each step takes a character at least. -/
def skipLinesFrom : Nat → List Char → List Char
  | 0, text => text
  | fuel + 1, text =>
    let rest := skipComment (skipSpace text)
    match readNewline? rest with
    | some rest => skipLinesFrom fuel rest
    | none => rest

def skipLines (text : List Char) : List Char :=
  skipLinesFrom (text.length + 1) text

/-! Strings -/

def readCode? (count : Nat) (text : List Char) : Option (Char × List Char) := do
  let digits := text.take count
  if digits.length = count then
    let code ← Text.number? 16 digits
    let c ← Text.charOfCode? code
    return (c, text.drop count)
  else none

def escaped? (c : Char) : Option Char :=
  [('"', '"'), ('\\', '\\'), ('b', '\x08'), ('e', '\x1b'), ('f', '\x0c'), ('n', '\n'), ('r', '\r'),
    ('t', '\t')].lookup c

def readEscape? : List Char → Option (Char × List Char)
  | 'x' :: rest => readCode? 2 rest
  | 'u' :: rest => readCode? 4 rest
  | 'U' :: rest => readCode? 8 rest
  | c :: rest => (escaped? c).map fun c => (c, rest)
  | [] => none

/-- Reads a basic string behind its opening quote. Each step takes a character at least. -/
def readBasicFrom? : Nat → List Char → Option (List Char × List Char)
  | 0, _ => none
  | _ + 1, [] => none
  | _ + 1, '"' :: rest => some ([], rest)
  | fuel + 1, '\\' :: rest => do
    let (c, rest) ← readEscape? rest
    let (others, rest) ← readBasicFrom? fuel rest
    return (c :: others, rest)
  | fuel + 1, c :: rest =>
    if isPrintable c then do
      let (others, rest) ← readBasicFrom? fuel rest
      return (c :: others, rest)
    else none

def readBasic? (text : List Char) : Option (List Char × List Char) :=
  readBasicFrom? (text.length + 1) text

def isLiteral (c : Char) : Bool :=
  isPrintable c && c != '\''

def readLiteral? (text : List Char) : Option (List Char × List Char) :=
  match text.dropWhile isLiteral with
  | '\'' :: rest => some (text.takeWhile isLiteral, rest)
  | _ => none

def skipFirstBreak (text : List Char) : List Char :=
  (readNewline? text).getD text

/-- A backslash at the end of a line: the text from the next character on that is no blank and no
line break. -/
def skipFold? (text : List Char) : Option (List Char) :=
  (readNewline? (skipSpace text)).map fun rest => dropBreaks (rest.length + 1) rest
where
  dropBreaks : Nat → List Char → List Char
    | 0, text => text
    | fuel + 1, text =>
      match readNewline? (skipSpace text) with
      | some rest => dropBreaks fuel rest
      | none => skipSpace text

/-- Cuts the closing quotes off. Up to two more quotes before them belong to the string. -/
def readClosing? (quote : Char) (text : List Char) : Option (List Char × List Char) :=
  let count := min 5 (text.takeWhile (· = quote)).length
  if 3 ≤ count then some (List.replicate (count - 3) quote, text.drop count) else none

/-- Whether a character may stand in a string of several lines in front of a text; a carriage return
only as part of a line break. -/
def isLinesChar (c : Char) (rest : List Char) : Bool :=
  isPrintable c || c = '\n' || (c = '\r' && rest.head? = some '\n')

/-- Reads a string of several lines behind its opening quotes. Line breaks stay as they are. Each
step takes a character at least. -/
def readLinesFrom? (quote : Char) (escapes : Bool) :
    Nat → List Char → Option (List Char × List Char)
  | 0, _ => none
  | fuel + 1, text =>
    match readClosing? quote text with
    | some closed => some closed
    | none =>
      match text with
      | [] => none
      | c :: rest =>
        if escapes && c = '\\' then
          match skipFold? rest with
          | some rest => readLinesFrom? quote escapes fuel rest
          | none => do
            let (c, rest) ← readEscape? rest
            let (others, rest) ← readLinesFrom? quote escapes fuel rest
            return (c :: others, rest)
        else if isLinesChar c rest then do
          let (others, rest) ← readLinesFrom? quote escapes fuel rest
          return (c :: others, rest)
        else none

def readLines? (quote : Char) (escapes : Bool) (text : List Char) :
    Option (List Char × List Char) :=
  let text := skipFirstBreak text
  readLinesFrom? quote escapes (text.length + 1) text

/-- Reads a string of any of the four forms. -/
def readString? (text : List Char) : Option (String × List Char) :=
  let found :=
    match text with
    | '"' :: '"' :: '"' :: rest => readLines? '"' true rest
    | '\'' :: '\'' :: '\'' :: rest => readLines? '\'' false rest
    | '"' :: rest => readBasic? rest
    | '\'' :: rest => readLiteral? rest
    | _ => none
  found.map fun (content, rest) => (String.ofList content, rest)

/-! Keys -/

def isBareKey (c : Char) : Bool :=
  c.isAlphanum || c = '_' || c = '-'

/-- Reads a bare key, or a quoted one in one line. -/
def readSimpleKey? (text : List Char) : Option (String × List Char) :=
  let found :=
    match text with
    | '"' :: rest => readBasic? rest
    | '\'' :: rest => readLiteral? rest
    | _ =>
      let key := text.takeWhile isBareKey
      if key.isEmpty then none else some (key, text.dropWhile isBareKey)
  found.map fun (key, rest) => (String.ofList key, rest)

def readKeyFrom? : Nat → List Char → Option (List String × List Char)
  | 0, _ => none
  | fuel + 1, text => do
    let (key, rest) ← readSimpleKey? text
    match skipSpace rest with
    | '.' :: rest =>
      let (keys, rest) ← readKeyFrom? fuel (skipSpace rest)
      return (key :: keys, rest)
    | rest => return ([key], rest)

def maxKeyParts : Nat := 80

/-- Reads a key of parts with dots between them, and the blanks behind it. -/
def readKey? (text : List Char) : Option (List String × List Char) :=
  (readKeyFrom? (text.length + 1) text).filter fun (keys, _) => keys.length ≤ maxKeyParts

end WordTemplate.Toml
