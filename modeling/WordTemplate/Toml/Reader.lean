import WordTemplate.Toml.Scalar
import WordTemplate.Toml.Text

/-!
Reading TOML texts, which are tables written line by line. Arrays and inline tables may be nested at
most 80 levels deep.
-/

namespace WordTemplate.Toml

def maxDepth : Nat := 80

mutual

/-- Reads a value that may be nested `depth` levels more. The fuel bounds the steps; each step takes
a character or goes one level down in this definition. -/
def readValue? (fuel depth : Nat) (text : List Char) : Option (Value × List Char) :=
  match fuel with
  | 0 => none
  | fuel + 1 =>
    match text with
    | '[' :: rest =>
      if depth = 0 then none
      else do
        let (items, rest) ← readItems? fuel (depth - 1) (skipLines rest)
        return (.array items, rest)
    | '\x7b' :: rest =>
      if depth = 0 then none
      else do
        let (table, rest) ← readMembers? fuel (depth - 1) ⟨.inline, []⟩ (skipLines rest)
        return (table.toValue, rest)
    | '"' :: rest => (readString? ('"' :: rest)).map fun (text, rest) => (.string text, rest)
    | '\'' :: rest => (readString? ('\'' :: rest)).map fun (text, rest) => (.string text, rest)
    | text => readScalar? text

/-- Reads the items of an array up to its end. The last one may be followed by a comma. -/
def readItems? (fuel depth : Nat) (text : List Char) : Option (List Value × List Char) :=
  match fuel with
  | 0 => none
  | fuel + 1 =>
    match text with
    | ']' :: rest => some ([], rest)
    | text => do
      let (item, rest) ← readValue? fuel depth text
      match skipLines rest with
      | ']' :: rest => return ([item], rest)
      | ',' :: rest =>
        let (items, rest) ← readItems? fuel depth (skipLines rest)
        return (item :: items, rest)
      | _ => none

/-- Reads the entries of an inline table up to its end. The last one may be followed by a comma. -/
def readMembers? (fuel depth : Nat) (table : Table) (text : List Char) :
    Option (Table × List Char) :=
  match fuel with
  | 0 => none
  | fuel + 1 =>
    match text with
    | '\x7d' :: rest => some (table, rest)
    | text => do
      let (keys, value, rest) ← readEntry? skipLines fuel depth text
      let table ← table.addDotted? keys value
      match skipLines rest with
      | '\x7d' :: rest => return (table, rest)
      | ',' :: rest => readMembers? fuel depth table (skipLines rest)
      | _ => none

/-- Reads a key, an equals sign and a value, with what is skipped around the equals sign. -/
def readEntry? (skip : List Char → List Char) (fuel depth : Nat) (text : List Char) :
    Option (List String × Value × List Char) :=
  match fuel with
  | 0 => none
  | fuel + 1 => do
    let (keys, rest) ← readKey? text
    match skip rest with
    | '=' :: rest =>
      let (value, rest) ← readValue? fuel depth (skip rest)
      return (keys, value, rest)
    | _ => none

end

/-- A text that is being read: the table of all that was read, and the keys that lead to the table
that lines add to. -/
structure Sheet where
  top : Table
  current : List String

def readLine? (sheet : Sheet) (text : List Char) : Option (Sheet × List Char) :=
  match text with
  | '[' :: '[' :: rest => do
    let (keys, rest) ← readKey? (skipSpace rest)
    match rest with
    | ']' :: ']' :: rest =>
      let top ← sheet.top.openItem? keys
      return (⟨top, keys⟩, rest)
    | _ => none
  | '[' :: rest => do
    let (keys, rest) ← readKey? (skipSpace rest)
    match rest with
    | ']' :: rest =>
      let top ← sheet.top.openTable? keys
      return (⟨top, keys⟩, rest)
    | _ => none
  | text => do
    let (keys, value, rest) ← readEntry? skipSpace (2 * text.length + 4) maxDepth text
    let top ← sheet.top.changeAt false (fun table => table.addDotted? keys value) sheet.current
    return ({ sheet with top }, rest)

/-- Reads lines up to the end of the text. Each step takes a character at least. -/
def readLinesOf? : Nat → Sheet → List Char → Option Table
  | 0, _, _ => none
  | fuel + 1, sheet, text =>
    match skipLines text with
    | [] => some sheet.top
    | text => do
      let (sheet, rest) ← readLine? sheet text
      let rest ← readLineEnd? rest
      readLinesOf? fuel sheet rest

/-- A mark that may stand at the beginning of a text and does not belong to it. -/
def byteOrderMark : Char := '\uFEFF'

/-- The entries of the table that a text stands for. -/
def read? (text : String) : Option Entries := do
  let text :=
    match text.toList with
    | c :: rest => if c = byteOrderMark then rest else c :: rest
    | [] => []
  let table ← readLinesOf? (text.length + 1) ⟨⟨.header, []⟩, []⟩ text
  return table.entries

end WordTemplate.Toml
