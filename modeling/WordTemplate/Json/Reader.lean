import WordTemplate.Json.Basic
import WordTemplate.Text.Numeral

/-!
Reading JSON. Every reader takes the text from where its value begins and gives the text behind it.
A value may be nested in at most 127 arrays and objects.
-/

namespace WordTemplate.Json

def isSpace (c : Char) : Bool :=
  c = ' ' || c = '\n' || c = '\t' || c = '\r'

def skipSpace (text : List Char) : List Char :=
  text.dropWhile isSpace

/-- Digits are kept as long as the number they make is not greater than this one. -/
def maxSignificand : Nat := 0xFFFFFFFFFFFFFFFF

/-- The magnitude of the least integer. -/
def maxNegated : Nat := 0x8000000000000000

/-- The digits of a number as they are read: those that fit are kept in the significand, the
others only count. -/
structure Significand where
  value : Nat := 0
  /-- The power of ten that the digits read so far ask for. -/
  power : Int := 0
  /-- Whether digits no longer fit. -/
  full : Bool := false

def Significand.add? (significand : Significand) (digit : Nat) : Option Nat :=
  let value := significand.value * 10 + digit
  if value ≤ maxSignificand then some value else none

def digitOf (c : Char) : Nat :=
  c.toNat - '0'.toNat

/-- Adds the digits before the point. Once a digit does not fit, each stands for a factor of ten. -/
def addWhole (significand : Significand) : List Char → Significand
  | [] => significand
  | c :: rest =>
    let counted : Significand := { significand with power := significand.power + 1, full := true }
    if significand.full then addWhole counted rest
    else
      match significand.add? (digitOf c) with
      | some value => addWhole { significand with value } rest
      | none => addWhole counted rest

/-- Adds the digits behind the point. Once a digit does not fit, the others are dropped. -/
def addFraction (significand : Significand) : List Char → Significand
  | [] => significand
  | c :: rest =>
    match significand.add? (digitOf c) with
    | some value => addFraction { significand with value, power := significand.power - 1 } rest
    | none => significand

def readSign (text : List Char) : Bool × List Char :=
  match text with
  | '+' :: rest => (false, rest)
  | '-' :: rest => (true, rest)
  | _ => (false, text)

def readExponent? (text : List Char) : Option (Option Int × List Char) :=
  match text with
  | c :: rest =>
    if c = 'e' || c = 'E' then
      let (negative, digits) := readSign rest
      match Text.number? 10 (digits.takeWhile Char.isDigit) with
      | some value =>
        let exponent : Int := if negative then -(value : Int) else value
        some (some exponent, digits.dropWhile Char.isDigit)
      | none => none
    else some (none, text)
  | [] => some (none, [])

def readFraction? (text : List Char) : Option (Option (List Char) × List Char) :=
  match text with
  | '.' :: rest =>
    let digits := rest.takeWhile Char.isDigit
    if digits.isEmpty then none else some (some digits, rest.dropWhile Char.isDigit)
  | _ => some (none, text)

/-- A number without point and exponent whose digits fit is an integer; any other is a real one. -/
def ofDigits? (negative : Bool) (whole : Significand) (fraction : Option (List Char))
    (exponent : Option Int) : Option Json :=
  let asReal (significand : Significand) (exponent : Int) : Option Json := do
    let magnitude ← Decimal.Double.ofDecimal? significand.value (significand.power + exponent)
    return .real negative magnitude
  match fraction, exponent with
  | none, none =>
    if whole.full then asReal whole 0
    else if !negative then some (.integer whole.value)
    else if whole.value != 0 && whole.value ≤ maxNegated then
      some (.integer (-(whole.value : Int)))
    -- Minus zero, and what is below the least integer of 64 bits.
    else asReal whole 0
  | _, _ => asReal (addFraction whole (fraction.getD [])) (exponent.getD 0)

def readNumber? (text : List Char) : Option (Json × List Char) := do
  let (negative, text) :=
    match text with
    | '-' :: rest => (true, rest)
    | _ => (false, text)
  let digits := text.takeWhile Char.isDigit
  let rest := text.dropWhile Char.isDigit
  if digits.isEmpty || (digits.head? = some '0' && digits.length != 1) then none
  else
    let (fraction, rest) ← readFraction? rest
    let (exponent, rest) ← readExponent? rest
    let value ← ofDigits? negative (addWhole {} digits) fraction exponent
    return (value, rest)

/-- Reads four hexadecimal digits. -/
def readUnit? (text : List Char) : Option (Nat × List Char) :=
  let digits := text.take 4
  if digits.length = 4 then (Text.number? 16 digits).map fun unit => (unit, text.drop 4) else none

/-- Reads what follows `\u`; two units that make a pair stand for one character. -/
def readEscapedUnit? (text : List Char) : Option (Char × List Char) := do
  let (high, rest) ← readUnit? text
  if 0xD800 ≤ high && high < 0xDC00 then
    match rest with
    | '\\' :: 'u' :: rest =>
      let (low, rest) ← readUnit? rest
      if 0xDC00 ≤ low && low < 0xE000 then
        let c ← Text.charOfCode? (0x10000 + (high - 0xD800) * 0x400 + (low - 0xDC00))
        return (c, rest)
      else none
    | _ => none
  else
    let c ← Text.charOfCode? high
    return (c, rest)

def escaped? (c : Char) : Option Char :=
  [('"', '"'), ('\\', '\\'), ('/', '/'), ('b', '\x08'), ('f', '\x0c'), ('n', '\n'), ('r', '\r'),
    ('t', '\t')].lookup c

/-- Reads a string behind its opening quote. Each step takes a character at least. -/
def readStringFrom? : Nat → List Char → Option (List Char × List Char)
  | 0, _ => none
  | fuel + 1, text =>
    match text with
    | [] => none
    | '"' :: rest => some ([], rest)
    | '\\' :: 'u' :: rest => do
      let (c, rest) ← readEscapedUnit? rest
      let (others, rest) ← readStringFrom? fuel rest
      return (c :: others, rest)
    | '\\' :: letter :: rest => do
      let c ← escaped? letter
      let (others, rest) ← readStringFrom? fuel rest
      return (c :: others, rest)
    | c :: rest =>
      if c.toNat < 0x20 || c = '\\' then none
      else do
        let (others, rest) ← readStringFrom? fuel rest
        return (c :: others, rest)

def readString? (text : List Char) : Option (String × List Char) := do
  let (content, rest) ← readStringFrom? (text.length + 1) text
  return (String.ofList content, rest)

def maxDepth : Nat := 127

mutual

/-- Reads a value that may be nested `depth` levels more. The fuel bounds the steps; each step takes
a character or goes one level down in this definition. -/
def readValue? (fuel depth : Nat) (text : List Char) : Option (Json × List Char) :=
  match fuel with
  | 0 => none
  | fuel + 1 =>
    match skipSpace text with
    | 'n' :: 'u' :: 'l' :: 'l' :: rest => some (.null, rest)
    | 't' :: 'r' :: 'u' :: 'e' :: rest => some (.boolean true, rest)
    | 'f' :: 'a' :: 'l' :: 's' :: 'e' :: rest => some (.boolean false, rest)
    | '"' :: rest => do
      let (value, rest) ← readString? rest
      return (.string value, rest)
    | '[' :: rest =>
      if depth = 0 then none
      else
        match skipSpace rest with
        | ']' :: rest => some (.array [], rest)
        | rest => do
          let (items, rest) ← readItems? fuel (depth - 1) rest
          return (.array items, rest)
    | '\x7b' :: rest =>
      if depth = 0 then none
      else
        match skipSpace rest with
        | '\x7d' :: rest => some (.object [], rest)
        | rest => do
          let (members, rest) ← readMembers? fuel (depth - 1) rest
          return (ofMembers members, rest)
    | rest => readNumber? rest

def readItems? (fuel depth : Nat) (text : List Char) : Option (List Json × List Char) :=
  match fuel with
  | 0 => none
  | fuel + 1 => do
    let (item, rest) ← readValue? fuel depth text
    match skipSpace rest with
    | ']' :: rest => return ([item], rest)
    | ',' :: rest =>
      let (items, rest) ← readItems? fuel depth rest
      return (item :: items, rest)
    | _ => none

def readMembers? (fuel depth : Nat) (text : List Char) :
    Option (List (String × Json) × List Char) :=
  match fuel with
  | 0 => none
  | fuel + 1 =>
    match skipSpace text with
    | '"' :: rest => do
      let (name, rest) ← readString? rest
      match skipSpace rest with
      | ':' :: rest =>
        let (value, rest) ← readValue? fuel depth rest
        match skipSpace rest with
        | '\x7d' :: rest => return ([(name, value)], rest)
        | ',' :: rest =>
          let (members, rest) ← readMembers? fuel depth rest
          return ((name, value) :: members, rest)
        | _ => none
      | _ => none
    | _ => none

end

/-- Reads a text that is one value, with blanks around it. -/
def read? (text : List Char) : Option Json := do
  let (value, rest) ← readValue? (2 * text.length + 2) maxDepth text
  if (skipSpace rest).isEmpty then return value else none

def readBytes? (bytes : ByteArray) : Option Json := do
  let text ← String.fromUTF8? bytes
  read? text.toList

end WordTemplate.Json
