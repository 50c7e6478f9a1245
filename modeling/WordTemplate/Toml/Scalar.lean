import WordTemplate.Text.Numeral
import WordTemplate.Text.Pieces
import WordTemplate.Toml.Basic

/-!
TOML values that are written without quotes: booleans, integers, real numbers and moments.
-/

namespace WordTemplate.Toml

/-! Numbers -/

def isDigitOf (base : Nat) (c : Char) : Bool :=
  (Text.digitValue? base c).isSome

/-- The digits of a numeral. Single underscores may stand between digits. -/
def digits? (base : Nat) (text : List Char) : Option (List Char) :=
  let groups := Text.pieces '_' text
  if groups.all fun group => !group.isEmpty && group.all (isDigitOf base) then some groups.flatten
  else none

/-- Decimal digits without a leading zero. -/
def wholeDigits? (text : List Char) : Option (List Char) :=
  (digits? 10 text).filter fun digits => digits.length = 1 || digits.head? != some '0'

def cutSign : List Char → Bool × List Char
  | '-' :: rest => (true, rest)
  | '+' :: rest => (false, rest)
  | text => (false, text)

def minInteger : Int := -0x80000000000000000000000000000000

def maxInteger : Int := 0xFFFFFFFFFFFFFFFFFFFFFFFFFFFFFFFF

def inRange (value : Int) : Bool :=
  minInteger ≤ value && value ≤ maxInteger

/-- An integer: decimal digits with an optional sign, or digits in another base without one. -/
def integer? (text : List Char) : Option Int := do
  let value : Int ←
    match text with
    | '0' :: 'x' :: rest => (digits? 16 rest).bind fun digits => Text.number? 16 digits
    | '0' :: 'o' :: rest => (digits? 8 rest).bind fun digits => Text.number? 8 digits
    | '0' :: 'b' :: rest => (digits? 2 rest).bind fun digits => Text.number? 2 digits
    | _ => do
      let (negative, text) := cutSign text
      let digits ← wholeDigits? text
      let magnitude ← Text.number? 10 digits
      return if negative then -(magnitude : Int) else magnitude
  if inRange value then return value else none

/-- The least number that rounds to none of 64 bits. -/
def doubleBound : Nat := Nat.pow 2 1024 - Nat.pow 2 970

/-- Whether digits times a power of ten are beyond the numbers of 64 bits. -/
def exceedsDouble (digits : List Char) (power : Int) : Bool :=
  let value := (Text.number? 10 digits).getD 0
  if value = 0 then false
  else if 0 ≤ power then 400 < power || doubleBound ≤ value * Nat.pow 10 power.toNat
  else if (digits.length : Int) + power ≤ 0 then false
  else doubleBound * Nat.pow 10 (-power).toNat ≤ value

/-- The exponent of a real number, zero if there is none. -/
def exponent? : List Char → Option Int
  | [] => some 0
  | _ :: rest => do
    let (negative, text) := cutSign rest
    let digits ← digits? 10 text
    let magnitude ← Text.number? 10 digits
    return if negative then -(magnitude : Int) else magnitude

/-- Whether a text is a real number, with a fraction or an exponent. -/
def isReal (text : List Char) : Bool :=
  let body := (cutSign text).2
  let isMark (c : Char) : Bool := c = 'e' || c = 'E'
  let mantissa := body.takeWhile fun c => !isMark c
  let marked := body.dropWhile fun c => !isMark c
  let whole := mantissa.takeWhile (· != '.')
  let fraction :=
    match mantissa.dropWhile (· != '.') with
    | [] => if marked.isEmpty then none else some []
    | _ :: rest => digits? 10 rest
  body = ['i', 'n', 'f'] || body = ['n', 'a', 'n'] ||
    match wholeDigits? whole, fraction, exponent? marked with
    | some whole, some fraction, some exponent =>
      !exceedsDouble (whole ++ fraction) (exponent - fraction.length)
    | _, _, _ => false

/-! Moments -/

/-- Reads a number of two digits with a least and a greatest value. -/
def readPair? (least greatest : Nat) : List Char → Option (Nat × List Char)
  | first :: second :: rest => do
    let value ← Text.number? 10 [first, second]
    if least ≤ value && value ≤ greatest then return (value, rest) else none
  | _ => none

def isLeap (year : Nat) : Bool :=
  year % 4 = 0 && (year % 100 != 0 || year % 400 = 0)

def daysIn (year month : Nat) : Nat :=
  if month = 2 then (if isLeap year then 29 else 28)
  else if [4, 6, 9, 11].contains month then 30
  else 31

def readDate? (text : List Char) : Option (List Char) := do
  let year ← (Text.number? 10 (text.take 4)).filter fun _ => (text.take 4).length = 4
  match text.drop 4 with
  | '-' :: rest =>
    let (month, rest) ← readPair? 1 12 rest
    match rest with
    | '-' :: rest =>
      let (_, rest) ← readPair? 1 (daysIn year month) rest
      return rest
    | _ => none
  | _ => none

/-- Reads seconds with an optional fraction, if there are any. -/
def readSeconds? : List Char → Option (List Char)
  | ':' :: rest => do
    let (_, rest) ← readPair? 0 60 rest
    match rest with
    | '.' :: rest =>
      if (rest.takeWhile Char.isDigit).isEmpty then none else return rest.dropWhile Char.isDigit
    | rest => return rest
  | text => some text

def readTime? (text : List Char) : Option (List Char) := do
  let (_, rest) ← readPair? 0 23 text
  match rest with
  | ':' :: rest =>
    let (_, rest) ← readPair? 0 59 rest
    readSeconds? rest
  | _ => none

/-- Whether a text is empty or the offset of a time. -/
def isOffset : List Char → Bool
  | [] => true
  | ['Z'] => true
  | ['z'] => true
  | sign :: rest =>
    (sign = '+' || sign = '-') &&
      match readPair? 0 23 rest with
      | some (_, ':' :: rest) => (readPair? 0 59 rest).any fun (_, rest) => rest.isEmpty
      | _ => false

/-- Whether a text is a date, a time, or both with an optional offset. -/
def isMoment (text : List Char) : Bool :=
  match readDate? text with
  | some [] => true
  | some (mark :: rest) =>
    (mark = 'T' || mark = 't' || mark = ' ') && (readTime? rest).any isOffset
  | none => readTime? text = some []

/-! Reading -/

def isScalarChar (c : Char) : Bool :=
  c.isAlphanum || c = '_' || c = '+' || c = '-' || c = '.' || c = ':'

/-- Cuts off the characters of a scalar. A date may be followed by a blank and a time. -/
def cutScalar (text : List Char) : List Char × List Char :=
  let word := text.takeWhile isScalarChar
  let rest := text.dropWhile isScalarChar
  match rest with
  | ' ' :: next :: after =>
    if readDate? word = some [] && next.isDigit then
      (word ++ ' ' :: (next :: after).takeWhile isScalarChar,
        (next :: after).dropWhile isScalarChar)
    else (word, rest)
  | _ => (word, rest)

def scalar? (word : List Char) : Option Value :=
  if word = ['t', 'r', 'u', 'e'] then some (.boolean true)
  else if word = ['f', 'a', 'l', 's', 'e'] then some (.boolean false)
  else
    match integer? word with
    | some value => some (.integer value)
    | none => if isReal word then some .real else if isMoment word then some .moment else none

def readScalar? (text : List Char) : Option (Value × List Char) :=
  let (word, rest) := cutScalar text
  (scalar? word).map fun value => (value, rest)

end WordTemplate.Toml
