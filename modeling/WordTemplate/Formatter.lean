import WordTemplate.Text.Blank
import WordTemplate.Text.LetterCase

/-!
Case formatters for inserted values.
-/

namespace WordTemplate

inductive Formatter
  | lower
  | upper
  | title
  | capitalize
deriving DecidableEq, Repr

namespace Formatter

def name : Formatter → String
  | lower => "lower"
  | upper => "upper"
  | title => "title"
  | capitalize => "capitalize"

def written (formatter : Formatter) : String :=
  ":" ++ formatter.name

def ofName? (part : String) : Option Formatter :=
  [lower, upper, title, capitalize].find? fun formatter => formatter.name = part

/-- The last modifier that names a formatter decides. -/
def ofModifiers? (modifiers : List String) : Option Formatter :=
  (modifiers.filterMap ofName?).getLast?

/-- Upper-cases the first character of each word and lower-cases the others. -/
def titleFrom (wordStart : Bool) : List Char → List Char
  | [] => []
  | c :: rest =>
    if Text.isAlphanumeric c then
      (if wordStart then Text.upperChar c else Text.lowerChar c) ++ titleFrom false rest
    -- Apostrophes start no word; every other character that is not alphanumeric does.
    else c :: titleFrom (c != '\'' && c != '\u2019') rest

def capitalizeChars : List Char → List Char
  | [] => []
  | c :: rest => Text.upperChar c ++ Text.lower rest

def applyChars : Formatter → List Char → List Char
  | lower, text => Text.lower text
  | upper, text => Text.upper text
  | title, text => titleFrom true text
  | capitalize, text => capitalizeChars (Text.trim text)

def apply (formatter : Formatter) (value : String) : String :=
  String.ofList (formatter.applyChars value.toList)

end Formatter

end WordTemplate
