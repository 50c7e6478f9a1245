import WordTemplate.Text.Pieces

/-!
Dotted keys. An absolute key keeps the positions of list items (`Users.1.Name`); the compact key
drops them (`Users.Name`).
-/

namespace WordTemplate.Key

def separator : Char := '.'

def segments (key : String) : List String :=
  (Text.pieces separator key.toList).map String.ofList

def ofSegments (segments : List String) : String :=
  ".".intercalate segments

/-- A segment that is a position in a list: one or more ASCII digits. -/
def isPosition (segment : String) : Bool :=
  !segment.isEmpty && segment.toList.all Char.isDigit

def compact (key : String) : String :=
  ofSegments ((segments key).filter fun segment => !isPosition segment)

/-- The key of a member below a parent; the empty parent is the top level. -/
def join (parent segment : String) : String :=
  if parent.isEmpty then segment else parent ++ "." ++ segment

/-- Whether `ancestor` is the key itself, a leading run of its segments, or the empty key. -/
def hasAncestor (key ancestor : String) : Bool :=
  ancestor.isEmpty ||
    match ancestor.toList.isPrefixOf? key.toList with
    | some [] => true
    | some (c :: _) => c = separator
    | none => false

end WordTemplate.Key
