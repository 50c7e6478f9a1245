import WordTemplate.Text.Alphanumeric
import WordTemplate.Text.Pieces

/-!
Variables in texts. A dollar sign and a name in braces stand for the value of a variable; a default
behind `:-` stands in for a variable without value. Only in a text that holds an opening brace
behind a dollar sign does a name without braces stand for a value too, and two dollar signs for
one.
-/

namespace WordTemplate.Settings

/-- A stretch of text: characters that stand for themselves, or a reference to a variable. -/
inductive Stretch
  | literal (text : List Char)
  | reference (name : List Char) (default : Option (List Char))
deriving DecidableEq, Repr

namespace Stretch

/-- Cuts at the first `:-`, unless there is no name before it. -/
def cutDefault : List Char → Option (List Char × List Char)
  | [] => none
  | ':' :: '-' :: rest => some ([], rest)
  | c :: rest => (cutDefault rest).map fun (before, after) => (c :: before, after)

def ofBody (body : List Char) : Stretch :=
  match cutDefault body with
  | some (c :: name, default) => reference (c :: name) (some default)
  | _ => reference body none

/-- The stretch that a text starts with, and the text behind it. -/
def next : Char → List Char → Stretch × List Char
  | '$', '{' :: rest =>
    match rest.dropWhile (· != '}') with
    | _ :: after => (ofBody (rest.takeWhile (· != '}')), after)
    -- A brace that is not closed stands for itself.
    | [] => (literal ['$', '{'], rest)
  | '$', '$' :: rest => (literal ['$'], rest)
  | '$', rest =>
    let name := rest.takeWhile Text.isWordChar
    if name.isEmpty then (literal ['$'], rest)
    else (reference name none, rest.dropWhile Text.isWordChar)
  | c, rest => (literal [c], rest)

theorem length_next_le (c : Char) (rest : List Char) : (next c rest).2.length ≤ rest.length := by
  unfold next
  split
  · rename_i rest
    split
    · rename_i after found
      have bound := (List.dropWhile_sublist (· != '}') (l := rest)).length_le
      rw [found] at bound
      simp only [List.length_cons] at bound ⊢
      omega
    · simp
  · simp
  · dsimp only
    split
    · simp
    · exact (List.dropWhile_sublist _).length_le
  · simp

def split (text : List Char) : List Stretch :=
  match text with
  | [] => []
  | c :: rest => (next c rest).1 :: split (next c rest).2
termination_by text.length
decreasing_by
  have := length_next_le c rest
  simp only [List.length_cons]
  omega

def name? : Stretch → Option String
  | literal _ => none
  | reference name _ => some (String.ofList name)

/-- The text of a stretch, or the name of a variable that has neither a value nor a default. -/
def value (lookUp : String → Option String) : Stretch → Except String (List Char)
  | literal text => .ok text
  | reference name default =>
    match lookUp (String.ofList name), default with
    | some value, _ => .ok value.toList
    | none, some default => .ok default
    | none, none => .error (String.ofList name)

end Stretch

/-- The stretches of a text. Without a brace behind a dollar sign the text is literal as a whole. -/
def stretches (text : String) : List Stretch :=
  if Text.occursIn ['$', '{'] text.toList then Stretch.split text.toList
  else [.literal text.toList]

def variablesOf (text : String) : List String :=
  (stretches text).filterMap Stretch.name?

/-- Puts in the values of variables. Values are not searched for variables again. The error is the
name of the first variable without a value. -/
def expand (lookUp : String → Option String) (text : String) : Except String String := do
  let values ← (stretches text).mapM (Stretch.value lookUp)
  return String.ofList values.flatten

end WordTemplate.Settings
