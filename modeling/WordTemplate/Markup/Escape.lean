import WordTemplate.Text.Numeral

/-!
Escaping of characters that markup gives a meaning, and the references that stand for characters.
-/

namespace WordTemplate.Markup

open Text (number? charOfCode?)

def escapeTextChar : Char → List Char
  | '&' => "&amp;".toList
  | '<' => "&lt;".toList
  | '>' => "&gt;".toList
  | c => [c]

/-- In attribute values both quotes are escaped too. -/
def escapeAttributeChar : Char → List Char
  | '"' => "&quot;".toList
  | '\'' => "&apos;".toList
  | c => escapeTextChar c

def escapeText (text : List Char) : List Char :=
  text.flatMap escapeTextChar

def escapeAttribute (value : List Char) : List Char :=
  value.flatMap escapeAttributeChar

def namedReference? (name : List Char) : Option Char :=
  [("lt", '<'), ("gt", '>'), ("amp", '&'), ("apos", '\''), ("quot", '"')].lookup
    (String.ofList name)

def dropPlus : List Char → List Char
  | '+' :: rest => rest
  | text => text

/-- The text a reference in character data stands for. A number may carry a plus sign. -/
def resolveReference (name : List Char) : List Char :=
  let resolved :=
    match name with
    | '#' :: 'x' :: digits | '#' :: 'X' :: digits =>
      (number? 16 (dropPlus digits)).bind charOfCode?
    | '#' :: digits => (number? 10 (dropPlus digits)).bind charOfCode?
    | _ => namedReference? name
  match resolved with
  | some c => [c]
  -- A reference that names no character is kept as it is written.
  | none => '&' :: name ++ [';']

/-- A numeric reference in an attribute value has no sign, a small hexadecimal mark, and a code
point other than zero. -/
def attributeReference? (name : List Char) : Option Char :=
  let nonZero (code : Nat) : Option Char := if code = 0 then none else charOfCode? code
  match name with
  | '#' :: 'x' :: digits => (number? 16 digits).bind nonZero
  | '#' :: digits => (number? 10 digits).bind nonZero
  | _ => namedReference? name

/-- Cuts a text at its first semicolon, unless an ampersand stands before it. -/
def cutReference? : List Char → Option (List Char × List Char)
  | [] => none
  | ';' :: rest => some ([], rest)
  | '&' :: _ => none
  | c :: rest => (cutReference? rest).map fun (name, after) => (c :: name, after)

theorem length_of_cutReference? {text name after : List Char}
    (cut : cutReference? text = some (name, after)) : after.length < text.length := by
  induction text generalizing name with
  | nil => simp [cutReference?] at cut
  | cons c rest ih =>
    unfold cutReference? at cut
    split at cut
    · simp at cut
    · rename_i equal
      simp only [List.cons.injEq] at equal
      simp only [Option.some.injEq, Prod.mk.injEq] at cut
      obtain ⟨_, rfl⟩ := cut
      simp [equal.2]
    · simp at cut
    · rename_i equal
      simp only [List.cons.injEq] at equal
      obtain ⟨rfl, rfl⟩ := equal
      obtain ⟨⟨inner, rest'⟩, found, same⟩ := Option.map_eq_some_iff.1 cut
      simp only [Prod.mk.injEq] at same
      obtain ⟨_, rfl⟩ := same
      have shorter := ih found
      simp only [List.length_cons]
      omega

/-- Resolves the references of an attribute value; one that is malformed makes it fail. -/
def unescapeAttribute? (value : List Char) : Option (List Char) :=
  match value with
  | [] => some []
  | c :: rest =>
    if c = '&' then
      match _cut : cutReference? rest with
      | some (name, after) => do
        let c ← attributeReference? name
        let others ← unescapeAttribute? after
        return c :: others
      | none => none
    else (unescapeAttribute? rest).map (c :: ·)
termination_by value.length
decreasing_by
  · have := length_of_cutReference? _cut
    simp only [List.length_cons]
    omega
  · simp

/-- The value of an attribute; a value with a malformed reference is kept as it is written. -/
def attributeValue (raw : List Char) : List Char :=
  (unescapeAttribute? raw).getD raw

end WordTemplate.Markup
