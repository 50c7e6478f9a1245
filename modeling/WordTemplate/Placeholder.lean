import WordTemplate.Formatter
import WordTemplate.Key
import WordTemplate.Trigger

/-!
Placeholders. A marker is two opening braces, a body without braces and two closing braces; it is a
placeholder when its body reads as an optional number sign, a key, and a suffix that holds a
separator and up to three modifiers. Every text is cut into literal stretches and placeholders
whose sources put together give the text back.
-/

namespace WordTemplate

structure Placeholder where
  /-- Asks for the position or name of the parameter and not for its value. -/
  asksKey : Bool
  key : String
  /-- All that stands between the key and the closing braces. -/
  suffix : String
  separator : Option String
  modifiers : List String
deriving DecidableEq, Repr

namespace Placeholder

open Text (isWordChar)

def maxModifiers : Nat := 3

def isKeyChar (c : Char) : Bool :=
  isWordChar c || c = Key.separator || c = '-'

/-- Cuts a text where a run of key characters ends. A blank belongs to the run when a word
character follows it. -/
def cutKeyRun : List Char → List Char × List Char
  | [] => ([], [])
  | c :: rest =>
    let joins :=
      if c = ' ' then
        match rest with
        | next :: _ => isWordChar next
        | [] => false
      else isKeyChar c
    if joins then
      let (run, after) := cutKeyRun rest
      (c :: run, after)
    else ([], c :: rest)

/-- Cuts a key off; keys start with a word character. -/
def cutKey : List Char → List Char × List Char
  | [] => ([], [])
  | c :: rest => if isWordChar c then cutKeyRun (c :: rest) else ([], c :: rest)

def isModifier (part : List Char) : Bool :=
  !part.isEmpty && part.all fun c => isWordChar c || c = '='

/-- A chain is one to three modifiers, each behind a colon. -/
def isChain : List Char → Bool
  | ':' :: rest =>
    let parts := Text.pieces ':' rest
    parts.length ≤ maxModifiers && parts.all isModifier
  | _ => false

/-- Cuts at the first position from which the rest is a chain. -/
def cutChain : List Char → List Char × List Char
  | [] => ([], [])
  | c :: rest =>
    if isChain (c :: rest) then ([], c :: rest)
    else
      let (before, chain) := cutChain rest
      (c :: before, chain)

def chainModifiers (chain : List Char) : List String :=
  (Text.pieces ':' chain).tail.map fun part => String.ofList (Text.lower part)

/-- Reads what follows the blank behind a key. A word character in the separator means that the
marker is no placeholder. -/
def readSuffix? (suffix : List Char) : Option (Option String × List String) :=
  let (before, chain) := cutChain suffix
  let separator := Text.trimStart before
  let separator := if chain.isEmpty then separator else Text.trimEnd separator
  if separator.any isWordChar then none
  else
    some (if separator.isEmpty then none else some (String.ofList separator), chainModifiers chain)

def readKeyed? (asksKey : Bool) (text : List Char) : Option Placeholder :=
  let (key, suffix) := cutKey text
  if key.isEmpty then none
  else
    match suffix with
    | [] => some ⟨asksKey, String.ofList key, "", none, []⟩
    | ' ' :: rest => do
      let (separator, modifiers) ← readSuffix? rest
      return ⟨asksKey, String.ofList key, String.ofList suffix, separator, modifiers⟩
    | _ => none

def ofBody? : List Char → Option Placeholder
  | '#' :: rest => readKeyed? true rest
  | body => readKeyed? false body

def formatter? (placeholder : Placeholder) : Option Formatter :=
  Formatter.ofModifiers? placeholder.modifiers

def trigger? (placeholder : Placeholder) : Option Trigger :=
  Trigger.ofModifiers? placeholder.modifiers

/-- A separator asks for all values in one line. -/
def isInline (placeholder : Placeholder) : Bool :=
  placeholder.separator.isSome

def compactKey (placeholder : Placeholder) : String :=
  Key.compact placeholder.key

def format (placeholder : Placeholder) (value : String) : String :=
  match placeholder.formatter? with
  | some formatter => formatter.apply value
  | none => value

/-- The marker with another key and all else kept. -/
def withKey (placeholder : Placeholder) (key : String) : String :=
  let sign := if placeholder.asksKey then "#" else ""
  "\x7b\x7b" ++ sign ++ key ++ placeholder.suffix ++ "\x7d\x7d"

/-- The marker as it is written. -/
def source (placeholder : Placeholder) : String :=
  placeholder.withKey placeholder.key

end Placeholder

/-- A stretch of text: a placeholder, or characters that belong to none. -/
inductive Piece
  | literal (text : List Char)
  | marker (placeholder : Placeholder)
deriving DecidableEq, Repr

namespace Piece

def source : Piece → List Char
  | literal text => text
  | marker placeholder => placeholder.source.toList

def placeholder? : Piece → Option Placeholder
  | literal _ => none
  | marker placeholder => some placeholder

def isBrace (c : Char) : Bool :=
  c = '{' || c = '}'

/-- The body of the marker that a text starts with, and the text behind the marker. -/
def cutMarker? : List Char → Option (List Char × List Char)
  | '{' :: '{' :: rest =>
    match rest.dropWhile (fun c => !isBrace c) with
    | '}' :: '}' :: after => some (rest.takeWhile (fun c => !isBrace c), after)
    | _ => none
  | _ => none

theorem length_of_cutMarker? {text body after : List Char}
    (cut : cutMarker? text = some (body, after)) : after.length < text.length := by
  unfold cutMarker? at cut
  split at cut
  · rename_i rest
    split at cut
    · rename_i tail equal
      have bound := (List.dropWhile_sublist (fun c => !isBrace c) (l := rest)).length_le
      rw [equal] at bound
      simp only [Option.some.injEq, Prod.mk.injEq] at cut
      obtain ⟨_, rfl⟩ := cut
      simp only [List.length_cons] at bound ⊢
      omega
    · simp at cut
  · simp at cut

/-- A marker whose body does not read as a placeholder is literal as a whole. -/
def ofMarker (body : List Char) : Piece :=
  match Placeholder.ofBody? body with
  | some placeholder => marker placeholder
  | none => literal ('{' :: '{' :: body ++ ['}', '}'])

/-- Cuts a text into pieces, from left to right. -/
def split (text : List Char) : List Piece :=
  match text with
  | [] => []
  | c :: rest =>
    match _cut : cutMarker? (c :: rest) with
    | some (body, after) => ofMarker body :: split after
    | none => literal [c] :: split rest
termination_by text.length
decreasing_by
  · exact length_of_cutMarker? _cut
  · simp

def ofText (text : String) : List Piece :=
  split text.toList

/-- Puts pieces together with every placeholder replaced by the given text. -/
def render (replace : Placeholder → String) (pieces : List Piece) : String :=
  String.ofList <| pieces.flatMap fun
    | literal text => text
    | marker placeholder => (replace placeholder).toList

/-- Each placeholder with the byte offsets of its start and end, counted from `start`. -/
def spansFrom (start : Nat) : List Piece → List (Nat × Nat × Placeholder)
  | [] => []
  | piece :: rest =>
    let stop := start + Text.byteLength piece.source
    match piece with
    | literal _ => spansFrom stop rest
    | marker placeholder => (start, stop, placeholder) :: spansFrom stop rest

end Piece

namespace Placeholder

/-- The placeholders of a text, from left to right. -/
def scan (text : String) : List Placeholder :=
  (Piece.ofText text).filterMap Piece.placeholder?

/-- The first placeholder of a text. -/
def parse? (text : String) : Option Placeholder :=
  (scan text).head?

/-- The placeholders of a text with their byte spans. -/
def spans (text : String) : List (Nat × Nat × Placeholder) :=
  Piece.spansFrom 0 (Piece.ofText text)

end Placeholder

end WordTemplate
