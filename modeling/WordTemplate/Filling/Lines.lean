import WordTemplate.Text.Pieces
import WordTemplate.Wordml.Vocabulary

/-!
Line feeds. A text with line feeds splits its paragraph into one paragraph for each line: what
stands before the text goes with the first line, what stands behind it with the last.
-/

namespace WordTemplate.Filling

open Markup

/-- A carriage return at the end of a line belongs to the line feed. -/
def dropReturn (line : List Char) : List Char :=
  if line.getLast? = some '\r' then line.dropLast else line

def lines (content : String) : List String :=
  (Text.pieces '\n' content.toList).map fun line => String.ofList (dropReturn line)

def holdsLineFeed (content : String) : Bool :=
  content.toList.contains '\n'

/-- A line with its place among the lines. -/
structure Line where
  content : String
  isFirst : Bool
  isLast : Bool

def linesOf (content : String) : List Line :=
  let all := lines content
  all.zipIdx.map fun (content, index) => ⟨content, index = 0, index + 1 = all.length⟩

/-- Puts a line in the place of the split text in a copy of the paragraph. -/
def fillLine (document : Document) (copy : NodeId) (path : List Nat) (line : Line) : Document :=
  match document.follow? copy path with
  | none => document
  | some twin =>
    let document := document.setText twin line.content
    let document := document.removeAttribute twin Wordml.spaceKey
    let document := Wordml.preserveSpace document twin
    let texts := Wordml.ownTexts document copy
    if texts.contains twin then
      -- The texts before the split one go with the first line, those behind it with the last.
      let before := if line.isFirst then [] else texts.takeWhile (· != twin)
      let after := if line.isLast then [] else (texts.dropWhile (· != twin)).drop 1
      (before ++ after).foldl Wordml.deleteText document
    else document

def copyLines (document : Document) (paragraph : NodeId) (path : List Nat) (anchor : NodeId) :
    List Line → Document
  | [] => document
  | line :: rest =>
    let (document, copy) := document.cloneSubtree paragraph
    let document := (document.insertAfter anchor copy).1
    copyLines (fillLine document copy path line) paragraph path copy rest

def splitParagraph (document : Document) (paragraph : NodeId) (path : List Nat)
    (content : String) : Document :=
  (copyLines document paragraph path paragraph (linesOf content)).delete paragraph

/-- The paragraph around a text and the way from it to the text. -/
def locate? (document : Document) (id : NodeId) : Option (NodeId × List Nat) := do
  let paragraph ← document.closest? id [Wordml.paragraph]
  let path ← document.path? paragraph id
  return (paragraph, path)

/-- Splits the paragraph of the first text with line feeds, and goes on until there is none. -/
def splitFrom : Nat → List NodeId → Document × Nat → Document × Nat
  | 0, _, state => state
  | fuel + 1, skipped, (document, count) =>
    let found? := (document.findAll document.root [Wordml.text]).find? fun id =>
      !skipped.contains id && holdsLineFeed (document.text id)
    match found? with
    | none => (document, count)
    | some id =>
      match locate? document id with
      -- A text outside of paragraphs keeps its line feeds.
      | none => splitFrom fuel (id :: skipped) (document, count)
      | some (paragraph, path) =>
        splitFrom fuel skipped
          (splitParagraph document paragraph path (document.text id), count + 1)

/-- A bound on the splits. Splitting at a text leaves it without line feeds and copies the texts of
paragraphs inside its own once for each line. -/
def splitFuel (document : Document) : Nat :=
  (document.size + 1) *
    ((document.descendants document.root).map fun id =>
      (lines (document.text id)).length).foldl (· * ·) 1

/-- Splits all paragraphs with line feeds below the root, and counts the splits. -/
def splitLines (document : Document) : Document × Nat :=
  splitFrom (splitFuel document + 1) [] (document, 0)

end WordTemplate.Filling
