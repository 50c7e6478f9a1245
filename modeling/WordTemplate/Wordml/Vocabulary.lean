import WordTemplate.Markup.Document

/-!
The elements and attributes of a word-processing document that a template is made of.
-/

namespace WordTemplate.Wordml

open Markup

def paragraph : String := "w:p"
def paragraphProperties : String := "w:pPr"
def numberingProperties : String := "w:numPr"
def numberingId : String := "w:numId"
def run : String := "w:r"
def runProperties : String := "w:rPr"
def text : String := "w:t"
def table : String := "w:tbl"
def row : String := "w:tr"
def cell : String := "w:tc"

def valueKey : String := "w:val"
def spaceKey : String := "xml:space"

/-- The number of the list a paragraph belongs to by its numbering. -/
def listNumber? (document : Document) (id : NodeId) : Option String :=
  if document.tag id = paragraph then do
    let properties ← document.childByTag? id paragraphProperties
    let numbering ← document.childByTag? properties numberingProperties
    let number ← document.childByTag? numbering numberingId
    document.attribute? number valueKey
  else none

/-- Whether a text has a blank at one of its ends, which a reader of the document may drop. -/
def hasOuterBlank (content : List Char) : Bool :=
  content.head?.any Text.isBlank || content.getLast?.any Text.isBlank

/-- Marks a node whose text has blanks at its ends, so that they are kept. -/
def preserveSpace (document : Document) (id : NodeId) : Document :=
  if hasOuterBlank (document.text id).toList then document.setAttribute id spaceKey "preserve"
  else document

/-- The paragraphs below a node, and the node itself if it is one. -/
def paragraphsFrom (document : Document) (scope : NodeId) : List NodeId :=
  (if document.tag scope = paragraph then [scope] else []) ++
    document.findAll scope [paragraph]

/-- The texts whose nearest paragraph is the given one. -/
def ownTexts (document : Document) (id : NodeId) : List NodeId :=
  (document.findAll id [text]).filter fun found => document.closest? found [paragraph] = some id

def deleteText (document : Document) (id : NodeId) : Document :=
  let document' := document.delete id
  match document.parent? id with
  | none => document'
  | some parent =>
    -- The run around the text goes too if nothing but its properties remains there.
    if document'.tag parent = run &&
        (document'.children parent).all fun child => document'.tag child = runProperties then
      document'.delete parent
    else document'

end WordTemplate.Wordml
