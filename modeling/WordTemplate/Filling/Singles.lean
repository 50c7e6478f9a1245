import WordTemplate.Filling.Firing
import WordTemplate.Markup.Walk

/-!
Placeholders that address one parameter by its absolute key. A scalar gives its value, a key
placeholder the key of its parameter, and an image its markup; lists, objects and unknown keys leave
the placeholder as it is.
-/

namespace WordTemplate.Filling

open Markup

inductive Insert
  | text (content : String)
  | markup (content : String)
deriving DecidableEq, Repr

/-- The insert for a placeholder and the value its trigger is tested on. -/
def insert? (params : Params) (placeholder : Placeholder) : Option (Insert × String) := do
  let param ← params.get? placeholder.key
  if placeholder.asksKey then
    if param.isList then none
    else some (.text (placeholder.format param.key), param.key)
  else
    match param.kind with
    | .scalar => some (.text (placeholder.format param.value), param.value)
    | .image _ =>
      if param.isResolvedImage then some (.markup param.value, param.value)
      else some (.text "", param.value)
    | .object => none
    | .list => none

def insertOf (params : Params) : Piece → Insert
  | .literal content => .text (String.ofList content)
  | .marker placeholder =>
    match insert? params placeholder with
    | some (insert, _) => insert
    | none => .text placeholder.source

def Insert.isMarkup : Insert → Bool
  | text _ => false
  | markup _ => true

def Insert.content : Insert → String
  | text content => content
  | markup content => content

def joinTexts : List Insert → List Insert
  | [] => []
  | .markup content :: rest => .markup content :: joinTexts rest
  | .text content :: rest =>
    match joinTexts rest with
    | .text next :: others => .text (content ++ next) :: others
    | joined => .text content :: joined

/-- The nodes of an insert, not yet put anywhere: a text node, or the elements of the markup. There
are none for empty text and for markup that cannot be read. -/
def insertNodes (document : Document) : Insert → Document × List NodeId
  | .text content =>
    if content.isEmpty then (document, [])
    else
      let (document, id) := document.createElement Wordml.text
      (Wordml.preserveSpace (document.setText id content) id, [id])
  | .markup content =>
    match Document.parseFragment content with
    | .ok fragment => document.graftAll fragment (fragment.children fragment.root)
    | .error _ => (document, [])

/-- Puts nodes behind an anchor, one after the other, and gives the last of them. -/
def placeAfter (document : Document) (anchor : NodeId) : List NodeId → Document × NodeId
  | [] => (document, anchor)
  | id :: rest => placeAfter (document.insertAfter anchor id).1 id rest

def spliceAfter (document : Document) (anchor : NodeId) : List Insert → Document
  | [] => document
  | insert :: rest =>
    let (document, ids) := insertNodes document insert
    let (document, anchor) := placeAfter document anchor ids
    spliceAfter document anchor rest

/-- The triggers of a text whose placeholders get a value. -/
def textFirings (document : Document) (params : Params) (id : NodeId) : List Firing :=
  (Placeholder.scan (document.text id)).filterMap fun placeholder => do
    let (_, value) ← insert? params placeholder
    let trigger ← placeholder.trigger?
    return ⟨id, document.parent? id, trigger, value⟩

/-- Fills the placeholders of a text node. Markup takes the place of the node, with new text nodes
for what stands around it. -/
def fillText (document : Document) (params : Params) (id : NodeId) : Document :=
  let content := document.text id
  if (Placeholder.scan content).any fun placeholder => (insert? params placeholder).isSome then
    let inserts := (Piece.ofText content).map (insertOf params)
    if inserts.any Insert.isMarkup then
      (spliceAfter document id (joinTexts inserts)).delete id
    else
      Wordml.preserveSpace (document.setText id (String.join (inserts.map Insert.content))) id
  else document

/-- Fills the placeholders of a text whose insert is text. -/
def fillValue (params : Params) (value : String) : String :=
  let replace (placeholder : Placeholder) : String :=
    match insert? params placeholder with
    | some (.text content, _) => content
    | _ => placeholder.source
  Piece.render replace (Piece.ofText value)

def fillAttributes (document : Document) (params : Params) (id : NodeId) : Document :=
  document.setAttributes id <| (document.node id).attributes.map fun entry =>
    { entry with value := fillValue params entry.value }

def fillNode (params : Params) : Document.Visitor (List Firing) :=
  fun document firings id =>
    let document := fillAttributes document params id
    if document.tag id = Wordml.text then
      (fillText document params id, firings ++ textFirings document params id, .descend)
    else (document, firings, .descend)

/-- Fills all texts and attributes below the root, and the attributes of the root, and evaluates the
triggers afterwards. -/
def fillSingles (document : Document) (params : Params) : Document :=
  let document := fillAttributes document params document.root
  let (document, firings) := document.walk document.root (fillNode params) []
  Firing.evaluateAll document firings

end WordTemplate.Filling
