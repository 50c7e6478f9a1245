import WordTemplate.Markup.Walk
import WordTemplate.Params.Lookup
import WordTemplate.Placeholder
import WordTemplate.Wordml.Vocabulary

/-!
Repeating rows. A row is a table row, or a paragraph outside of table rows. A row with placeholders
that are pending at a list is copied once for every item, with the placeholders of each copy turned
to its item, and the copies are expanded again until no list is left.
-/

namespace WordTemplate.Filling

open Markup

def rowTags : List String := [Wordml.row, Wordml.paragraph]

/-- The row that repeats for what stands in a node: the table row around it, or else the
paragraph. -/
def owningRow? (document : Document) (id : NodeId) : Option NodeId :=
  (document.closest? id [Wordml.row]).or (document.closest? id [Wordml.paragraph])

/-- Which texts decide whether a row repeats: those it owns, or all below it. -/
inductive Ownership
  | own
  | below
deriving DecidableEq, Repr

def rowTexts (document : Document) (ownership : Ownership) (row : NodeId) : List NodeId :=
  (document.findAll row [Wordml.text]).filter fun id =>
    ownership = .below || owningRow? document id = some row

/-- The list at which a placeholder of a text asks for a repetition. -/
def repeating? (params : Params) (placeholder : Placeholder) : Option Param :=
  if placeholder.isInline then none
  else (params.pendingList? placeholder.key).map (·.list)

/-- Keeps the first parameter of every absolute key. -/
def distinct (lists : List Param) : List Param :=
  lists.foldl
    (fun (kept : List Param) list =>
      if kept.any fun other => other.absoluteKey = list.absoluteKey then kept else kept ++ [list])
    []

/-- The lists that a row repeats for, in order of use. -/
def rowLists (document : Document) (params : Params) (ownership : Ownership) (row : NodeId) :
    List Param :=
  distinct <| (rowTexts document ownership row).flatMap fun id =>
    (Placeholder.scan (document.text id)).filterMap (repeating? params)

/-- The key of the item at a position counted from zero. Behind the end it is the number the item
would have. -/
def itemKey (list : Param) (position : Nat) : String :=
  match list.children[position]? with
  | some item => item.key
  | none => toString (position + 1)

/-- The key of a placeholder in the copy for a position, if it is pending at one of the lists. -/
def indexedKey? (params : Params) (lists : List Param) (position : Nat) (key : String) :
    Option String := do
  let pending ← params.pendingList? key
  let list ← lists.find? fun list => list.absoluteKey = pending.list.absoluteKey
  return pending.indexed (itemKey list position)

def indexMarker (params : Params) (lists : List Param) (position : Nat)
    (placeholder : Placeholder) : String :=
  placeholder.withKey ((indexedKey? params lists position placeholder.key).getD placeholder.key)

def indexText (params : Params) (lists : List Param) (position : Nat) (content : String) : String :=
  Piece.render (indexMarker params lists position) (Piece.ofText content)

/-- Turns the placeholders in the text and the attributes of a node to the items at a position. -/
def indexNode (params : Params) (lists : List Param) (position : Nat) (document : Document)
    (id : NodeId) : Document :=
  let document :=
    if document.tag id = Wordml.text then
      document.setText id (indexText params lists position (document.text id))
    else document
  document.setAttributes id <| (document.node id).attributes.map fun entry =>
    { entry with value := indexText params lists position entry.value }

def indexSubtree (params : Params) (lists : List Param) (position : Nat) (document : Document)
    (id : NodeId) : Document :=
  (id :: document.descendants id).foldl (indexNode params lists position) document

/-- Puts one copy of a row for each of the positions behind an anchor. -/
def copyRow (params : Params) (lists : List Param) (row : NodeId) (document : Document)
    (anchor : NodeId) : List Nat → Document × List NodeId
  | [] => (document, [])
  | position :: rest =>
    let (document, copy) := document.cloneSubtree row
    let document := (document.insertAfter anchor copy).1
    let document := indexSubtree params lists position document copy
    let (document, copies) := copyRow params lists row document copy rest
    (document, copy :: copies)

/-- Replaces a row by its copies, as many as the longest of its lists has items. -/
def expandRow? (params : Params) (ownership : Ownership) (document : Document) (row : NodeId) :
    Option (Document × List NodeId) :=
  match rowLists document params ownership row with
  | [] => none
  | lists =>
    let count := (lists.map Param.itemCount).foldl max 0
    let (document, copies) := copyRow params lists row document row (List.range count)
    some (document.delete row, copies)

/-- Expands a row that is met on a walk; the walk goes on below it only if it does not repeat. The
walker counts the rows and keeps their copies. -/
def expandVisited (params : Params) : Document.Visitor (Nat × List NodeId) :=
  fun document (count, copies) id =>
    if document.isAny rowTags id then
      match expandRow? params .own document id with
      | some (document, more) => (document, (count + 1, copies ++ more), .skip)
      | none => (document, (count, copies), .descend)
    else (document, (count, copies), .descend)

mutual

/-- Expands the rows below a node and then their copies, and adds to the number of rows expanded. -/
def expandBelow (params : Params) : Nat → Document × Nat → NodeId → Document × Nat
  | 0, state, _ => state
  | fuel + 1, (document, count), scope =>
    let (document, count, copies) := document.walk scope (expandVisited params) (count, [])
    copies.foldl (expandCopy params fuel) (document, count)

/-- A copy may repeat again for an inner list, or hold rows that do. -/
def expandCopy (params : Params) : Nat → Document × Nat → NodeId → Document × Nat
  | 0, state, _ => state
  | fuel + 1, (document, count), row =>
    match expandRow? params .own document row with
    | some (document, copies) => copies.foldl (expandCopy params fuel) (document, count + 1)
    | none => expandBelow params fuel (document, count) row

end

/-- A bound on the steps from a row to a copy or to a row inside it. Below each of at most as many
rows as there are nodes, every copy has a longer key, and no key that leads to a parameter is longer
than the tree is deep. -/
def expansionFuel (document : Document) (params : Params) : Nat :=
  (document.size + 1) * (params.depth + 4)

/-- Expands all rows below the root, and counts them. -/
def expandRows (document : Document) (params : Params) : Document × Nat :=
  expandBelow params (expansionFuel document params) (document, 0) document.root

def isPending (document : Document) (params : Params) (id : NodeId) : Bool :=
  (Placeholder.scan (document.text id)).any fun placeholder =>
    (repeating? params placeholder).isSome

/-- Expands the nearest row of any kind around the first text that is still pending, and goes on
until there is none; texts outside of rows are skipped. -/
def expandPending (params : Params) : Nat → List NodeId → Document × Nat → Document × Nat
  | 0, _, state => state
  | fuel + 1, skipped, (document, count) =>
    let pending? := (document.findAll document.root [Wordml.text]).find? fun id =>
      !skipped.contains id && isPending document params id
    match pending? with
    | none => (document, count)
    | some id =>
      match (document.closest? id rowTags).bind (expandRow? params .below document) with
      | none => expandPending params fuel (id :: skipped) (document, count)
      | some (document, copies) =>
        expandPending params fuel skipped
          (copies.foldl (expandCopy params (expansionFuel document params)) (document, count + 1))

/-- A bound on the rows that can come out of one row: at every level of the parameters, and inside
every row around it, a row is copied at most once for each parameter. -/
def copyBound (document : Document) (params : Params) : Nat :=
  Nat.pow (params.all.length + 2) ((params.depth + 2) * (document.depth + 1))

/-- Expands rows that do not own their pending texts, and counts them. -/
def expandLeftovers (document : Document) (params : Params) : Document × Nat :=
  expandPending params ((document.size + 1) * copyBound document params) [] (document, 0)

end WordTemplate.Filling
