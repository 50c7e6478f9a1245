import WordTemplate.Markup.Reader

/-!
A document as a store of nodes. A node is known by its slot, which never changes; removing a node
leaves its slot behind as a dead one. Links are kept twice, as the parent of a node and in the list
of children of its parent.
-/

namespace WordTemplate.Markup

/-- The slot of a node. -/
abbrev NodeId := Nat

structure Node extends Element where
  parent : Option NodeId := none
  children : List NodeId := []
  /-- Whether the node was copied or brought in after the document was read. -/
  isNew : Bool := false
  live : Bool := true
deriving DecidableEq, Repr

namespace Node

/-- Stands for a slot that does not exist. -/
def absent : Node :=
  { tag := "", live := false }

instance : Inhabited Node := ⟨absent⟩

end Node

namespace Tree

/-- The slots of trees that are laid out one after the other from a first slot on. -/
def roots (first : NodeId) : List Tree → List NodeId
  | [] => []
  | tree :: rest => first :: roots (first + tree.size) rest

mutual

/-- Lays a tree out in consecutive slots, parents before children and in document order. -/
def layOut (isNew : Bool) (parent : Option NodeId) (first : NodeId) : Tree → List Node
  | node element children =>
    { element with parent, children := roots (first + 1) children, isNew } ::
      layOutAll isNew (some first) (first + 1) children

def layOutAll (isNew : Bool) (parent : Option NodeId) (first : NodeId) : List Tree → List Node
  | [] => []
  | tree :: rest =>
    tree.layOut isNew parent first ++ layOutAll isNew parent (first + tree.size) rest

end

end Tree

structure Document where
  nodes : Array Node
  root : NodeId := 0
  /-- Whether the document is written with a declaration. -/
  declared : Bool := false

namespace Document

def ofTree (declared : Bool) (tree : Tree) : Document :=
  { nodes := (tree.layOut false none 0).toArray, declared }

def new (tag : String) : Document :=
  ofTree false (.node { tag } [])

def parse (text : String) : Except MarkupError Document := do
  let source ← Source.read text.toList
  return ofTree source.declared source.root

/-- The element that is put around a fragment. -/
def fragmentTag : String := "docxt:fragment"

/-- Reads any number of elements side by side as the children of one root. -/
def parseFragment (text : String) : Except MarkupError Document := do
  let source ← Source.read s!"<{fragmentTag}>{text}</{fragmentTag}>".toList
  return ofTree false source.root

/-! Looking at nodes -/

/-- The number of slots, dead ones included. -/
def size (document : Document) : Nat :=
  document.nodes.size

def node (document : Document) (id : NodeId) : Node :=
  document.nodes.getD id Node.absent

def tag (document : Document) (id : NodeId) : String :=
  (document.node id).tag

def text (document : Document) (id : NodeId) : String :=
  (document.node id).text

def parent? (document : Document) (id : NodeId) : Option NodeId :=
  (document.node id).parent

def children (document : Document) (id : NodeId) : List NodeId :=
  (document.node id).children

def isLive (document : Document) (id : NodeId) : Bool :=
  (document.node id).live

def attribute? (document : Document) (id : NodeId) (key : String) : Option String :=
  (document.node id).attribute? key

def isAny (document : Document) (tags : List String) (id : NodeId) : Bool :=
  tags.contains (document.tag id)

def firstChild? (document : Document) (id : NodeId) : Option NodeId :=
  (document.children id).head?

def childByTag? (document : Document) (id : NodeId) (tag : String) : Option NodeId :=
  (document.children id).find? fun child => document.tag child = tag

/-- The list of children a node stands in and its position there. -/
def place? (document : Document) (id : NodeId) : Option (List NodeId × Nat) := do
  let parent ← document.parent? id
  let siblings := document.children parent
  let position ← siblings.idxOf? id
  return (siblings, position)

def nextSibling? (document : Document) (id : NodeId) : Option NodeId := do
  let (siblings, position) ← document.place? id
  siblings[position + 1]?

def previousSibling? (document : Document) (id : NodeId) : Option NodeId := do
  let (siblings, position) ← document.place? id
  if position = 0 then none else siblings[position - 1]?

/-- The live nodes that are met by going down at most `depth` levels through live nodes. -/
def descendantsTo (document : Document) : Nat → NodeId → List NodeId
  | 0, _ => []
  | depth + 1, id =>
    (document.children id).flatMap fun child =>
      if document.isLive child then child :: document.descendantsTo depth child else []

/-- The live nodes below a node in document order. No chain of children is longer than the number
of slots. -/
def descendants (document : Document) (id : NodeId) : List NodeId :=
  document.descendantsTo document.size id

def findAll (document : Document) (start : NodeId) (tags : List String) : List NodeId :=
  (document.descendants start).filter (document.isAny tags)

def findFirst? (document : Document) (start : NodeId) (tags : List String) : Option NodeId :=
  (document.descendants start).find? (document.isAny tags)

def allText (document : Document) (id : NodeId) : String :=
  String.join (document.text id :: (document.descendants id).map document.text)

def closestTo? (document : Document) (tags : List String) : Nat → NodeId → Option NodeId
  | 0, _ => none
  | depth + 1, id =>
    if document.isAny tags id then some id
    else (document.parent? id).bind (document.closestTo? tags depth)

/-- The node itself or the nearest node above it that has one of the tags. -/
def closest? (document : Document) (id : NodeId) (tags : List String) : Option NodeId :=
  document.closestTo? tags (document.size + 1) id

def pathTo? (document : Document) (ancestor : NodeId) : Nat → NodeId → Option (List Nat)
  | 0, _ => none
  | depth + 1, id =>
    if id = ancestor then some []
    else do
      let (_, position) ← document.place? id
      let parent ← document.parent? id
      let path ← document.pathTo? ancestor depth parent
      return path ++ [position]

/-- The positions among siblings that lead down from a node to another. -/
def path? (document : Document) (ancestor id : NodeId) : Option (List Nat) :=
  document.pathTo? ancestor (document.size + 1) id

def follow? (document : Document) (start : NodeId) : List Nat → Option NodeId
  | [] => some start
  | position :: rest => do
    let child ← (document.children start)[position]?
    document.follow? child rest

def treeTo (document : Document) (shown : NodeId → Bool) : Nat → NodeId → Tree
  | 0, id => .node (document.node id).toElement []
  | depth + 1, id =>
    .node (document.node id).toElement
      (((document.children id).filter shown).map (document.treeTo shown depth))

/-- The tree of all nodes that are linked below a node. -/
def linkedTree (document : Document) (id : NodeId) : Tree :=
  document.treeTo (fun _ => true) document.size id

/-- The tree of the live nodes below a node. -/
def liveTree (document : Document) (id : NodeId) : Tree :=
  document.treeTo document.isLive document.size id

/-- The number of levels of live nodes from the root down. -/
def depth (document : Document) : Nat :=
  (document.liveTree document.root).depth

/-- Nothing is written for a dead node. -/
def writeNode (document : Document) (id : NodeId) : String :=
  if document.isLive id then String.ofList (document.linkedTree id).write else ""

def declarationLine : String :=
  "<?xml version=\"1.0\" encoding=\"UTF-8\" standalone=\"yes\"?>\r\n"

def write (document : Document) : String :=
  (if document.declared then declarationLine else "") ++ document.writeNode document.root

/-! Changing nodes -/

def modify (document : Document) (id : NodeId) (change : Node → Node) : Document :=
  { document with nodes := document.nodes.modify id change }

def setText (document : Document) (id : NodeId) (text : String) : Document :=
  document.modify id fun node => { node with text }

def pushText (document : Document) (id : NodeId) (text : String) : Document :=
  document.modify id fun node => { node with text := node.text ++ text }

def clearTextDeep (document : Document) (id : NodeId) : Document :=
  (id :: document.descendants id).foldl (fun document id => document.setText id "") document

def setAttributes (document : Document) (id : NodeId) (attributes : List Attribute) : Document :=
  document.modify id fun node => { node with attributes }

def setAttribute (document : Document) (id : NodeId) (key value : String) : Document :=
  document.modify id fun node => { node with toElement := node.toElement.setAttribute key value }

def removeAttribute (document : Document) (id : NodeId) (key : String) : Document :=
  document.modify id fun node => { node with toElement := node.toElement.removeAttribute key }

def removeAttributeDeep (document : Document) (id : NodeId) (key : String) : Document :=
  (id :: document.descendants id).foldl (fun document id => document.removeAttribute id key)
    document

/-- Appends nodes; the first one gets the slot that is returned. -/
def push (document : Document) (nodes : List Node) : Document × NodeId :=
  ({ document with nodes := document.nodes ++ nodes.toArray }, document.size)

def createElement (document : Document) (tag : String) : Document × NodeId :=
  document.push [{ tag }]

def detach (document : Document) (id : NodeId) : Document :=
  match document.parent? id with
  | none => document
  | some parent =>
    (document.modify id fun node => { node with parent := none }).modify parent fun node =>
      { node with children := node.children.filter (· != id) }

def append (document : Document) (parent child : NodeId) : Document :=
  ((document.detach child).modify child fun node => { node with parent := some parent }).modify
    parent fun node => { node with children := node.children ++ [child] }

/-- Moves a node to `offset` places behind an anchor, and tells whether it could be put there. -/
def insertBeside (document : Document) (offset : Nat) (anchor id : NodeId) : Document × Bool :=
  -- The node leaves its place first, so without a place beside the anchor it is left detached.
  let document := document.detach id
  match document.parent? anchor with
  | none => (document, false)
  | some parent =>
    match (document.children parent).idxOf? anchor with
    | none => (document, false)
    | some position =>
      let document := document.modify parent fun node =>
        { node with children := node.children.insertIdx (position + offset) id }
      (document.modify id fun node => { node with parent := some parent }, true)

def insertAfter (document : Document) (anchor id : NodeId) : Document × Bool :=
  document.insertBeside 1 anchor id

def insertBefore (document : Document) (anchor id : NodeId) : Document × Bool :=
  document.insertBeside 0 anchor id

/-- Adds the live tree of a node of a document, its top without parent. -/
def graft (document : Document) (source : Document) (id : NodeId) : Document × NodeId :=
  let (document, copy) := document.push ((source.liveTree id).layOut true none document.size)
  (document.modify copy fun node => { node with live := source.isLive id }, copy)

def graftAll (document : Document) (source : Document) : List NodeId → Document × List NodeId
  | [] => (document, [])
  | id :: rest =>
    let (document, copy) := document.graft source id
    let (document, copies) := document.graftAll source rest
    (document, copy :: copies)

def cloneSubtree (document : Document) (id : NodeId) : Document × NodeId :=
  document.graft document id

def cloneAfter (document : Document) (id : NodeId) : Document × NodeId :=
  let (document, copy) := document.cloneSubtree id
  ((document.insertAfter id copy).1, copy)

def linkedTo (document : Document) : Nat → NodeId → List NodeId
  | 0, id => [id]
  | depth + 1, id => id :: (document.children id).flatMap (document.linkedTo depth)

/-- A node and all nodes linked below it die and lose their children; the node leaves its parent. -/
def delete (document : Document) (id : NodeId) : Document :=
  if document.isLive id then
    let doomed := document.linkedTo document.size id
    let document := doomed.foldl
      (fun document id => document.modify id fun node =>
        { node with live := false, children := [] })
      document
    document.detach id
  else document

end Document

end WordTemplate.Markup
