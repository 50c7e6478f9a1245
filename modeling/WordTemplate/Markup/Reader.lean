import WordTemplate.Markup.Token
import WordTemplate.Text.Blank

/-!
From tokens to a tree. The first element is the root and all that follows its end is dropped. A text
that turns malformed after the root was opened gives the tree as far as it was read.
-/

namespace WordTemplate.Markup

inductive MarkupError
  | malformed
  | noRootElement
deriving DecidableEq, Repr

namespace MarkupError

def message : MarkupError → String
  | malformed => "XML parse error"
  | noRootElement => "document has no root element"

end MarkupError

/-- An element that is still open, with the children read so far, newest first. -/
structure Frame where
  element : Element
  children : List Tree

namespace Frame

def start (tag : String) (attributes : List Attribute) : Frame :=
  ⟨{ tag, attributes }, []⟩

def addText (frame : Frame) (content : List Char) : Frame :=
  let text := String.ofList (frame.element.text.toList ++ content)
  { frame with element := { frame.element with text } }

def addChild (frame : Frame) (child : Tree) : Frame :=
  { frame with children := child :: frame.children }

/-- The element as it stands, when its end is not met. -/
def tree (frame : Frame) : Tree :=
  .node frame.element frame.children.reverse

/-- Beside children, blank text is layout and is dropped. -/
def dropLayout (frame : Frame) : Frame :=
  if !frame.children.isEmpty && Text.isAllBlank frame.element.text.toList then
    { frame with element := { frame.element with text := "" } }
  else frame

/-- The element when its end is met. -/
def close (frame : Frame) : Tree :=
  frame.dropLayout.tree

/-- Puts an inner element into the frames around it, which are left as they stand. -/
def unwind (inner : Tree) : List Frame → Tree
  | [] => inner
  | frame :: outer => unwind (frame.addChild inner).tree outer

end Frame

inductive Stage
  | beforeRoot
  /-- Open elements, innermost first. -/
  | inside (inner : Frame) (outer : List Frame)
  /-- After the root, with the names of elements opened since. -/
  | afterRoot (root : Tree) (stray : List String)

namespace Stage

def addElement : Stage → Tree → Stage
  | beforeRoot, tree => afterRoot tree []
  | inside inner outer, tree => inside (inner.addChild tree) outer
  | afterRoot root stray, _ => afterRoot root stray

def openElement : Stage → String → List Attribute → Stage
  | beforeRoot, tag, attributes => inside (Frame.start tag attributes) []
  | inside inner outer, tag, attributes => inside (Frame.start tag attributes) (inner :: outer)
  | afterRoot root stray, tag, _ => afterRoot root (tag :: stray)

/-- An end tag has to name the element opened last. -/
def closeElement? : Stage → String → Option Stage
  | beforeRoot, _ => none
  | inside inner outer, tag =>
    if tag = inner.element.tag then
      match outer with
      | [] => some (afterRoot inner.close [])
      | next :: others => some (inside (next.addChild inner.close) others)
    else none
  | afterRoot root (name :: stray), tag => if tag = name then some (afterRoot root stray) else none
  | afterRoot _ [], _ => none

def addText : Stage → List Char → Stage
  | inside inner outer, content => inside (inner.addText content) outer
  | stage, _ => stage

def step? (stage : Stage) : Token → Option Stage
  | .opening tag attributes => some (stage.openElement tag attributes)
  | .empty tag attributes => some (stage.addElement (.node { tag, attributes } []))
  | .closing tag => stage.closeElement? tag
  | .text content => some (stage.addText content)
  | .reference name => some (stage.addText (resolveReference name))
  | .declaration => some stage
  | .ignored => some stage

/-- Takes tokens as long as they fit, and tells whether all did. -/
def run (stage : Stage) : List Token → Stage × Bool
  | [] => (stage, true)
  | token :: rest =>
    match stage.step? token with
    | some next => next.run rest
    | none => (stage, false)

/-- The tokens that `run` takes. -/
def taken (stage : Stage) : List Token → List Token
  | [] => []
  | token :: rest =>
    match stage.step? token with
    | some next => token :: next.taken rest
    | none => []

def root? : Stage → Option Tree
  | beforeRoot => none
  | inside inner outer => some (Frame.unwind inner.tree outer)
  | afterRoot root _ => some root

end Stage

/-- What a markup text says: its root element, and whether it carries a declaration. -/
structure Source where
  declared : Bool
  root : Tree

namespace Source

/-- Without a root the text is malformed if its reading stopped early, and has no root otherwise. -/
def read (text : List Char) : Except MarkupError Source :=
  let text := if text.head? = some '\uFEFF' then text.tail else text
  let (tokens, whole) := Token.scan text
  let (stage, fits) := Stage.beforeRoot.run tokens
  match stage.root? with
  | some root => .ok ⟨(Stage.beforeRoot.taken tokens).contains .declaration, root⟩
  | none => .error (if whole && fits then .noRootElement else .malformed)

end Source

end WordTemplate.Markup
