import WordTemplate.Markup.Document

/-!
Walking over a document that changes on the way. The children of a node are looked up when the node
has been visited, so that copies put beside a visited node are not met and removed nodes are not
visited.
-/

namespace WordTemplate.Markup.Document

inductive Step
  | descend
  | skip
deriving DecidableEq, Repr

/-- What is done at a node: the document and the walker's own state change. -/
abbrev Visitor (σ : Type) := Document → σ → NodeId → Document × σ × Step

variable {σ : Type}

def walkNode (visit : Visitor σ) : Nat → Document × σ → NodeId → Document × σ
  | 0, state, _ => state
  | depth + 1, state, id =>
    if state.1.isLive id then
      let (document, own, step) := visit state.1 state.2 id
      if step = .skip || !document.isLive id then (document, own)
      else (document.children id).foldl (walkNode visit depth) (document, own)
    else state

/-- Visits the live nodes below a node in document order. -/
def walk (document : Document) (start : NodeId) (visit : Visitor σ) (own : σ) : Document × σ :=
  (document.children start).foldl (walkNode visit document.size) (document, own)

end WordTemplate.Markup.Document
