import WordTemplate.Filling.Firing

/-!
Inline placeholders: all values of a key in one text, with the separator of the placeholder between
them. The positions that a key placeholder gives are one running sequence.
-/

namespace WordTemplate.Filling

open Markup

/-- What one match of an inline placeholder contributes. A list contributes its items. -/
def inlineParts (placeholder : Placeholder) (found : Numbered) : List String :=
  if found.param.isList then
    found.param.children.filterMap fun item =>
      if placeholder.asksKey then some item.key
      else if item.isScalar then some (placeholder.format item.value)
      else none
  else if placeholder.asksKey then [toString found.number]
  else if found.param.isScalar then [placeholder.format found.param.value]
  else []

/-- The joined values of an inline placeholder; none if nothing matches its key. -/
def inlineValue? (params : Params) (placeholder : Placeholder) : Option String := do
  let separator ← placeholder.separator
  match params.findAll placeholder.key with
  | [] => none
  | found => some (separator.intercalate (found.flatMap (inlineParts placeholder)))

def inlineFirings (document : Document) (params : Params) (id : NodeId) : List Firing :=
  (Placeholder.scan (document.text id)).filterMap fun placeholder => do
    let value ← inlineValue? params placeholder
    let trigger ← placeholder.trigger?
    return ⟨id, document.parent? id, trigger, value⟩

def fillInlineText (params : Params) (document : Document) (id : NodeId) : Document :=
  let content := document.text id
  if (Placeholder.scan content).any fun placeholder =>
      (inlineValue? params placeholder).isSome then
    let filled := Piece.render
      (fun placeholder => (inlineValue? params placeholder).getD placeholder.source)
      (Piece.ofText content)
    Wordml.preserveSpace (document.setText id filled) id
  else document

/-- Fills all inline placeholders below the root, and evaluates their triggers afterwards. -/
def fillInline (document : Document) (params : Params) : Document :=
  let texts := document.findAll document.root [Wordml.text]
  let firings := texts.flatMap (inlineFirings document params)
  Firing.evaluateAll (texts.foldl (fillInlineText params) document) firings

end WordTemplate.Filling
