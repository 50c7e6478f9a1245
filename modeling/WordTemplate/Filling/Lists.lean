import WordTemplate.Wordml.Vocabulary

/-!
List paragraphs. While a document is filled each paragraph of a list carries the number of its list
in an attribute, which stays with it when it is copied and is dropped in the end.
-/

namespace WordTemplate.Filling

open Markup

def listKey : String := "docxt:list"

/-- Marks every paragraph below the root that belongs to a list. -/
def markLists (document : Document) : Document :=
  (document.findAll document.root [Wordml.paragraph]).foldl
    (fun document id =>
      match Wordml.listNumber? document id with
      | some number => document.setAttribute id listKey number
      | none => document)
    document

/-- The list of a paragraph, by its mark or else by its numbering. -/
def list? (document : Document) (id : NodeId) : Option String :=
  (document.attribute? id listKey).or (Wordml.listNumber? document id)

def stripMarks (document : Document) : Document :=
  document.removeAttributeDeep document.root listKey

/-- The paragraphs beside a paragraph that belong to the same list. A paragraph without list stands
for itself. -/
def listMembers (document : Document) (id : NodeId) : List NodeId :=
  match list? document id, document.parent? id with
  | some number, some parent =>
    (document.children parent).filter fun sibling =>
      document.tag sibling = Wordml.paragraph && list? document sibling = some number
  | _, _ => [id]

end WordTemplate.Filling
