import WordTemplate.Proofs.Markup.Layout

/-! Stores that grow: new slots come behind the old ones, and the old ones keep their elements, even
when they die. -/

namespace WordTemplate.Markup

open Outline (idsAll linksAll)

namespace Document

structure Extends (first second : Document) : Prop where
  size_le : first.size ≤ second.size
  toElement : ∀ id : Nat, id < first.size →
    (second.node id).toElement = (first.node id).toElement
  root : second.root = first.root
  declared : second.declared = first.declared

namespace Extends

theorem refl (document : Document) : Extends document document :=
  ⟨Nat.le_refl _, fun _ _ => rfl, rfl, rfl⟩

theorem trans {first second third : Document} (left : Extends first second)
    (right : Extends second third) : Extends first third where
  size_le := Nat.le_trans left.size_le right.size_le
  toElement := fun id bound =>
    (right.toElement id (Nat.lt_of_lt_of_le bound left.size_le)).trans (left.toElement id bound)
  root := right.root.trans left.root
  declared := right.declared.trans left.declared

variable {first second : Document}

theorem tag (extends_ : Extends first second) {id : Nat} (bound : id < first.size) :
    second.tag id = first.tag id :=
  congrArg Element.tag (extends_.toElement id bound)

theorem isAny (extends_ : Extends first second) {id : Nat} (bound : id < first.size)
    (tags : List String) : second.isAny tags id = first.isAny tags id := by
  rw [Document.isAny, Document.isAny, extends_.tag bound]

theorem toTree (extends_ : Extends first second) {outline : Outline}
    (bound : ∀ id : Nat, id ∈ outline.ids → id < first.size) :
    outline.toTree second = outline.toTree first :=
  Outline.toTree_congr fun id member => extends_.toElement id (bound id member)

theorem toTrees (extends_ : Extends first second) {outlines : List Outline}
    (bound : ∀ id : Nat, id ∈ idsAll outlines → id < first.size) :
    Outline.toTrees second outlines = Outline.toTrees first outlines :=
  Outline.toTrees_congr fun id member => extends_.toElement id (bound id member)

end Extends

theorem Holds.lt_size {document : Document} {forest : List Outline} (holds : document.Holds forest)
    {id : Nat} (member : id ∈ idsAll forest) : id < document.size :=
  lt_size_of_isLive (holds.isLive_of_mem member)

theorem HoldsIn.lt_size {document : Document} {context : Context} {outlines : List Outline}
    (holds : document.HoldsIn context outlines) {id : Nat} (member : id ∈ idsAll outlines) :
    id < document.size :=
  lt_size_of_isLive (holds.isLive_of_mem_idsAll member)

theorem Extends.modify {first second : Document} (extends_ : Extends first second) {id : NodeId}
    {change : Node → Node} (kept : ∀ node, (change node).toElement = node.toElement) :
    Extends first (second.modify id change) := by
  refine extends_.trans ⟨Nat.le_of_eq (size_modify ..).symm, ?_, rfl, rfl⟩
  intro other _
  rw [node_modify]
  split
  · exact kept _
  · rfl

theorem extends_foldl {step : Document → NodeId → Document}
    (extends_ : ∀ document id, Extends document (step document id)) (ids : List NodeId)
    (document : Document) : Extends document (ids.foldl step document) := by
  induction ids generalizing document with
  | nil => exact .refl document
  | cons id rest ih => exact (extends_ document id).trans (ih _)

theorem extends_detach (document : Document) (id : NodeId) :
    Extends document (document.detach id) := by
  rw [detach]
  split
  · exact .refl document
  · refine .modify (.modify (.refl document) ?_) ?_
    · intro node
      rfl
    · intro node
      rfl

theorem extends_delete (document : Document) (id : NodeId) :
    Extends document (document.delete id) := by
  rw [delete]
  split
  · refine .trans (extends_foldl ?_ (document.linkedTo document.size id) document)
      (extends_detach _ _)
    intro other inner
    exact .modify (.refl other) fun _ => rfl
  · exact .refl document

theorem extends_insertAfter (document : Document) (anchor id : NodeId) :
    Extends document (document.insertAfter anchor id).1 := by
  have detached := extends_detach document id
  simp only [insertAfter, insertBeside]
  split
  · exact detached
  · split
    · exact detached
    · refine .modify (.modify detached ?_) ?_
      · intro node
        rfl
      · intro node
        rfl

theorem extends_push (document : Document) (nodes : List Node) :
    Extends document (document.push nodes).1 := by
  refine ⟨by rw [size_push]; omega, ?_, rfl, rfl⟩
  intro id bound
  rw [node_push_of_lt nodes bound]

theorem extends_graft (document source : Document) (id : NodeId) :
    Extends document (document.graft source id).1 := by
  refine .modify (extends_push document _) ?_
  intro node
  rfl

theorem extends_cloneSubtree (document : Document) (id : NodeId) :
    Extends document (document.cloneSubtree id).1 :=
  extends_graft document document id

end Document

namespace Context

theorem ids_subset_under (outer : Context) (before after : List Outline) (id : NodeId) :
    outer.ids ⊆ (under outer before after id).ids := by
  intro other member
  rw [ids, List.map_append, List.mem_append] at member
  rw [ids, frame, List.map_append, List.map_append, List.map_append]
  simp only [List.mem_append]
  rcases member with framed | rimmed
  · exact .inl (.inl (.inl framed))
  · rw [outer.map_id_rim [] [id]] at rimmed
    exact .inl (.inl (.inr rimmed))

theorem mem_ids_of_closest? {document : Document} {tags : List String} {context : Context}
    {found : NodeId} (closest : context.closest? document tags = some found) :
    found ∈ context.ids := by
  induction context with
  | top before after => simp [closest?] at closest
  | under outer before after id ih =>
      rw [closest?] at closest
      split at closest
      · simp only [Option.some.injEq] at closest
        subst closest
        exact parent_mem_ids rfl
      · exact ids_subset_under outer before after id (ih closest)

theorem closest?_extends {first second : Document} (extends_ : first.Extends second)
    {context : Context} (bound : ∀ id : Nat, id ∈ context.ids → id < first.size)
    (tags : List String) :
    context.closest? second tags = context.closest? first tags := by
  induction context with
  | top before after => rfl
  | under outer before after id ih =>
      have here := extends_.isAny (bound id (parent_mem_ids rfl)) tags
      have above := ih fun other member =>
        bound other (ids_subset_under outer before after id member)
      rw [closest?, closest?, here, above]

def isInside (document : Document) (tags : List String) (context : Context) : Bool :=
  (context.closest? document tags).isSome

end Context

end WordTemplate.Markup
