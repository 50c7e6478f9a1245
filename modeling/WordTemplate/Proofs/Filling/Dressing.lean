import WordTemplate.Proofs.Filling.MaskedStart
import WordTemplate.Proofs.Markup.DistinctKeys

/-! What marking lists and repairing runs do to attributes. Lists are marked with an attribute of their
own, texts may be told to keep their blanks, and all other attributes stay. -/

namespace WordTemplate

open Markup
open Markup.Element (except)

/-- Attributes of which one says that blanks are to be kept. -/
def Wordml.preserved (attributes : List Attribute) : List Attribute :=
  Element.setAttribute.set spaceKey "preserve" attributes

namespace Wordml

/-- The second document gives each node the attributes it has in the first one, and may tell texts to
keep their blanks. -/
structure Dresses (first second : Document) : Prop where
  tag : ∀ id, second.tag id = first.tag id
  attributes : ∀ id, (second.node id).attributes = (first.node id).attributes ∨
    first.tag id = text ∧ (second.node id).attributes = preserved (first.node id).attributes

namespace Dresses

variable {first second third : Document}

theorem refl (document : Document) : Dresses document document :=
  ⟨fun _ => rfl, fun _ => .inl rfl⟩

theorem trans (left : Dresses first second) (right : Dresses second third) : Dresses first third where
  tag := fun id => (right.tag id).trans (left.tag id)
  attributes := by
    intro id
    rcases right.attributes id with later | ⟨isText, later⟩
    · rw [later]
      exact left.attributes id
    · rw [left.tag id] at isText
      refine .inr ⟨isText, ?_⟩
      rcases left.attributes id with early | ⟨_, early⟩
      · rw [later, early]
      · rw [later, early, preserved, preserved, Element.set_set]

theorem foldl {α : Type} {step : Document → α → Document} {items : List α}
    (dresses : ∀ document, ∀ item ∈ items, Dresses document (step document item))
    (document : Document) : Dresses document (items.foldl step document) :=
  List.foldlRecOn items step (motive := Dresses document) (.refl document)
    fun _ kept item member => kept.trans (dresses _ item member)

theorem modify (document : Document) (id : NodeId) {change : Node → Node}
    (tag : ∀ node : Node, (change node).tag = node.tag)
    (attributes : ∀ node : Node, (change node).attributes = node.attributes) :
    Dresses document (document.modify id change) := by
  refine ⟨fun other => ?_, fun other => .inl ?_⟩
  · rw [Document.tag, Document.node_modify]
    split
    · exact tag _
    · rfl
  · rw [Document.node_modify]
    split
    · exact attributes _
    · rfl

theorem detach (document : Document) (id : NodeId) : Dresses document (document.detach id) := by
  rw [Document.detach]
  split
  · exact .refl document
  · refine (modify document id ?_ ?_).trans (modify _ _ ?_ ?_)
    all_goals exact fun _ => rfl

theorem delete (document : Document) (id : NodeId) : Dresses document (document.delete id) := by
  rw [Document.delete]
  split
  · refine (foldl (fun document id _ => modify document id ?_ ?_) document).trans (detach _ id)
    all_goals exact fun _ => rfl
  · exact .refl document

theorem deleteText (document : Document) (id : NodeId) : Dresses document (deleteText document id) := by
  rw [Wordml.deleteText]
  split
  · exact delete document id
  · split
    · exact (delete document id).trans (delete _ _)
    · exact delete document id

theorem pushText (document : Document) (id : NodeId) (content : String) :
    Dresses document (document.pushText id content) :=
  modify document id (fun _ => rfl) fun _ => rfl

theorem preserveSpace {document : Document} {id : NodeId} (isText : document.tag id = text) :
    Dresses document (preserveSpace document id) := by
  rw [Wordml.preserveSpace]
  split
  · refine ⟨fun other => ?_, fun other => ?_⟩
    · rw [Document.tag, Document.setAttribute, Document.node_modify]
      split <;> rfl
    · rw [Document.setAttribute, Document.node_modify]
      split
      · rename_i here
        exact .inr ⟨here.1 ▸ isText, rfl⟩
      · exact .inl rfl
  · exact .refl document

theorem joinRuns (document : Document) {anchor : Option Anchor}
    (anchored : ∀ found ∈ anchor, document.tag found.text = text) (children : List NodeId) :
    Dresses document (joinRuns document anchor children).1 := by
  induction children generalizing document anchor with
  | nil => exact .refl document
  | cons child rest ih =>
      unfold Wordml.joinRuns
      split
      · exact ih document (by simp)
      · rename_i found sole
        have isText : document.tag found = text := by
          split at sole
          · exact isText_of_soleText? sole
          · simp at sole
        simp only
        split
        · rename_i target chosen
          have targetText := anchored target (Option.eq_some_of_filter_eq_some chosen)
          have pushed := pushText document target.text (document.text found)
          have joined := (pushed.trans (preserveSpace ((pushed.tag _).trans targetText))).trans
            (delete _ child)
          refine joined.trans (ih _ ?_)
          simpa [joined.tag] using targetText
        · exact ih document (by simpa using isText)

theorem absorb (document : Document) (target : NodeId) (ids : List NodeId) :
    Dresses document (absorb document target ids) :=
  foldl (fun document id _ => (pushText document target _).trans (deleteText _ id)) document

theorem completeMarkers {document : Document} {ids : List NodeId}
    (texts : ∀ id ∈ ids, document.tag id = text) :
    Dresses document (completeMarkers document ids).1 := by
  refine completeMarkers_induction (motive := fun document ids result =>
    (∀ id ∈ ids, document.tag id = text) → Dresses document result) ?_ ?_ ?_ document ids texts
  · exact fun document _ => .refl document
  · intro document id rest taken after result closing kept texts
    obtain ⟨target, others⟩ := List.forall_mem_cons.mp texts
    have absorbed := absorb document id taken
    have step := absorbed.trans (preserveSpace ((absorbed.tag id).trans target))
    refine step.trans (kept fun other member => ?_)
    exact (step.tag other).trans (others other ((mem_of_cutClosing? closing).2 member))
  · exact fun document id rest result kept texts => kept (List.forall_mem_cons.mp texts).2

theorem repairRuns (document : Document) : Dresses document (repairRuns document) := by
  refine foldl (fun document id _ => ?_) document
  split
  · have joined : Dresses document (mergeAdjacentRuns document id).1 :=
      eachParagraph_induction (fun _ _ kept => kept.trans (joinRuns _ (by simp) _)) (.refl document) id
    exact eachParagraph_induction
      (fun _ _ kept => kept.trans (completeMarkers fun _ => isText_of_mem_ownTexts)) joined id
  · exact .refl document

variable (dresses : Dresses first second)
include dresses

theorem distinctKeys {id : NodeId} (distinct : DistinctKeys (first.node id).attributes) :
    DistinctKeys (second.node id).attributes := by
  rcases dresses.attributes id with same | ⟨_, same⟩
  · rw [same]
    exact distinct
  · rw [same]
    exact Element.distinctKeys_set distinct

theorem value {holds : String → Prop} {id : NodeId} (preserve : holds "preserve")
    (value : ∀ entry ∈ (first.node id).attributes, holds entry.value) :
    ∀ entry ∈ (second.node id).attributes, holds entry.value := by
  rcases dresses.attributes id with same | ⟨_, same⟩
  · rw [same]
    exact value
  · rw [same]
    intro entry member
    rcases Element.mem_set member with rfl | old
    · exact preserve
    · exact value entry old

end Dresses

end Wordml

namespace Filling

def unmarked (document : Document) (id : NodeId) : List Attribute :=
  except listKey (document.node id).attributes

structure Marks (first second : Document) : Prop where
  rewritten : Document.Rewritten first second
  text : ∀ id, second.text id = first.text id
  unmarked : ∀ id, unmarked second id = unmarked first id
  distinct : ∀ id, DistinctKeys (first.node id).attributes → DistinctKeys (second.node id).attributes

theorem marks_setAttribute (document : Document) (id : NodeId) (number : String) :
    Marks document (document.setAttribute id listKey number) := by
  refine ⟨Document.rewritten_modify document id ?_ ?_ ?_ ?_, fun other => ?_, fun other => ?_,
    fun other distinct => ?_⟩
  iterate 4 exact fun _ => rfl
  · rw [Document.text, Document.setAttribute, Document.node_modify]
    split <;> rfl
  · rw [unmarked, Document.setAttribute, Document.node_modify]
    split
    · exact Element.except_set
    · rfl
  · rw [Document.setAttribute, Document.node_modify]
    split
    · exact Element.distinctKeys_set distinct
    · exact distinct

theorem marks_markLists (document : Document) : Marks document (markLists document) := by
  refine List.foldlRecOn _ _ (motive := Marks document)
    ⟨.refl document, fun _ => rfl, fun _ => rfl, fun _ distinct => distinct⟩ fun middle marks id _ => ?_
  split
  · rename_i number _
    have next := marks_setAttribute middle id number
    exact ⟨marks.rewritten.trans next.rewritten, fun other => (next.text other).trans (marks.text other),
      fun other => (next.unmarked other).trans (marks.unmarked other),
      fun other distinct => next.distinct other (marks.distinct other distinct)⟩
  · exact marks

section Stripping

variable {document : Document} (distinct : ∀ id, DistinctKeys (document.node id).attributes)
include distinct

theorem attributes_removeAttribute (id other : NodeId) :
    ((document.removeAttribute id listKey).node other).attributes =
      if other = id then unmarked document other else (document.node other).attributes := by
  rw [Document.removeAttribute, Document.node_modify]
  by_cases bound : other < document.size
  · by_cases same : other = id
    · rw [if_pos ⟨same, bound⟩, if_pos same]
      exact Element.eraseP_of_distinctKeys (distinct other)
    · rw [if_neg fun both => same both.1, if_neg same]
  · rw [if_neg fun both => bound both.2, unmarked, Document.node_of_le_size (Nat.le_of_not_lt bound)]
    split <;> rfl

theorem attributes_foldl_removeAttribute (ids : List NodeId) (id : NodeId) :
    ((ids.foldl (fun document id => document.removeAttribute id listKey) document).node id).attributes =
      if id ∈ ids then unmarked document id else (document.node id).attributes := by
  induction ids generalizing document with
  | nil => rfl
  | cons first rest ih =>
      have stays : ∀ other, DistinctKeys
          ((document.removeAttribute first listKey).node other).attributes := by
        intro other
        rw [attributes_removeAttribute distinct]
        split
        · exact Element.distinctKeys_except (distinct other)
        · exact distinct other
      have again : unmarked (document.removeAttribute first listKey) id = unmarked document id := by
        rw [unmarked, attributes_removeAttribute distinct]
        split
        · exact Element.except_except
        · rfl
      rw [List.foldl_cons, ih stays, again, attributes_removeAttribute distinct]
      by_cases later : id ∈ rest
      · rw [if_pos later, if_pos (List.mem_cons_of_mem _ later)]
      · by_cases here : id = first
        · rw [if_neg later, if_pos here, if_pos (List.mem_cons.mpr (.inl here))]
        · rw [if_neg later, if_neg here, if_neg (by simp [here, later])]

theorem attributes_stripMarks {id : NodeId}
    (inside : id = document.root ∨ id ∈ document.descendants document.root) :
    ((stripMarks document).node id).attributes = unmarked document id := by
  rw [stripMarks, Document.removeAttributeDeep, attributes_foldl_removeAttribute distinct,
    if_pos (List.mem_cons.mpr inside)]

end Stripping

end Filling

end WordTemplate
