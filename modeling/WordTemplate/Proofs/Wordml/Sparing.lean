import WordTemplate.Proofs.Wordml.Merging

/-! Repairing runs never removes the root. What goes are runs inside a paragraph and texts, and the run
around a text that has gone: it stands between the text and its paragraph, and so below the root. -/

namespace WordTemplate.Wordml

open Markup
open Markup.Document (Rewritten)

/-- The root is there, and nothing stands above it. -/
structure Topped (document : Document) : Prop where
  sound : document.Sound
  live : document.isLive document.root = true
  top : document.parent? document.root = none

theorem topped_of_parse {source : String} {document : Document}
    (read : Document.parse source = .ok document) : Topped document := by
  refine ⟨(Document.Opened.parse read).sound, Document.isLive_root_of_parse read, ?_⟩
  obtain ⟨declared, tree, rfl⟩ := Document.exists_ofTree_of_parse read
  cases tree
  rfl

theorem Topped.ne_root_of_child {document : Document} (topped : Topped document) {parent child : NodeId}
    (lists : child ∈ document.children parent) : child ≠ document.root := by
  rintro rfl
  have above : document.parent? document.root = some parent := topped.sound.wellFormed.above lists
  rw [topped.top] at above
  simp at above

theorem Topped.root_not_below {document : Document} (topped : Topped document) (start : NodeId) :
    document.root ∉ document.descendants start := by
  intro below
  obtain ⟨parent, _, lists⟩ := Relation.TransGen.tail'_iff.mp
    (((topped.sound.descendants start).2 _).mp below).2
  exact topped.ne_root_of_child lists rfl

/-- Neither the node nor, if it is a run, the node above it is the root. -/
structure Inner (document : Document) (id : NodeId) : Prop where
  apart : id ≠ document.root
  above : document.parent? id = some document.root → document.tag document.root ≠ run

/-- The second document comes from the first one without giving a parent to any node, and the root is
still there. -/
structure Spares (first second : Document) : Prop where
  topped : Topped second
  root : second.root = first.root
  tag : second.tag first.root = first.tag first.root
  parent : ∀ id above, second.parent? id = some above → first.parent? id = some above

namespace Spares

variable {first second third document : Document}

theorem refl (topped : Topped document) : Spares document document :=
  ⟨topped, rfl, rfl, fun _ _ stands => stands⟩

theorem trans (left : Spares first second) (right : Spares second third) : Spares first third where
  topped := right.topped
  root := right.root.trans left.root
  tag := by
    have later := right.tag
    rw [left.root] at later
    exact later.trans left.tag
  parent := fun id above stands => left.parent id above (right.parent id above stands)

theorem inner (spares : Spares first second) {id : NodeId} (inner : Inner first id) :
    Inner second id := by
  refine ⟨spares.root ▸ inner.apart, fun stands => ?_⟩
  rw [spares.root] at stands ⊢
  rw [spares.tag]
  exact inner.above (spares.parent id _ stands)

theorem rewritten (topped : Topped first) (rewritten : Rewritten first second) :
    Spares first second where
  topped := by
    refine ⟨rewritten.sound topped.sound, ?_, ?_⟩
    · rw [rewritten.links.isLive, rewritten.ages.root]
      exact topped.live
    · rw [rewritten.links.parent?, rewritten.ages.root]
      exact topped.top
  root := rewritten.ages.root
  tag := rewritten.ages.tag _ (Document.lt_size_of_isLive topped.live)
  parent := fun id above stands => by rwa [rewritten.links.parent?] at stands

theorem delete (topped : Topped document) {id : NodeId} (apart : id ≠ document.root) :
    Spares document (document.delete id) := by
  by_cases live : document.isLive id = true
  · have removes := topped.sound.removes_delete live
    have kept : document.root ∉ id :: document.descendants id := by
      rw [List.mem_cons, not_or]
      exact ⟨apart.symm, topped.root_not_below id⟩
    refine ⟨⟨topped.sound.delete id, ?_, ?_⟩, removes.root, removes.tag _, fun other above => ?_⟩
    · rw [removes.root, removes.live _ kept]
      exact topped.live
    · rw [removes.root, removes.parent _ kept]
      exact topped.top
    · obtain ⟨context, outline, rfl, holds⟩ := topped.sound.exists_context live
      rw [Document.parent?_delete holds]
      split
      · simp
      · exact fun stands => stands
  · rw [Document.delete_of_dead (by simpa using live)]
    exact .refl topped

theorem deleteText (topped : Topped document) {id : NodeId} (inner : Inner document id) :
    Spares document (deleteText document id) := by
  have deleted := Spares.delete topped inner.apart
  rw [Wordml.deleteText]
  split
  · exact deleted
  · rename_i parent above
    split
    · rename_i bare
      simp only [Bool.and_eq_true, decide_eq_true_eq] at bare
      refine deleted.trans (.delete deleted.topped ?_)
      rintro rfl
      have isRun := bare.1
      rw [deleted.root] at above
      rw [deleted.root, deleted.tag] at isRun
      exact inner.above above isRun
    · exact deleted

theorem joinRuns (topped : Topped document) (anchor : Option Anchor) {children : List NodeId}
    (apart : ∀ child ∈ children, child ≠ document.root) :
    Spares document (joinRuns document anchor children).1 := by
  induction children generalizing document anchor with
  | nil => exact .refl topped
  | cons child rest ih =>
      have later : ∀ other ∈ rest, other ≠ document.root :=
        fun other member => apart other (by simp [member])
      rw [Wordml.joinRuns]
      split
      · exact ih topped none later
      · rename_i found _
        simp only
        split
        · rename_i target _
          have written := Spares.rewritten topped
            (restyles_pushText document target.text (document.text found)).rewritten
          have styled := written.trans (.rewritten written.topped
            (restyles_preserveSpace _ target.text).rewritten)
          have step := styled.trans (.delete styled.topped (styled.root ▸ apart child (by simp)))
          exact step.trans (ih step.topped _ (step.root ▸ later))
        · exact ih topped _ later

theorem absorb (topped : Topped document) (target : NodeId) {ids : List NodeId}
    (inner : ∀ id ∈ ids, Inner document id) : Spares document (absorb document target ids) := by
  induction ids generalizing document with
  | nil => exact .refl topped
  | cons id rest ih =>
      have written := Spares.rewritten topped
        (restyles_pushText document target (document.text id)).rewritten
      have step := written.trans (.deleteText written.topped (written.inner (inner id (by simp))))
      exact step.trans (ih step.topped fun other member => step.inner (inner other (by simp [member])))

theorem completeMarkers (topped : Topped document) {ids : List NodeId}
    (inner : ∀ id ∈ ids, Inner document id) : Spares document (completeMarkers document ids).1 := by
  refine completeMarkers_induction (motive := fun document ids result => Topped document →
    (∀ id ∈ ids, Inner document id) → Spares document result) ?_ ?_ ?_ document ids topped inner
  · exact fun document topped _ => .refl topped
  · intro document id rest taken after result closing spares topped inner
    obtain ⟨first, second⟩ := mem_of_cutClosing? closing
    have absorbed := absorb topped id fun other member =>
      inner other (List.mem_cons_of_mem _ (first member))
    have step := absorbed.trans (.rewritten absorbed.topped (restyles_preserveSpace _ id).rewritten)
    exact step.trans (spares step.topped fun other member =>
      step.inner (inner other (List.mem_cons_of_mem _ (second member))))
  · exact fun document id rest result spares topped inner =>
      spares topped fun other member => inner other (List.mem_cons_of_mem _ member)

end Spares

theorem Topped.inner_of_mem_ownTexts {document : Document} (topped : Topped document)
    {paragraph id : NodeId} (member : id ∈ ownTexts document paragraph) : Inner document id := by
  obtain ⟨below, isText, around⟩ := mem_ownTexts.mp member
  have live := (((topped.sound.descendants paragraph).2 id).mp below).1
  refine ⟨?_, fun above isRun => ?_⟩
  · rintro rfl
    exact topped.root_not_below paragraph below
  · rw [topped.sound.closest?_eq live, above, Option.bind_some,
      topped.sound.closest?_eq topped.live, topped.top] at around
    simp [Document.isAny, isText, isRun, text, run, Wordml.paragraph] at around

theorem topped_repairRuns {document : Document} (topped : Topped document) :
    Topped (repairRuns document) := by
  refine List.foldlRecOn (motive := Topped) _ _ topped fun document topped id _ => ?_
  split
  · refine eachParagraph_induction (fun document id topped => ?_)
      (eachParagraph_induction (fun document id topped => ?_) topped id) id
    · exact (Spares.completeMarkers topped fun _ => topped.inner_of_mem_ownTexts).topped
    · exact (Spares.joinRuns topped none fun _ => topped.ne_root_of_child).topped
  · exact topped

end WordTemplate.Wordml
