import WordTemplate.Filling.Passes
import WordTemplate.Proofs.Filling.Inserts

/-! The passes that put in no values: marking lists, repairing runs and carrying out triggers. They keep
a document rooted, and its texts and values tidy. -/

namespace WordTemplate

open Markup
open Markup.Document (Keeps)
open Placeholder (Tidy Filled)

theorem Placeholder.tidy_of_braceless {text : String} (plain : Braceless text.toList) : Tidy text :=
  (filled_of_braceless plain : Filled (fun _ => False) text).tidy

theorem Placeholder.Tidy.append {front back : String} (first : Tidy front) (second : Tidy back) :
    Tidy (front ++ back) :=
  (filled_append first.filled second.filled).tidy

theorem tidy_empty : Tidy "" :=
  Placeholder.tidy_of_braceless (by decide)

theorem tidy_preserve : Tidy "preserve" :=
  Placeholder.tidy_of_braceless (by decide)

namespace Markup.Document

theorem AllSlots.text {holds : String → Prop} {document : Document} (slots : document.AllSlots holds)
    {id : NodeId} (isText : document.tag id = Wordml.text) : holds (document.text id) :=
  (slots id trivial (by simp)).text isText

theorem AllSlots.value {holds : String → Prop} {document : Document}
    (slots : document.AllSlots holds) (id : NodeId) :
    ∀ entry ∈ (document.node id).attributes, holds entry.value :=
  (slots id trivial (by simp)).value

theorem lt_size_of_isText {document : Document} {id : Nat} (isText : document.tag id = Wordml.text) :
    id < document.size := by
  by_contra beyond
  rw [tag, node_of_le_size (Nat.le_of_not_lt beyond)] at isText
  exact absurd isText (by decide)

theorem Ages.isText {first second : Document} (ages : Ages first second) {id : Nat}
    (isText : first.tag id = Wordml.text) : second.tag id = Wordml.text :=
  (ages.tag id (lt_size_of_isText isText)).trans isText

end Markup.Document

namespace Wordml

theorem keeps_pushText (document : Document) (target : NodeId) {source : NodeId}
    (isText : document.tag source = text) :
    Keeps Tidy document (document.pushText target (document.text source)) := by
  refine Document.keeps_modify document target (fun _ => rfl) (fun _ => rfl) (fun _ => rfl)
    (fun _ => rfl) ?_
  intro slots
  have own := slots target trivial (by simp)
  exact ⟨fun isText' => (own.text isText').append (slots.text isText), own.value⟩

theorem isText_of_soleText? {document : Document} {id found : NodeId}
    (sole : soleText? document id = some found) : document.tag found = text := by
  unfold soleText? at sole
  split at sole
  · split at sole
    · cases sole
      assumption
    · simp at sole
  · simp at sole

theorem keeps_joinRuns (document : Document) (anchor : Option Anchor) (children : List NodeId) :
    Keeps Tidy document (joinRuns document anchor children).1 := by
  induction children generalizing document anchor with
  | nil => exact .refl document
  | cons child rest ih =>
      unfold joinRuns
      split
      · exact ih document none
      · rename_i found sole
        have isText : document.tag found = text := by
          split at sole
          · exact isText_of_soleText? sole
          · simp at sole
        simp only
        split
        · rename_i target _
          exact (((keeps_pushText document target.text isText).trans
            (Document.keeps_preserveSpace _ _ tidy_preserve)).trans
            (Document.keeps_delete _ child)).trans (ih _ _)
        · exact ih document _

/-- What every visit of a paragraph keeps holds in the end. -/
theorem eachParagraph_induction {holds : Document → Prop}
    {change : Document → NodeId → Document × Nat}
    (keeps : ∀ document id, holds document → holds (change document id).1) {document : Document}
    (first : holds document) (scope : NodeId) : holds (eachParagraph change document scope).1 := by
  refine List.foldlRecOn (motive := fun state : Document × Nat => holds state.1) _ _ first
    fun state kept id _ => ?_
  dsimp only
  split
  · exact keeps state.1 id kept
  · exact kept

theorem keeps_absorb (target : NodeId) {ids : List NodeId} {document : Document}
    (texts : ∀ id ∈ ids, document.tag id = text) :
    Keeps Tidy document (absorb document target ids) := by
  induction ids generalizing document with
  | nil => exact .refl document
  | cons id rest ih =>
      have step := (keeps_pushText document target (texts id (by simp))).trans
        (Document.keeps_deleteText _ id)
      refine step.trans (ih fun other member => ?_)
      exact step.ages.isText (texts other (by simp [member]))

theorem mem_of_cutClosing? {document : Document} {joined : String} {ids taken after : List NodeId}
    (cut : cutClosing? document joined ids = some (taken, after)) : taken ⊆ ids ∧ after ⊆ ids := by
  induction ids generalizing joined taken with
  | nil => simp [cutClosing?] at cut
  | cons id rest ih =>
      simp only [cutClosing?] at cut
      split at cut
      · obtain ⟨⟨inner, after'⟩, found, same⟩ := Option.map_eq_some_iff.mp cut
        simp only [Prod.mk.injEq] at same
        obtain ⟨rfl, rfl⟩ := same
        obtain ⟨first, second⟩ := ih found
        exact ⟨List.cons_subset_cons id first, List.subset_cons_of_subset id second⟩
      · simp only [Option.some.injEq, Prod.mk.injEq] at cut
        obtain ⟨rfl, rfl⟩ := cut
        exact ⟨by simp, List.subset_cons_self ..⟩

/-- Each text either takes in texts behind it and the rest is gone on with, or it is left as it is. -/
theorem completeMarkers_induction {motive : Document → List NodeId → Document → Prop}
    (nil : ∀ document, motive document [] document)
    (closes : ∀ document id rest taken after result,
      cutClosing? document (document.text id) rest = some (taken, after) →
      motive (preserveSpace (absorb document id taken) id) after result →
      motive document (id :: rest) result)
    (skips : ∀ document id rest result, motive document rest result →
      motive document (id :: rest) result)
    (document : Document) (ids : List NodeId) :
    motive document ids (completeMarkers document ids).1 := by
  induction size : ids.length using Nat.strongRecOn generalizing document ids with
  | ind length ih =>
      cases ids with
      | nil =>
          rw [completeMarkers]
          exact nil document
      | cons id rest =>
          rw [completeMarkers]
          split
          · rename_i taken after cut
            have closing : cutClosing? document (document.text id) rest = some (taken, after) := by
              split at cut
              · exact cut
              · simp at cut
            have shorter := length_of_cutClosing? closing
            exact closes document id rest taken after _ closing
              (ih after.length (by simp at size; omega) _ after rfl)
          · exact skips document id rest _ (ih rest.length (by simp at size; omega) document rest rfl)

theorem keeps_completeMarkers {document : Document} {ids : List NodeId}
    (texts : ∀ id ∈ ids, document.tag id = text) :
    Keeps Tidy document (completeMarkers document ids).1 := by
  refine completeMarkers_induction (motive := fun document ids result =>
    (∀ id ∈ ids, document.tag id = text) → Keeps Tidy document result) ?_ ?_ ?_ document ids texts
  · exact fun document _ => .refl document
  · intro document id rest taken after result closing kept texts
    obtain ⟨first, second⟩ := mem_of_cutClosing? closing
    have step := (keeps_absorb id fun other member =>
      texts other (List.mem_cons_of_mem _ (first member))).trans
      (Document.keeps_preserveSpace _ id tidy_preserve)
    refine step.trans (kept fun other member => ?_)
    exact step.ages.isText (texts other (List.mem_cons_of_mem _ (second member)))
  · exact fun document id rest result kept texts =>
      kept fun other member => texts other (List.mem_cons_of_mem _ member)

theorem isText_of_mem_ownTexts {document : Document} {paragraph id : NodeId}
    (member : id ∈ ownTexts document paragraph) : document.tag id = text := by
  have found := (List.mem_filter.mp (List.mem_filter.mp member).1).2
  simpa [Document.isAny] using found

theorem keeps_repairRuns (document : Document) : Keeps Tidy document (repairRuns document) := by
  refine .foldl ?_ document
  intro document id _
  split
  · have joined : Keeps Tidy document (mergeAdjacentRuns document id).1 :=
      eachParagraph_induction
        (fun _ _ kept => kept.trans (keeps_joinRuns _ none _)) (.refl document) id
    exact eachParagraph_induction
      (fun _ _ kept => kept.trans (keeps_completeMarkers fun _ => isText_of_mem_ownTexts)) joined id
  · exact .refl document

end Wordml

namespace Filling

variable {holds : String → Prop}

theorem holds_listNumber? {document : Document} (slots : document.AllSlots holds) {id : NodeId}
    {number : String} (found : Wordml.listNumber? document id = some number) : holds number := by
  rw [Wordml.listNumber?] at found
  split at found
  · simp only [Option.bind_eq_bind, Option.bind_eq_some_iff] at found
    obtain ⟨_, _, _, _, entry, _, value⟩ := found
    obtain ⟨found, first, rfl⟩ := Option.map_eq_some_iff.mp value
    exact slots.value entry found (List.mem_of_find?_eq_some first)
  · simp at found

theorem keeps_markLists (document : Document) : Keeps holds document (markLists document) := by
  refine .foldl ?_ document
  intro document id _
  split
  · rename_i number found
    exact Document.keeps_setAttribute document id _ fun slots => holds_listNumber? slots found
  · exact .refl document

theorem keeps_evaluate (document : Document) (origin : NodeId) (trigger : Trigger) (value : String)
    (empty : holds "") : Keeps holds document (evaluate document origin trigger value).1 := by
  rw [evaluate]
  split
  · refine .foldl ?_ document
    intro document id _
    cases trigger.command with
    | remove => exact Document.keeps_delete document id
    | clear => exact Document.keeps_clearTextDeep document id empty
  · exact .refl document

theorem keeps_evaluateAll (document : Document) (firings : List Firing) (empty : holds "") :
    Keeps holds document (Firing.evaluateAll document firings) := by
  refine .foldl ?_ document
  intro document firing _
  unfold Firing.evaluate
  simp only
  split
  · exact keeps_evaluate document _ _ _ empty
  · exact .refl document

theorem keeps_sweepUnset (document : Document) (params : Params) (empty : holds "") :
    Keeps holds document (sweepUnset document params) :=
  .foldl (fun document _ _ => keeps_evaluate document _ _ _ empty) document

end Filling

end WordTemplate
