import WordTemplate.Proofs.Wordml.Merging

/-! Repairing the runs of a document. Once a paragraph has been repaired, its texts stay complete, and
what a second repair could still do is join runs. -/

namespace WordTemplate.Wordml

open Markup
open Markup.Document (Removes)

theorem completeMarkers_of_complete {document : Document} {ids : List NodeId}
    (complete : Complete (ids.map document.text)) : completeMarkers document ids = (document, 0) := by
  induction ids with
  | nil => rw [completeMarkers]
  | cons id rest ih =>
      rw [completeMarkers]
      split
      · rename_i taken after cut
        split at cut
        · rename_i opened
          obtain ⟨rfl, _, closed⟩ := closed_of_cutClosing? cut
          have through := complete.1 opened (taken.map document.text) (by simp)
          rw [closed] at through
          exact absurd through (by decide)
        · simp at cut
      · exact ih complete.2

section Each

variable {change : Document → NodeId → Document × Nat}
  (mended : ∀ {document id}, Plain document → IsParagraph document id →
    Mended id document (change document id))
include mended

/-- Each paragraph has its turn, and all that is done after it mends the document further. -/
theorem visits_foldl {scope : NodeId} {ids : List NodeId} {first : Document} (plain : Plain first)
    (live : first.isLive scope = true) (inside : ∀ id ∈ ids, id ∈ paragraphsFrom first scope)
    (total : Nat) :
    let result := ids.foldl (fun (document, total) id =>
      if document.isLive id then
        let (document, count) := change document id
        (document, total + count)
      else (document, total)) (first, total)
    ∃ count, result.2 = total + count ∧ Mended scope first (result.1, count) ∧
      ∀ id ∈ ids, ∃ middle gone, Plain middle ∧ IsParagraph middle id ∧
        Mends scope gone (change middle id).1 result.1 := by
  induction ids generalizing first total with
  | nil => exact ⟨0, rfl, .unchanged scope plain, by simp⟩
  | cons id rest ih =>
      have member := inside id (by simp)
      have isParagraph := isParagraph_of_mem plain.sound live member
      have step := (mended plain isParagraph).widen plain.sound (mem_paragraphsFrom.mp member).1
      have ⟨gone, mends, _⟩ := step
      rw [List.foldl_cons]
      simp only [isParagraph.live, if_true]
      have later : ∀ other ∈ rest, other ∈ paragraphsFrom (change first id).1 scope := by
        intro other listed
        rw [mends.paragraphsFrom_eq (mends.scope_kept plain.sound)]
        exact inside other (by simp [listed])
      obtain ⟨count, counted, whole, visited⟩ :=
        ih mends.plain ((mends.live_scope plain.sound).trans live) later (total + (change first id).2)
      refine ⟨(change first id).2 + count, by rw [counted, Nat.add_assoc], ?_, ?_⟩
      · exact step.trans whole plain.sound
      · intro other listed
        rcases List.mem_cons.mp listed with rfl | listed
        · obtain ⟨more, further, _⟩ := whole
          exact ⟨first, more, plain, isParagraph, further⟩
        · exact visited other listed

theorem visits_eachParagraph {scope : NodeId} {document : Document} (plain : Plain document)
    (live : document.isLive scope = true) :
    Mended scope document (eachParagraph change document scope) ∧
      ∀ id ∈ paragraphsFrom document scope, ∃ middle gone, Plain middle ∧ IsParagraph middle id ∧
        Mends scope gone (change middle id).1 (eachParagraph change document scope).1 := by
  obtain ⟨count, counted, whole, visited⟩ :=
    visits_foldl mended plain live (fun id member => member) 0
  rw [Nat.zero_add] at counted
  subst counted
  exact ⟨whole, visited⟩

end Each

theorem eachParagraph_eq {change : Document → NodeId → Document × Nat} {document : Document}
    {scope : NodeId} (still : ∀ id ∈ paragraphsFrom document scope, change document id = (document, 0)) :
    eachParagraph change document scope = (document, 0) := by
  rw [eachParagraph]
  generalize paragraphsFrom document scope = ids at still
  induction ids with
  | nil => rfl
  | cons id rest ih =>
      rw [List.foldl_cons]
      have same := still id (by simp)
      simp only [same, Nat.add_zero, ite_self]
      exact ih fun other member => still other (by simp [member])

structure AllComplete (document : Document) (scope : NodeId) : Prop where
  complete : ∀ id ∈ paragraphsFrom document scope, Complete (readings document id)

/-- What is complete stays complete when a document is mended. -/
theorem AllComplete.mends {first second : Document} {outer scope : NodeId} {gone : List NodeId}
    (complete : AllComplete first scope) (mends : Mends outer gone first second) (sound : first.Sound)
    (isParagraph : IsParagraph first scope) : AllComplete second scope := by
  refine ⟨fun id member => ?_⟩
  rw [mends.paragraphsFrom_eq (mends.kept isParagraph)] at member
  exact (mends.fused id (isParagraph_of_mem sound isParagraph.live member)).complete (complete.complete id member)

theorem AllComplete.inner {document : Document} {outer scope : NodeId}
    (complete : AllComplete document outer) (sound : document.Sound)
    (below : scope ∈ document.descendants outer) : AllComplete document scope := by
  refine ⟨fun id member => complete.complete id ?_⟩
  obtain ⟨place, tag⟩ := mem_paragraphsFrom.mp member
  refine mem_paragraphsFrom.mpr ⟨.inr ?_, tag⟩
  exact sound.descendants_subset below (List.mem_cons.mpr place)

def repairParagraph (document : Document) (id : NodeId) : Document :=
  (mergeBrokenMarkers (mergeAdjacentRuns document id).1 id).1

section Paragraph

variable {document : Document} {scope : NodeId}

theorem mended_mergeAdjacentRuns (plain : Plain document) (live : document.isLive scope = true) :
    Mended scope document (mergeAdjacentRuns document scope) :=
  (visits_eachParagraph (fun plain isParagraph =>
    mended_joinRuns plain isParagraph (List.nil_append _).symm (by simp)) plain live).1

theorem mended_mergeBrokenMarkers (plain : Plain document) (live : document.isLive scope = true) :
    Mended scope document (mergeBrokenMarkers document scope) ∧
      AllComplete (mergeBrokenMarkers document scope).1 scope := by
  have completes : ∀ {document id}, Plain document → IsParagraph document id →
      Completes id [] (ownTexts document id) document
        (completeMarkers document (ownTexts document id)) :=
    fun plain isParagraph => completes_completeMarkers plain isParagraph (List.nil_append _).symm
  have mendedEach : ∀ {document id}, Plain document → IsParagraph document id →
      Mended id document (completeMarkers document (ownTexts document id)) :=
    fun plain isParagraph => (completes plain isParagraph).mended
  obtain ⟨mended, visited⟩ := visits_eachParagraph mendedEach plain live
  refine ⟨mended, ⟨fun id member => ?_⟩⟩
  have ⟨_, mends, _⟩ := mended
  rw [mergeBrokenMarkers, mends.paragraphsFrom_eq (mends.scope_kept plain.sound)] at member
  obtain ⟨middle, gone, middlePlain, isParagraph, further⟩ := visited id member
  have own := completes middlePlain isParagraph
  obtain ⟨kept, ownTexts, _, complete⟩ := own.kept
  have ⟨_, inner, _⟩ := own.mended
  refine (further.fused id (inner.isParagraph isParagraph)).complete ?_
  rwa [readings, ownTexts]

/-- A paragraph is repaired: all texts in it are complete then, and it stays as it was unless a node
went. -/
theorem mends_repairParagraph (plain : Plain document) (live : document.isLive scope = true) :
    ∃ gone, Mends scope gone document (repairParagraph document scope) ∧
      AllComplete (repairParagraph document scope) scope ∧
      (gone = [] → repairParagraph document scope = document) ∧
      (gone = [] → (mergeAdjacentRuns document scope).2 = 0) := by
  obtain ⟨gone, mends, still, removed⟩ := mended_mergeAdjacentRuns plain live
  obtain ⟨⟨more, further, stillLater, removedLater⟩, complete⟩ :=
    mended_mergeBrokenMarkers mends.plain ((mends.live_scope plain.sound).trans live)
  have counts : gone ++ more = [] → (mergeAdjacentRuns document scope).2 = 0 ∧
      (mergeBrokenMarkers (mergeAdjacentRuns document scope).1 scope).2 = 0 := by
    intro nothing
    obtain ⟨bare, bareLater⟩ := List.append_eq_nil_iff.mp nothing
    exact ⟨not_not.mp fun counted => removed counted bare,
      not_not.mp fun counted => removedLater counted bareLater⟩
  unfold repairParagraph
  refine ⟨gone ++ more, mends.trans further plain.sound, complete, fun nothing => ?_,
    fun nothing => (counts nothing).1⟩
  exact (stillLater (counts nothing).2).trans (still (counts nothing).1)

theorem repairParagraph_eq (joined : (mergeAdjacentRuns document scope).2 = 0) (plain : Plain document)
    (live : document.isLive scope = true) (complete : AllComplete document scope) :
    repairParagraph document scope = document := by
  obtain ⟨gone, mends, none, some⟩ := mended_mergeAdjacentRuns plain live
  have still : mergeBrokenMarkers document scope = (document, 0) :=
    eachParagraph_eq fun id member => completeMarkers_of_complete (complete.complete id member)
  rw [repairParagraph, none joined, still]

end Paragraph

end WordTemplate.Wordml
