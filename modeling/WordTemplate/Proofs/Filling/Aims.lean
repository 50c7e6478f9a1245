import WordTemplate.Proofs.Filling.Commands
import WordTemplate.Proofs.Filling.Scopes

/-! What triggers are aimed at, on the document as it stands when the values of a pass are in, and what
they find when they are carried out one after the other. -/

namespace WordTemplate

open Markup
open Markup.Document (Removes)

namespace Filling

/-- The elements that tell which list a paragraph belongs to. -/
def numberingTags : List String :=
  [Wordml.paragraphProperties, Wordml.numberingProperties, Wordml.numberingId]

section Removing

variable {first second : Document} {gone : List NodeId} (removes : Removes gone first second)
  (sound : first.Sound)
include removes

/-- The list of a paragraph that is left is the same, when nothing that tells it goes alone. -/
theorem list?_removes (attributes : ∀ id, id ∉ gone →
      (second.node id).attributes = (first.node id).attributes)
    (numbering : ∀ parent child, first.Lists parent child → first.tag child ∈ numberingTags →
      child ∈ gone → parent ∈ gone) {id : NodeId} (left : id ∉ gone) :
    list? second id = list? first id := by
  have value : ∀ id key, id ∉ gone → second.attribute? id key = first.attribute? id key := by
    intro id key left
    rw [Document.attribute?, Document.attribute?, Element.attribute?, Element.attribute?,
      attributes id left]
  have child : ∀ {id tag}, tag ∈ numberingTags → id ∉ gone →
      second.childByTag? id tag = first.childByTag? id tag := by
    intro id tag listed left
    refine removes.childByTag? left fun child lists tagged lost => left ?_
    exact numbering id child lists (tagged ▸ listed) lost
  have below : ∀ {id tag found}, tag ∈ numberingTags → id ∉ gone →
      first.childByTag? id tag = some found → found ∉ gone := by
    intro id tag found listed left chosen lost
    have tagged : first.tag found = tag := by simpa using List.find?_some chosen
    exact left (numbering id found (List.mem_of_find?_eq_some chosen) (tagged ▸ listed) lost)
  rw [list?, list?, value id _ left, Wordml.listNumber?, Wordml.listNumber?, removes.tag]
  congr 1
  split
  · simp only [Option.bind_eq_bind]
    rw [child (by simp [numberingTags]) left]
    cases properties : first.childByTag? id Wordml.paragraphProperties with
    | none => rfl
    | some found =>
        have foundLeft := below (by simp [numberingTags]) left properties
        rw [Option.bind_some, Option.bind_some, child (by simp [numberingTags]) foundLeft]
        cases inner : first.childByTag? found Wordml.numberingProperties with
        | none => rfl
        | some deeper =>
            have deeperLeft := below (by simp [numberingTags]) foundLeft inner
            rw [Option.bind_some, Option.bind_some, child (by simp [numberingTags]) deeperLeft]
            cases last : first.childByTag? deeper Wordml.numberingId with
            | none => rfl
            | some number =>
                exact value number _ (below (by simp [numberingTags]) deeperLeft last)
  · rfl

include sound

theorem closest?_left {origin found : NodeId} (live : first.isLive origin = true)
    (left : origin ∉ gone) {tags : List String} (above : first.closest? origin tags = some found) :
    found ∉ gone := by
  intro lost
  rcases (sound.below_of_closest? live above).2.2 with same | below
  · exact left (same ▸ lost)
  · exact left (removes.lost_below lost below)

theorem toList_closest?_removes {origin : NodeId} (live : first.isLive origin = true)
    (left : origin ∉ gone) (tags : List String) :
    (second.closest? origin tags).toList =
      (first.closest? origin tags).toList.filter (· ∉ gone) := by
  rw [removes.closest? sound live left]
  cases above : first.closest? origin tags with
  | none => rfl
  | some found => simp [closest?_left removes sound live left above]

theorem listMembers_removes (same : ∀ id, id ∉ gone → list? second id = list? first id)
    {id : NodeId} (live : first.isLive id = true) (left : id ∉ gone) :
    listMembers second id = (listMembers first id).filter (· ∉ gone) := by
  have own : [id] = [id].filter (· ∉ gone) := by simp [left]
  rw [listMembers, listMembers, same id left, removes.parent id left]
  cases list? first id with
  | none => exact own
  | some number =>
      cases above : first.parent? id with
      | none => exact own
      | some parent =>
          have parentLeft : parent ∉ gone := fun lost =>
            left (removes.below parent lost id (sound.wellFormed.lists live above))
          simp only
          rw [removes.children parent parentLeft, List.filter_filter, List.filter_filter]
          apply List.filter_congr
          intro sibling _
          by_cases lost : sibling ∈ gone
          · simp [lost]
          · simp [lost, same sibling lost, removes.tag]

/-- From an origin that is left, a scope covers what it did, as far as that is left. -/
theorem targets_removes (same : ∀ id, id ∉ gone → list? second id = list? first id)
    {origin : NodeId} (live : first.isLive origin = true) (left : origin ∉ gone)
    (scope : Trigger.Scope) :
    targets second origin scope = (targets first origin scope).filter (· ∉ gone) := by
  have nearest := removes.closest? sound live left
  have kept : ∀ {found tags}, first.closest? origin tags = some found → found ∉ gone :=
    closest?_left removes sound live left
  have members : ∀ paragraph, first.closest? origin [Wordml.paragraph] = some paragraph →
      listMembers second paragraph = (listMembers first paragraph).filter (· ∉ gone) := by
    intro paragraph above
    exact listMembers_removes removes sound same (sound.below_of_closest? live above).2.1 (kept above)
  cases scope with
  | placeholder =>
      simp only [targets, nearest]
      cases above : first.closest? origin [Wordml.text] with
      | none => simp [left]
      | some found => simp [kept above]
  | cell => exact toList_closest?_removes removes sound live left _
  | row =>
      rw [targets, targets, nearest [Wordml.row]]
      cases above : first.closest? origin [Wordml.row] with
      | none =>
          rw [Option.none_or, Option.none_or]
          exact toList_closest?_removes removes sound live left _
      | some found => simp [kept above]
  | list =>
      simp only [targets, nearest]
      cases above : first.closest? origin [Wordml.paragraph] with
      | none => rfl
      | some paragraph =>
          simp only [same paragraph (kept above)]
          split
          · exact members paragraph above
          · rfl
  | table => exact toList_closest?_removes removes sound live left _
  | block =>
      simp only [targets, nearest]
      cases above : first.closest? origin [Wordml.table] with
      | none =>
          cases around : first.closest? origin [Wordml.paragraph] with
          | none => rfl
          | some paragraph => exact members paragraph around
      | some found => simp [kept above]

end Removing

theorem targets_of_holder {document : Document} (sound : document.Sound) {text holder : NodeId}
    (live : document.isLive text = true) (isText : document.tag text = Wordml.text)
    (holds : document.parent? text = some holder) {scope : Trigger.Scope}
    (larger : scope ≠ .placeholder) : targets document text scope = targets document holder scope := by
  have nearest : ∀ tag, tag ≠ Wordml.text →
      document.closest? text [tag] = document.closest? holder [tag] := by
    intro tag other
    rw [sound.closest?_eq live, if_neg (by simp [Document.isAny, isText, other.symm]), holds,
      Option.bind_some]
  have cell := nearest Wordml.cell (by decide)
  have row := nearest Wordml.row (by decide)
  have paragraph := nearest Wordml.paragraph (by decide)
  have table := nearest Wordml.table (by decide)
  cases scope with
  | placeholder => exact absurd rfl larger
  | cell => rw [targets, targets, cell]
  | row => rw [targets, targets, row, paragraph]
  | list => rw [targets, targets, paragraph]
  | table => rw [targets, targets, table]
  | block => rw [targets, targets, table, paragraph]

end Filling

end WordTemplate
