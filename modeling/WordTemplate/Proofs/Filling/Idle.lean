import WordTemplate.Filling.Passes
import WordTemplate.Proofs.Filling.Expansion
import WordTemplate.Proofs.Markup.Slots
import WordTemplate.Proofs.Params.Foreign

/-! Passes that have nothing to do. Where all placeholders have foreign keys and no triggers, and no text
holds a line feed, every pass behind the repair of runs leaves the document as it is. -/

namespace WordTemplate

open Markup

namespace Markup.Document

variable {σ : Type} {visit : Visitor σ} {document : Document} {own : σ}

theorem walkNode_of_fixed
    (fixed : ∀ id, document.isLive id = true → ∃ step, visit document own id = (document, own, step))
    (depth : Nat) (id : NodeId) : walkNode visit depth (document, own) id = (document, own) := by
  induction depth generalizing id with
  | zero => rfl
  | succ depth ih =>
      rw [walkNode]
      split
      · rename_i live
        obtain ⟨step, same⟩ := fixed id live
        simp only [same]
        split
        · rfl
        · exact Filling.foldl_fixed fun child _ => ih child
      · rfl

theorem walk_of_fixed
    (fixed : ∀ id, document.isLive id = true → ∃ step, visit document own id = (document, own, step))
    (start : NodeId) : document.walk start visit own = (document, own) :=
  Filling.foldl_fixed fun child _ => walkNode_of_fixed fixed _ child

theorem isLive_of_mem_descendantsTo {depth : Nat} {start id : NodeId}
    (member : id ∈ document.descendantsTo depth start) : document.isLive id = true := by
  induction depth generalizing start with
  | zero => simp [descendantsTo] at member
  | succ depth ih =>
      rw [descendantsTo, List.mem_flatMap] at member
      obtain ⟨child, _, inside⟩ := member
      split at inside
      · rename_i live
        rcases List.mem_cons.mp inside with rfl | below
        · exact live
        · exact ih below
      · simp at inside

theorem live_text_of_mem_findAll {start id : NodeId}
    (member : id ∈ document.findAll start [Wordml.text]) :
    document.isLive id = true ∧ document.tag id = Wordml.text := by
  rw [findAll, List.mem_filter] at member
  exact ⟨isLive_of_mem_descendantsTo member.1, by simpa [isAny] using member.2⟩

end Markup.Document

namespace Filling

def Unmatched (params : Params) (text : String) : Prop :=
  ∀ placeholder ∈ Placeholder.scan text, params.Foreign placeholder.key

/-- Holds of texts in which no placeholder has a trigger. -/
def Untriggered (text : String) : Prop :=
  ∀ placeholder ∈ Placeholder.scan text, placeholder.trigger? = none

instance (params : Params) (text : String) : Decidable (Unmatched params text) :=
  inferInstanceAs (Decidable (∀ _ ∈ _, _))

instance (text : String) : Decidable (Untriggered text) :=
  inferInstanceAs (Decidable (∀ _ ∈ _, _))

/-- Parameters that meet nothing in a document. -/
structure Idle (params : Params) (document : Document) : Prop where
  keyed : params.Keyed
  named : params.Named
  slots : document.LiveSlots (Unmatched params)
  triggers : ∀ id, document.isLive id = true → document.tag id = Wordml.text →
    Untriggered (document.text id)
  lines : ∀ id, document.isLive id = true → document.tag id = Wordml.text →
    holdsLineFeed (document.text id) = false

/-- Holds of all placeholders in the live texts of a document. -/
def InTexts (document : Document) (holds : Placeholder → Prop) : Prop :=
  ∀ id, document.isLive id = true → document.tag id = Wordml.text →
    ∀ placeholder ∈ Placeholder.scan (document.text id), holds placeholder

variable {params : Params} {document : Document}

theorem fillValue_of_none {content : String}
    (none : ∀ placeholder ∈ Placeholder.scan content, insert? params placeholder = none) :
    fillValue params content = content := by
  rw [fillValue]
  apply Placeholder.render_ofText
  intro placeholder member
  rw [none placeholder member]

/-! Each pass does nothing where no placeholder asks for it. -/

section Single

variable (texts : InTexts document fun placeholder => insert? params placeholder = none)
  (values : ∀ id, document.isLive id = true → ∀ entry ∈ (document.node id).attributes,
    ∀ placeholder ∈ Placeholder.scan entry.value, insert? params placeholder = none)

include values in
theorem fillAttributes_of_none {id : NodeId} (live : document.isLive id = true) :
    fillAttributes document params id = document := by
  have same : ((document.node id).attributes.map fun entry =>
      { entry with value := fillValue params entry.value }) = (document.node id).attributes := by
    refine (List.map_congr_left fun entry member => ?_).trans (List.map_id _)
    rw [fillValue_of_none (values id live entry member), id_eq]
  rw [fillAttributes, same]
  exact Document.modify_of_same rfl

include texts in
theorem fillText_of_none {id : NodeId} (live : document.isLive id = true)
    (isText : document.tag id = Wordml.text) : fillText document params id = document := by
  rw [fillText, if_neg]
  rw [List.any_eq_true]
  rintro ⟨placeholder, member, inserted⟩
  rw [texts id live isText placeholder member] at inserted
  exact absurd inserted (by decide)

include texts in
theorem textFirings_of_none {id : NodeId} (live : document.isLive id = true)
    (isText : document.tag id = Wordml.text) : textFirings document params id = [] := by
  rw [textFirings, List.filterMap_eq_nil_iff]
  intro placeholder member
  rw [texts id live isText placeholder member]
  rfl

include texts values in
theorem fillSingles_of_none (alive : document.isLive document.root = true) :
    fillSingles document params = document := by
  have walked : document.walk document.root (fillNode params) [] = (document, []) := by
    refine Document.walk_of_fixed (fun id live => ⟨.descend, ?_⟩) _
    rw [fillNode, fillAttributes_of_none values live]
    split
    · rename_i isText
      rw [fillText_of_none texts live isText, textFirings_of_none texts live isText]
      rfl
    · rfl
  rw [fillSingles, fillAttributes_of_none values alive]
  simp only [walked]
  rfl

end Single

theorem expandLeftovers_of_none
    (texts : InTexts document fun placeholder => repeating? params placeholder = none) :
    expandLeftovers document params = (document, 0) := by
  refine expandPending_of_quiet (fun id member _ => ?_) _ _ _
  obtain ⟨live, isText⟩ := Document.live_text_of_mem_findAll member
  rw [isPending, List.any_eq_false]
  intro placeholder scanned
  rw [texts id live isText placeholder scanned]
  decide

theorem fillInline_of_none
    (texts : InTexts document fun placeholder => inlineValue? params placeholder = none) :
    fillInline document params = document := by
  have none : ∀ id ∈ document.findAll document.root [Wordml.text],
      ∀ placeholder ∈ Placeholder.scan (document.text id), inlineValue? params placeholder = none := by
    intro id member
    obtain ⟨live, isText⟩ := Document.live_text_of_mem_findAll member
    exact texts id live isText
  have firings : (document.findAll document.root [Wordml.text]).flatMap
      (inlineFirings document params) = [] := by
    rw [List.flatMap_eq_nil_iff]
    intro id member
    rw [inlineFirings, List.filterMap_eq_nil_iff]
    intro placeholder scanned
    rw [none id member placeholder scanned]
    rfl
  rw [fillInline, firings, foldl_fixed]
  · rfl
  · intro id member
    rw [fillInlineText, if_neg]
    rw [List.any_eq_true]
    rintro ⟨placeholder, scanned, filled⟩
    rw [none id member placeholder scanned] at filled
    exact absurd filled (by decide)

theorem sweepUnset_of_none (texts : InTexts document fun placeholder => placeholder.trigger? = none) :
    sweepUnset document params = document := by
  have triggers : (document.findAll document.root [Wordml.text]).flatMap
      (unsetTriggers document params) = [] := by
    rw [List.flatMap_eq_nil_iff]
    intro id member
    obtain ⟨live, isText⟩ := Document.live_text_of_mem_findAll member
    rw [unsetTriggers, List.filterMap_eq_nil_iff]
    intro placeholder scanned
    rw [texts id live isText placeholder scanned]
    split <;> rfl
  rw [sweepUnset, triggers]
  rfl

theorem splitLines_of_none (lines : ∀ id, document.isLive id = true → document.tag id = Wordml.text →
    holdsLineFeed (document.text id) = false) : splitLines document = (document, 0) := by
  have none : (document.findAll document.root [Wordml.text]).find? (fun id =>
      !([] : List NodeId).contains id && holdsLineFeed (document.text id)) = none := by
    rw [List.find?_eq_none]
    intro id member
    obtain ⟨live, isText⟩ := Document.live_text_of_mem_findAll member
    simp [lines id live isText]
  rw [splitLines, splitFrom, none]

section Texts

variable {content : String} (unmatched : Unmatched params content)
include unmatched

theorem insert?_of_unmatched (keyed : params.Keyed) (named : params.Named) :
    ∀ placeholder ∈ Placeholder.scan content, insert? params placeholder = none := by
  intro placeholder member
  rw [insert?, Params.get?_eq_none_of_foreign keyed named (unmatched placeholder member)]
  rfl

theorem inlineValue?_of_unmatched :
    ∀ placeholder ∈ Placeholder.scan content, inlineValue? params placeholder = none := by
  intro placeholder member
  rw [inlineValue?, Params.findAll_eq_nil_of_foreign (unmatched placeholder member)]
  cases placeholder.separator <;> rfl

theorem repeating?_of_unmatched :
    ∀ placeholder ∈ Placeholder.scan content, repeating? params placeholder = none := by
  intro placeholder member
  rw [repeating?, Params.pendingList?_eq_none_of_foreign (unmatched placeholder member), Option.map_none,
    ite_self]

end Texts

namespace Idle

variable (idle : Idle params document)
include idle

theorem unmatched {id : NodeId} (live : document.isLive id = true)
    (isText : document.tag id = Wordml.text) : Unmatched params (document.text id) :=
  (idle.slots id trivial fun _ => live).text isText

theorem fillSingles (alive : document.isLive document.root = true) :
    fillSingles document params = document := by
  refine fillSingles_of_none (fun id live isText => ?_) (fun id live entry member => ?_) alive
  · exact insert?_of_unmatched (idle.unmatched live isText) idle.keyed idle.named
  · exact insert?_of_unmatched ((idle.slots id trivial fun _ => live).value entry member) idle.keyed
      idle.named

theorem rowLists (ownership : Ownership) (row : NodeId) :
    rowLists document params ownership row = [] := by
  have none : (rowTexts document ownership row).flatMap (fun id =>
      (Placeholder.scan (document.text id)).filterMap (repeating? params)) = [] := by
    rw [List.flatMap_eq_nil_iff]
    intro id member
    obtain ⟨live, isText⟩ := Document.live_text_of_mem_findAll (List.mem_filter.mp member).1
    exact List.filterMap_eq_nil_iff.mpr (repeating?_of_unmatched (idle.unmatched live isText))
  rw [Filling.rowLists, none]
  rfl

theorem expandRow? (ownership : Ownership) (row : NodeId) :
    expandRow? params ownership document row = none := by
  rw [Filling.expandRow?, idle.rowLists]

theorem expandRows : expandRows document params = (document, 0) := by
  have walked : document.walk document.root (expandVisited params) (0, []) = (document, 0, []) := by
    refine Document.walk_of_fixed (fun id _ => ⟨.descend, ?_⟩) _
    rw [expandVisited, idle.expandRow?]
    split <;> rfl
  rw [Filling.expandRows]
  cases expansionFuel document params with
  | zero => rfl
  | succ fuel => simp only [expandBelow, walked, List.foldl_nil]

theorem expandLeftovers : expandLeftovers document params = (document, 0) :=
  expandLeftovers_of_none fun _ live isText => repeating?_of_unmatched (idle.unmatched live isText)

theorem fillInline : fillInline document params = document :=
  fillInline_of_none fun _ live isText => inlineValue?_of_unmatched (idle.unmatched live isText)

theorem sweepUnset : sweepUnset document params = document :=
  sweepUnset_of_none idle.triggers

theorem splitLines : splitLines document = (document, 0) :=
  splitLines_of_none idle.lines

theorem passes (alive : document.isLive document.root = true) :
    stripMarks (Filling.splitLines (Filling.sweepUnset (Filling.fillSingles (Filling.fillInline
      (Filling.expandLeftovers (Filling.expandRows (Filling.fillSingles document params) params).1
        params).1 params) params) params)).1 = stripMarks document := by
  rw [idle.fillSingles alive, idle.expandRows, idle.expandLeftovers, idle.fillInline,
    idle.fillSingles alive, idle.sweepUnset, idle.splitLines]

end Idle

end Filling

end WordTemplate
