import WordTemplate.Proofs.Filling.Expansion
import WordTemplate.Proofs.Filling.RecordStart

/-! Expanding the row for records. It is copied once for each record, in their order, and the
placeholders of a copy ask for the fields of its record. -/

namespace WordTemplate.Filling

open Markup
open Markup.Outline (toTrees)

abbrev recordLists (list : String) (records : List Record) : List Param :=
  [Param.ofRecords list records]

abbrev recordElement (list : String) (records : List Record) (position : Nat) (element : Element) :
    Element :=
  indexElement (recordParams list records) (recordLists list records) position element

def recordCopies (list : String) (records : List Record) (row : Tree) : List Tree :=
  (List.range records.length).map fun position => row.map (recordElement list records position)

/-- The placeholder asks for a field of one of the records. -/
def AsksRecord (list : String) (records : List Record) (placeholder : Placeholder) : Prop :=
  ∃ position record asked, records[position]? = some record ∧ AsksField list records asked ∧
    placeholder =
      indexPlaceholder (recordParams list records) (recordLists list records) position asked

/-- A document in which the row for records has been copied for them. -/
structure RecordsCopied (list : String) (records : List Record) (tree : Tree) (place : List Nat)
    (row : Tree) (document : Document) (context : Context) (copies : List Outline) : Prop where
  stands : RecordRow list records tree place row
  notRoot : place ≠ []
  holds : document.Holds (context.fill copies)
  isRoot : ∃ root, context.fill copies = [root] ∧ root.id = document.root
  shows : toTrees document copies = recordCopies list records row
  around : ∀ others, context.trees document others = Tree.splice others place tree
  above : context.tagsAbove document = Tree.tagsAlong place tree

variable {list : String} {records : List Record} {tree row : Tree} {place : List Nat}

theorem copiesOf_recordLists (row : Tree) :
    copiesOf (recordParams list records) (recordLists list records) row =
      recordCopies list records row := by
  have count : copyCount (recordLists list records) = records.length := by
    simp [copyCount, Param.itemCount_ofRecords]
  rw [copiesOf, count, recordCopies]

theorem AsksRecord.repeating? (are : AreRecords list records) {placeholder : Placeholder}
    (asks : AsksRecord list records placeholder) :
    repeating? (recordParams list records) placeholder = none := by
  obtain ⟨position, record, asked, here, isField, rfl⟩ := asks
  exact isField.repeating?_indexPlaceholder are here

theorem AsksRecord.inlineValue? {placeholder : Placeholder}
    (asks : AsksRecord list records placeholder) (params : Params) :
    inlineValue? params placeholder = none := by
  obtain ⟨position, record, asked, here, isField, rfl⟩ := asks
  rw [Filling.inlineValue?]
  simp only [indexPlaceholder, isField.single]
  rfl

namespace RecordRow

variable (stands : RecordRow list records tree place row) (are : AreRecords list records)
include stands are

omit are in
theorem textPlaceholders_row :
    row.elements.flatMap textPlaceholders = Placeholder.scan row.allText := by
  rw [Tree.allText, scan_textOf fun element member => (stands.inside element member).tidy]
  refine List.flatMap_congr fun element member => ?_
  rw [textPlaceholders]
  split
  · rfl
  · rename_i notText
    rw [stands.text_eq_empty member notText, Placeholder.scan_empty]

omit are in
theorem asks_row : ∀ placeholder ∈ Placeholder.scan row.allText, AsksField list records placeholder := by
  rw [Tree.allText, scan_textOf fun element member => (stands.inside element member).tidy]
  intro placeholder member
  obtain ⟨element, listed, scanned⟩ := List.mem_flatMap.mp member
  exact (stands.inside element listed).asks placeholder scanned

theorem asks_copy {position : Nat} {record : Record} (here : records[position]? = some record) :
    ∀ placeholder ∈ (row.map (recordElement list records position)).elements.flatMap textPlaceholders,
      AsksRecord list records placeholder := by
  intro placeholder member
  rw [Tree.elements_map, List.flatMap_map, List.mem_flatMap] at member
  obtain ⟨element, listed, scanned⟩ := member
  rw [textPlaceholders] at scanned
  split at scanned
  · rename_i isText
    have asked := stands.inside element listed
    have isText' : element.tag = Wordml.text := isText
    simp only [indexElement, if_pos isText', asked.scan_indexText are, List.mem_map] at scanned
    obtain ⟨origin, found, rfl⟩ := scanned
    exact ⟨position, record, origin, here, asked.asks origin found, rfl⟩
  · simp at scanned

theorem asks_copies : ∀ placeholder ∈ (Tree.elementsAll (recordCopies list records row)).flatMap
    textPlaceholders, AsksRecord list records placeholder := by
  intro placeholder member
  rw [Tree.elementsAll_eq, recordCopies, List.flatMap_map, List.flatMap_assoc,
    List.mem_flatMap] at member
  obtain ⟨position, inside, scanned⟩ := member
  have here := List.getElem?_eq_getElem (List.mem_range.mp inside)
  exact stands.asks_copy are here placeholder scanned

omit are in
theorem scan_outside : (tree.outside place).flatMap textPlaceholders = [] := by
  rw [List.flatMap_eq_nil_iff]
  intro element member
  rw [textPlaceholders, Placeholder.scan_of_braceless (stands.outside element member), ite_self]

theorem expands : Expands (recordParams list records) false [tree]
    (Tree.splice (recordCopies list records row) place tree) := by
  have owned := scan_ownedTexts_of_lowest stands.lowest
  have lists : listsOfRow (recordParams list records)
      ((Tree.tagsAlong place tree).contains Wordml.row) row = recordLists list records := by
    apply listsOf_eq_singleton
    · rw [owned, stands.textPlaceholders_row]
      exact stands.filled
    · rw [owned, stands.textPlaceholders_row]
      intro placeholder member
      exact (stands.asks_row placeholder member).repeating? are
  have copies : Expands (recordParams list records) ((Tree.tagsAlong place tree).contains Wordml.row)
      (recordCopies list records row) (recordCopies list records row) := by
    apply expands_of_settledAll
    apply settledAll_of_placeholders
    exact fun placeholder member => (stands.asks_copies are placeholder member).repeating? are
  have repeated := Expands.repeats (by rw [lists]; simp)
    (by rw [lists, copiesOf_recordLists]; exact copies) .nil
  rw [List.append_nil] at repeated
  refine expands_at false stands.rowAt (guards_of_lowest (by simpa using stands.lowest)) ?_ ?_
  · rw [stands.scan_outside]
    simp
  · simpa using repeated

end RecordRow

namespace RecordDocument

variable {document : Document} {root : Outline}
  (ready : RecordDocument list records document root place row) (are : AreRecords list records)
include ready

theorem asks {id : NodeId} (live : document.isLive id = true) :
    AsksFields list records (document.text id) := by
  have member := ready.holds.mem_of_isLive id live
  rw [Outline.idsAll, Outline.idsAll, List.append_nil] at member
  refine ready.stands.asks (document.node id).toElement ?_
  rw [Document.elements_toTree]
  exact List.mem_map_of_mem member

include are

theorem fillSingles_eq : fillSingles document (recordParams list records) = document := by
  have alive : document.isLive document.root = true := by
    rw [← ready.isRoot]
    exact ready.holds.isLive_of_mem (by simp [Outline.idsAll, Outline.id_mem_ids])
  refine fillSingles_of_none (fun id live _ placeholder member => ?_)
    (fun id _ entry listed placeholder member => ?_) alive
  · exact ((ready.asks live).asks placeholder member).insert?_eq_none are
  · exact ((ready.values id entry listed).asks placeholder member).insert?_eq_none are

omit are in
theorem place_ne_nil (notRow : document.isAny rowTags document.root = false) : place ≠ [] := by
  rintro rfl
  have same := ready.stands.rowAt
  simp only [Tree.at?, Option.some.injEq] at same
  have isRow := contains_rowTags_of_lowest ready.stands.lowest
  rw [← same, Outline.tag_toTree, ready.isRoot] at isRow
  exact absurd (isRow.symm.trans notRow) (by decide)

/-- Expanding rows copies the row for the records, and leaves nothing to expand. -/
theorem copied (notRow : document.isAny rowTags document.root = false) :
    ∃ context copies, RecordsCopied list records (root.toTree document) place row
      (expandRows document (recordParams list records)).1 context copies := by
  obtain ⟨after, done⟩ := rowsExpanded (keyed_records list records) ready.holds ready.isRoot notRow
  have shows : toTrees (expandRows document (recordParams list records)).1 [after] =
      Tree.splice (recordCopies list records row) place (root.toTree document) :=
    done.expands.unique (ready.stands.expands are)
  obtain ⟨context, copies, whole, inside, around, above⟩ :=
    Outline.exists_context_of_splice ready.stands.rowAt shows
  refine ⟨context, copies, ready.stands, ready.place_ne_nil notRow, whole ▸ done.holds, ⟨after, whole.symm, ?_⟩, inside, around,
    above⟩
  rw [done.id, done.grown.root]

end RecordDocument

namespace RecordsCopied

variable {document : Document} {context : Context} {copies : List Outline}
  (copied : RecordsCopied list records tree place row document context copies)
  (are : AreRecords list records)
include copied

theorem toTrees_eq : toTrees document (context.fill copies) =
    Tree.splice (recordCopies list records row) place tree := by
  rw [Context.toTrees_fill, copied.shows, copied.around]

include are

theorem asks : InTexts document (AsksRecord list records) := by
  intro id live isText placeholder scanned
  have member := copied.holds.mem_of_isLive id live
  have element : (document.node id).toElement ∈ Tree.elementsAll
      (Tree.splice (recordCopies list records row) place tree) := by
    rw [← copied.toTrees_eq, Document.elementsAll_toTrees]
    exact List.mem_map_of_mem member
  rw [(Tree.elements_splice copied.stands.rowAt _).mem_iff, List.mem_append] at element
  have here : placeholder ∈ textPlaceholders (document.node id).toElement := by
    have tag : (document.node id).tag = Wordml.text := isText
    rw [textPlaceholders, if_pos tag]
    exact scanned
  rcases element with inside | outside
  · exact copied.stands.asks_copies are placeholder (List.mem_flatMap.mpr ⟨_, inside, here⟩)
  · have none := copied.stands.scan_outside
    rw [List.flatMap_eq_nil_iff] at none
    rw [none _ outside] at here
    simp at here

theorem expandLeftovers_eq : expandLeftovers document (recordParams list records) = (document, 0) :=
  expandLeftovers_of_none fun id live isText placeholder member =>
    (copied.asks are id live isText placeholder member).repeating? are

theorem fillInline_eq : fillInline document (recordParams list records) = document :=
  fillInline_of_none fun id live isText placeholder member =>
    (copied.asks are id live isText placeholder member).inlineValue? _

end RecordsCopied

end WordTemplate.Filling
