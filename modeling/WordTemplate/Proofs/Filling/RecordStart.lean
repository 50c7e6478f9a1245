import WordTemplate.Proofs.Filling.RecordFields
import WordTemplate.Proofs.Wordml.MergedRuns

/-! Documents with one row for records. All braces of the document stand in the row, and joining the runs
of the document keeps the row in its place. -/

namespace WordTemplate.Filling

open Markup
open Markup.Tree (textOf)

/-- A row for records in a tree. All braces in texts of the tree stand in the row, which asks for fields of
the records. -/
structure RecordRow (list : String) (records : List Record) (tree : Tree) (place : List Nat)
    (row : Tree) : Prop where
  rowAt : Tree.at? place tree = some row
  lowest : IsLowestRow ((Tree.tagsAlong place tree).contains Wordml.row) row
  texts : Wordml.PlainTexts tree
  lines : ∀ element ∈ tree.elements, holdsLineFeed element.text = false
  outside : ∀ element ∈ tree.outside place, Braceless element.text.toList
  inside : ∀ element ∈ row.elements, AsksFields list records element.text
  filled : Placeholder.scan row.allText ≠ []

/-- A document that shows a tree with a row for records. -/
structure RecordDocument (list : String) (records : List Record) (document : Document)
    (root : Outline) (place : List Nat) (row : Tree) : Prop where
  isRoot : root.id = document.root
  holds : document.Holds [root]
  stands : RecordRow list records (root.toTree document) place row
  values : ∀ id, ∀ entry ∈ (document.node id).attributes, AsksFields list records entry.value

variable {list : String} {records : List Record}

section TextOf

theorem braceless_textOf_iff {elements : List Element} :
    Braceless (textOf elements).toList ↔ ∀ element ∈ elements, Braceless element.text.toList := by
  induction elements with
  | nil => simp [braceless_nil]
  | cons element rest ih =>
      rw [Tree.textOf_cons, List.forall_mem_cons, ← ih, String.toList_append]
      exact List.forall_mem_append

theorem tidy_textOf {elements : List Element}
    (tidy : ∀ element ∈ elements, Placeholder.Tidy element.text) :
    Placeholder.Tidy (textOf elements) := by
  induction elements with
  | nil => exact tidy_empty
  | cons element rest ih =>
      obtain ⟨here, others⟩ := List.forall_mem_cons.mp tidy
      rw [Tree.textOf_cons]
      exact here.append (ih others)

theorem ofText_textOf {elements : List Element}
    (tidy : ∀ element ∈ elements, Placeholder.Tidy element.text) :
    Piece.ofText (textOf elements) = elements.flatMap fun element => Piece.ofText element.text := by
  induction elements with
  | nil => exact Piece.split_nil
  | cons element rest ih =>
      obtain ⟨here, others⟩ := List.forall_mem_cons.mp tidy
      rw [Tree.textOf_cons, here.ofText_append (tidy_textOf others), List.flatMap_cons, ih others]

theorem scan_textOf {elements : List Element}
    (tidy : ∀ element ∈ elements, Placeholder.Tidy element.text) :
    Placeholder.scan (textOf elements) =
      elements.flatMap fun element => Placeholder.scan element.text := by
  rw [Placeholder.scan, ofText_textOf tidy, List.filterMap_flatMap]
  rfl

end TextOf

theorem contains_rowTags_of_lowest {inRow : Bool} {row : Tree} (lowest : IsLowestRow inRow row) :
    rowTags.contains row.element.tag = true := by
  rcases lowest with ⟨tag, -⟩ | ⟨tag, -, -⟩
  all_goals
    rw [tag]
    decide

namespace RecordRow

variable {tree row : Tree} {place : List Nat} (stands : RecordRow list records tree place row)
include stands

theorem asks : ∀ element ∈ tree.elements, AsksFields list records element.text := by
  intro element member
  rw [(Tree.elements_perm_of_at? stands.rowAt).mem_iff, List.mem_append] at member
  rcases member with inside | outside
  · exact stands.inside element inside
  · exact asksFields_of_braceless (stands.outside element outside)

theorem allText_ne_empty : row.allText ≠ "" := by
  intro empty
  exact stands.filled (empty ▸ Placeholder.scan_empty)

theorem text_eq_empty {element : Element} (member : element ∈ row.elements)
    (notText : element.tag ≠ Wordml.text) : element.text = "" := by
  refine Wordml.text_eq_of_plainTexts stands.texts element ?_ notText
  rw [(Tree.elements_perm_of_at? stands.rowAt).mem_iff, List.mem_append]
  exact .inl member

end RecordRow

theorem isLowestRow_of_retold {inRow : Bool} {row row' : Tree} (retold : Wordml.Retells row row')
    (lowest : IsLowestRow inRow row) : IsLowestRow inRow row' := by
  refine lowest.imp (fun ⟨tag, absent⟩ => ?_) fun ⟨tag, outside, absent⟩ => ?_
  · exact ⟨retold.tag.trans tag, fun listed => absent (retold.tagsBelow listed)⟩
  · exact ⟨retold.tag.trans tag, outside, fun tag member listed =>
      absent tag member (retold.tagsBelow listed)⟩

theorem holdsLineFeed_append {front back : String} (first : holdsLineFeed front = false)
    (second : holdsLineFeed back = false) : holdsLineFeed (front ++ back) = false := by
  simp only [holdsLineFeed, List.contains_eq_mem, decide_eq_false_iff_not] at first second ⊢
  simp [String.toList_append, first, second]

section Slots

variable {declared : Bool} {tree : Tree}

theorem allSlots_ofTree (texts : ∀ element ∈ tree.elements, AsksFields list records element.text)
    (values : ∀ element ∈ tree.elements, ∀ entry ∈ element.attributes, Braceless entry.value.toList) :
    (Document.ofTree declared tree).AllSlots (AsksFields list records) :=
  Document.slots_of_lt_size
    (fun _ inside _ => texts _ (Document.toElement_mem_ofTree inside))
    (fun _ inside entry listed =>
      asksFields_of_braceless (values _ (Document.toElement_mem_ofTree inside) entry listed))

theorem values_prepare {document : Document} (slots : document.AllSlots (AsksFields list records)) :
    ∀ id, ∀ entry ∈ ((prepare document).node id).attributes, AsksFields list records entry.value := by
  intro id
  refine (Wordml.Dresses.repairRuns _).value (asksFields_of_braceless (by decide)) ?_
  exact ((keeps_markLists document).slots slots).value id

end Slots

/-- The row for records of a document that has been read stands in its place when the document is
prepared. -/
theorem RecordRow.prepared {text : String} {document : Document}
    (parsed : Document.parse text = .ok document) {place : List Nat} {row : Tree}
    (stands : RecordRow list records (document.liveTree document.root) place row)
    (values : ∀ element ∈ (document.liveTree document.root).elements,
      ∀ entry ∈ element.attributes, Braceless entry.value.toList) :
    ∃ root place' row', RecordDocument list records (prepare document) root place' row' ∧
      Wordml.Retells row row' ∧
      Tree.tagsAlong place' (root.toTree (prepare document)) =
        Tree.tagsAlong place (document.liveTree document.root) ∧
      textOf (Tree.before place' (root.toTree (prepare document))) =
        textOf (Tree.before place (document.liveTree document.root)) ∧
      textOf (Tree.after place' (root.toTree (prepare document))) =
        textOf (Tree.after place (document.liveTree document.root)) := by
  obtain ⟨declared, tree, rfl⟩ := Document.exists_ofTree_of_parse parsed
  rw [Document.liveTree_ofTree] at stands values ⊢
  have holds := Document.holds_ofTree declared tree
  have shown := Document.toTree_ofTree declared tree
  have joined : Wordml.JoinedFrom tree (prepare (Document.ofTree declared tree)) := by
    have closed : ∀ element ∈ ((tree.outline 0).toTree (Document.ofTree declared tree)).elements,
        Wordml.hasOpenMarker element.text = false := by
      rw [shown]
      exact fun element member => Wordml.hasOpenMarker_of_tidy (stands.asks element member).tidy
    have whole := joinedFrom_prepare (Tree.id_outline 0 tree) holds (shown.symm ▸ stands.texts) closed
    rwa [shown] at whole
  obtain ⟨root, isRoot, prepared, steps⟩ := joined
  have isRow := contains_rowTags_of_lowest stands.lowest
  obtain ⟨row', located, retold⟩ := Wordml.located_of_steps steps ⟨stands.texts, trivial⟩ isRow
    stands.allText_ne_empty (Tree.located_of_at? stands.rowAt)
  obtain ⟨place', leads, along, before, after⟩ := located.exists_at?
  have again : RecordRow list records (root.toTree (prepare (Document.ofTree declared tree))) place'
      row' :=
    { rowAt := leads
      lowest := along ▸ isLowestRow_of_retold retold stands.lowest
      texts := (Wordml.plain_of_steps steps ⟨stands.texts, trivial⟩).1
      lines := by
        have kept := Wordml.forall_text_of_steps steps (holdsLineFeed · = false)
          holdsLineFeed_append (by simpa [Tree.elementsAll] using stands.lines)
        simpa [Tree.elementsAll] using kept
      outside := by
        -- What stands around the row says what it said.
        have plain := stands.outside
        rw [Tree.outside_eq stands.rowAt, List.forall_mem_append, ← braceless_textOf_iff,
          ← braceless_textOf_iff, ← before, ← after, braceless_textOf_iff, braceless_textOf_iff]
          at plain
        rw [Tree.outside_eq leads, List.forall_mem_append]
        exact plain
      inside := retold.texts AsksFields.append stands.inside
      filled := retold.allText ▸ stands.filled }
  refine ⟨root, place', row', ⟨isRoot, prepared, again, ?_⟩, retold, along, before, after⟩
  exact values_prepare (allSlots_ofTree stands.asks values)

end WordTemplate.Filling
