import WordTemplate.Proofs.Filling.RowTrees
import WordTemplate.Proofs.Markup.Growth

/-! Repeating rows in a store: the lists that a row repeats for are those of its tree, and a row that
repeats is replaced by slots that hold its copies. -/

namespace WordTemplate.Filling

open Markup
open Outline (idsAll)

def inRow (document : Document) (context : Context) : Bool :=
  context.isInside document [Wordml.row]

/-- The row that repeats for what stands in the hole of a context. -/
def ownerOf? (document : Document) (context : Context) : Option NodeId :=
  (context.closest? document [Wordml.row]).or (context.closest? document [Wordml.paragraph])

section Owning

variable {document : Document} {context : Context}

theorem owningRow?_eq {outline : Outline} (holds : document.Holds (context.fill [outline]))
    (before after : List Outline) :
    owningRow? document outline.id =
      ownerOf? document (.under context before after outline.id) := by
  rw [owningRow?, holds.closest?, holds.closest?]
  rfl

theorem ownerOf?_of_row {before after : List Outline} {id : NodeId}
    (isRow : document.tag id = Wordml.row) :
    ownerOf? document (.under context before after id) = some id := by
  have found : document.isAny [Wordml.row] id = true := Document.isAny_singleton.mpr isRow
  rw [ownerOf?, Context.closest?, if_pos found]
  rfl

theorem row_ne_paragraph : Wordml.row ≠ Wordml.paragraph := by
  decide

theorem inRow_under (before after : List Outline) (id : NodeId) :
    inRow document (.under context before after id) =
      entersRow (inRow document context) (document.node id).toElement := by
  rw [inRow, Context.isInside, Context.closest?, entersRow, inRow, Context.isInside]
  by_cases isRow : document.tag id = Wordml.row
  · rw [if_pos (Document.isAny_singleton.mpr isRow)]
    simp [show (document.node id).tag = Wordml.row from isRow]
  · rw [if_neg (fun found => isRow (Document.isAny_singleton.mp found))]
    simp [show (document.node id).tag ≠ Wordml.row from isRow]

theorem ownerOf?_of_paragraph {before after : List Outline} {id : NodeId}
    (isParagraph : document.tag id = Wordml.paragraph) :
    ownerOf? document (.under context before after id) =
      if inRow document context then ownerOf? document context else some id := by
  have notRow : document.isAny [Wordml.row] id ≠ true := by
    intro found
    exact row_ne_paragraph ((Document.isAny_singleton.mp found).symm.trans isParagraph)
  have found : document.isAny [Wordml.paragraph] id = true := Document.isAny_singleton.mpr isParagraph
  rw [ownerOf?, Context.closest?, if_neg notRow, Context.closest?, if_pos found, inRow,
    Context.isInside, ownerOf?]
  cases context.closest? document [Wordml.row] <;> rfl

theorem ownerOf?_of_other {before after : List Outline} {id : NodeId}
    (notRow : document.tag id ≠ Wordml.row) (notParagraph : document.tag id ≠ Wordml.paragraph) :
    ownerOf? document (.under context before after id) = ownerOf? document context := by
  rw [ownerOf?, Context.closest?, if_neg (fun found => notRow (Document.isAny_singleton.mp found)),
    Context.closest?, if_neg (fun found => notParagraph (Document.isAny_singleton.mp found)), ownerOf?]

theorem ownerOf?_mem_ids {row : NodeId} (owner : ownerOf? document context = some row) :
    row ∈ context.ids := by
  rw [ownerOf?, Option.or_eq_some_iff] at owner
  rcases owner with found | ⟨-, found⟩
  · exact Context.mem_ids_of_closest? found
  · exact Context.mem_ids_of_closest? found

def isOwned (document : Document) (row id : NodeId) : Bool :=
  document.isAny [Wordml.text] id && owningRow? document id = some row

theorem Context.holds_child {context : Context} {id : NodeId} {front back : List Outline}
    {child : Outline} (holds : document.Holds (context.fill [.node id (front ++ child :: back)])) :
    document.Holds ((Context.under context front back id).fill [child]) := by
  simpa [Context.fill] using holds

theorem flatMap_congr_append {α β : Type} {items : List α} {first second : α → List β}
    (same : ∀ front item back, items = front ++ item :: back → first item = second item) :
    items.flatMap first = items.flatMap second := by
  apply List.flatMap_congr
  intro item member
  obtain ⟨front, back, whole⟩ := List.append_of_mem member
  exact same front item back whole

def ownedIn (document : Document) (row : NodeId) (ids : List NodeId) : List String :=
  (ids.filter (isOwned document row)).map document.text

theorem ownedIn_append {row : NodeId} (front back : List NodeId) :
    ownedIn document row (front ++ back) =
      ownedIn document row front ++ ownedIn document row back := by
  simp [ownedIn]

def OwnsOutside (document : Document) (row : NodeId) (context : Context) (outline : Outline) :
    Prop :=
  ownedIn document row outline.ids =
    if ownerOf? document context = some row then
      textsOutside (guards (inRow document context)) (outline.toTree document)
    else []

theorem ownedIn_children (document : Document) (context : Context) (row id : NodeId) (children : List Outline)
    (each : ∀ front child back, children = front ++ child :: back →
      OwnsOutside document row (.under context front back id) child) :
    ownedIn document row (idsAll children) =
      if ownerOf? document (.under context [] [] id) = some row then
        textsOutsideAll (guards (inRow document (.under context [] [] id)))
          (Outline.toTrees document children)
      else [] := by
  rw [ownedIn, Outline.idsAll_eq, List.filter_flatMap, List.map_flatMap, textsOutsideAll_eq,
    Outline.toTrees_eq, List.flatMap_map]
  by_cases owner : ownerOf? document (.under context [] [] id) = some row
  · rw [if_pos owner]
    apply flatMap_congr_append
    intro front child back whole
    have inner := each front child back whole
    have here : ownerOf? document (.under context front back id) = some row := owner
    rw [OwnsOutside, if_pos here] at inner
    exact inner
  · rw [if_neg owner, List.flatMap_eq_nil_iff]
    intro child member
    obtain ⟨front, back, whole⟩ := List.append_of_mem member
    have inner := each front child back whole
    have elsewhere : ownerOf? document (.under context front back id) ≠ some row := owner
    rw [OwnsOutside, if_neg elsewhere] at inner
    exact inner

theorem text_ne_row : Wordml.text ≠ Wordml.row := by
  decide

theorem text_ne_paragraph : Wordml.text ≠ Wordml.paragraph := by
  decide

theorem ownedIn_singleton (row : NodeId) {outline : Outline}
    (holds : document.Holds (context.fill [outline])) :
    ownedIn document row [outline.id] =
      if document.tag outline.id = Wordml.text ∧ ownerOf? document context = some row then
        [document.text outline.id]
      else [] := by
  have owner := owningRow?_eq holds [] []
  by_cases isText : document.tag outline.id = Wordml.text
  · have passes : ownerOf? document (.under context [] [] outline.id) =
        ownerOf? document context := ownerOf?_of_other
      (fun isRow => text_ne_row (isText.symm.trans isRow))
      (fun isParagraph => text_ne_paragraph (isText.symm.trans isParagraph))
    rw [passes] at owner
    by_cases owned : ownerOf? document context = some row
    · simp [ownedIn, isOwned, Document.isAny_singleton, isText, owner, owned]
    · simp [ownedIn, isOwned, isText, owner, owned]
  · have notText : document.isAny [Wordml.text] outline.id = false := by
      simpa [Document.isAny] using isText
    simp [ownedIn, isOwned, notText, isText]

/-- The texts of a subtree that a row above it owns are those outside of rows that may repeat. -/
theorem ownsOutside {row : NodeId} (outline : Outline)
    (holds : document.Holds (context.fill [outline])) (outside : row ∉ outline.ids) :
    OwnsOutside document row context outline := by
  induction outline using Outline.induction generalizing context with
  | node id children ih =>
      have below := ownedIn_children document context row id children (by
          rintro front child back rfl
          apply ih child (by simp) (Context.holds_child holds)
          intro member
          apply outside
          simp only [Outline.ids, List.mem_cons, Outline.mem_idsAll]
          exact .inr ⟨child, by simp, member⟩)
      have here := ownedIn_singleton row holds
      have other : id ≠ row := by
        rintro rfl
        exact outside (Outline.id_mem_ids _)
      rw [Outline.id_node] at here
      rw [OwnsOutside, Outline.ids, ← List.singleton_append, ownedIn_append, here, below,
        Outline.toTree, textsOutside]
      -- A row and a paragraph outside of rows own what is below them; all else passes the owner on.
      by_cases isRow : document.tag id = Wordml.row
      · have stops : (guards (inRow document context)).contains (document.node id).tag = true := by
          rw [show (document.node id).tag = Wordml.row from isRow]
          cases inRow document context <;> decide
        rw [ownerOf?_of_row isRow, if_pos stops]
        simp [isRow, Ne.symm text_ne_row, other]
      · by_cases isParagraph : document.tag id = Wordml.paragraph
        · rw [inRow_under, ownerOf?_of_paragraph isParagraph]
          have tag : (document.node id).tag = Wordml.paragraph := isParagraph
          cases inside : inRow document context with
          | false =>
              have stops : (guards false).contains (document.node id).tag = true := by
                rw [tag]
                decide
              rw [if_pos stops]
              simp [isParagraph, Ne.symm text_ne_paragraph, other]
          | true =>
              have passes : Wordml.paragraph ∉ guards true := by decide
              simp [isParagraph, Ne.symm text_ne_paragraph, passes, tag, entersRow]
        · rw [inRow_under, ownerOf?_of_other isRow isParagraph]
          have passes : (guards (inRow document context)).contains (document.node id).tag =
              false := by
            have notRow : (document.node id).tag ≠ Wordml.row := isRow
            have notParagraph : (document.node id).tag ≠ Wordml.paragraph := isParagraph
            cases inRow document context <;> simp [guards, rowTags, notRow, notParagraph]
          have enters : entersRow (inRow document context) (document.node id).toElement =
              inRow document context := by
            simp [entersRow, show (document.node id).tag ≠ Wordml.row from isRow]
          rw [passes, enters]
          by_cases owner : ownerOf? document context = some row
          · simp [owner, Document.tag, Document.text]
          · simp [owner]

/-- The texts that a row owns are those that its tree owns. -/
theorem rowTexts_own {outline : Outline} (holds : document.Holds (context.fill [outline])) :
    (rowTexts document .own outline.id).map document.text =
      ownedTexts (inRow document context) (outline.toTree document) := by
  have texts : (rowTexts document .own outline.id).map document.text =
      ownedIn document outline.id (idsAll outline.children) := by
    rw [rowTexts, Document.findAll, holds.descendants, List.filter_filter, ownedIn]
    congr 1
    apply List.filter_congr
    intro id _
    simp [isOwned, Bool.and_comm]
  rw [texts]
  have nodup := (Document.holds_fill_iff.mp holds).nodup
  cases outline with
  | node id children =>
      simp only [Outline.idsAll, Outline.ids, List.append_nil] at nodup
      obtain ⟨-, inner, disjoint⟩ := List.nodup_append.mp nodup
      have fresh := (List.nodup_cons.mp inner).1
      have below := ownedIn_children document context id id children (by
          rintro front child back rfl
          apply ownsOutside child (Context.holds_child holds)
          intro member
          exact fresh (Outline.mem_idsAll.mpr ⟨child, by simp, member⟩))
      have above : ownerOf? document context ≠ some id := by
        intro owner
        exact disjoint id (ownerOf?_mem_ids owner) id (List.mem_cons_self ..) rfl
      rw [Outline.id_node, Outline.children_node, below, Outline.toTree, ownedTexts, inRow_under]
      by_cases isRow : document.tag id = Wordml.row
      · have tag : (document.node id).tag = Wordml.row := isRow
        simp [ownerOf?_of_row isRow, entersRow, guards, tag]
      · have notRow : (document.node id).tag ≠ Wordml.row := isRow
        by_cases isParagraph : document.tag id = Wordml.paragraph
        · have tag : (document.node id).tag = Wordml.paragraph := isParagraph
          rw [ownerOf?_of_paragraph isParagraph, if_neg notRow]
          cases inside : inRow document context with
          | true => simp [above]
          | false => simp [entersRow, guards, tag, Ne.symm row_ne_paragraph]
        · have notParagraph : (document.node id).tag ≠ Wordml.paragraph := isParagraph
          rw [ownerOf?_of_other isRow isParagraph]
          simp [above, notRow, notParagraph]

theorem rowLists_own {outline : Outline} (holds : document.Holds (context.fill [outline]))
    (params : Params) :
    rowLists document params .own outline.id =
      listsOfRow params (inRow document context) (outline.toTree document) := by
  rw [listsOfRow, ← rowTexts_own holds, listsOf, List.flatMap_map]
  rfl

end Owning

end WordTemplate.Filling
