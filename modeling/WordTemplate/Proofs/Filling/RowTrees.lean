import WordTemplate.Filling.Rows
import WordTemplate.Proofs.Markup.Trees
import WordTemplate.Proofs.Placeholder.Cutting

/-! Repeating rows as trees: which texts a row owns, which trees its copies are, and what trees
become when every row repeats until no list is left. -/

namespace WordTemplate.Filling

open Markup

mutual

/-- The contents of the texts of a tree that stand outside of the given tags. -/
def textsOutside (tags : List String) : Tree → List String
  | .node element children =>
    if tags.contains element.tag then []
    else
      (if element.tag = Wordml.text then [element.text] else []) ++
        textsOutsideAll tags children

def textsOutsideAll (tags : List String) : List Tree → List String
  | [] => []
  | tree :: rest => textsOutside tags tree ++ textsOutsideAll tags rest

end

theorem textsOutsideAll_eq (tags : List String) (trees : List Tree) :
    textsOutsideAll tags trees = trees.flatMap (textsOutside tags) := by
  induction trees with
  | nil => rfl
  | cons tree rest ih => simp [textsOutsideAll, ih]

/-- The contents of the texts that a row owns. Inside of a table row a paragraph owns none. -/
def ownedTexts (inRow : Bool) : Tree → List String
  | .node element children =>
    if element.tag = Wordml.row then textsOutsideAll [Wordml.row] children
    else if element.tag = Wordml.paragraph && !inRow then textsOutsideAll rowTags children
    else []

def listsOf (params : Params) (texts : List String) : List Param :=
  distinct <| texts.flatMap fun text =>
    (Placeholder.scan text).filterMap (repeating? params)

def listsOfRow (params : Params) (inRow : Bool) (tree : Tree) : List Param :=
  listsOf params (ownedTexts inRow tree)

def indexElement (params : Params) (lists : List Param) (position : Nat) (element : Element) :
    Element :=
  { element with
    text :=
      if element.tag = Wordml.text then indexText params lists position element.text
      else element.text
    attributes := element.attributes.map fun entry =>
      { entry with value := indexText params lists position entry.value } }

def copyCount (lists : List Param) : Nat :=
  (lists.map Param.itemCount).foldl max 0

def copiesOf (params : Params) (lists : List Param) (tree : Tree) : List Tree :=
  (List.range (copyCount lists)).map fun position =>
    tree.map (indexElement params lists position)

def entersRow (inRow : Bool) (element : Element) : Bool :=
  inRow || element.tag = Wordml.row

/-- What trees become when every row that repeats is replaced by its copies, and the copies again by
theirs, until no row repeats. -/
inductive Expands (params : Params) : Bool → List Tree → List Tree → Prop
  | nil {inRow : Bool} : Expands params inRow [] []
  | keeps {inRow : Bool} {element : Element} {children below rest others : List Tree}
      (settled : listsOfRow params inRow (.node element children) = [])
      (inner : Expands params (entersRow inRow element) children below)
      (next : Expands params inRow rest others) :
      Expands params inRow (.node element children :: rest) (.node element below :: others)
  | repeats {inRow : Bool} {tree : Tree} {expanded rest others : List Tree}
      (due : listsOfRow params inRow tree ≠ [])
      (copies : Expands params inRow (copiesOf params (listsOfRow params inRow tree) tree) expanded)
      (next : Expands params inRow rest others) :
      Expands params inRow (tree :: rest) (expanded ++ others)

namespace Expands

variable {params : Params} {inRow : Bool}

theorem append {front front' back back' : List Tree} (first : Expands params inRow front front')
    (second : Expands params inRow back back') :
    Expands params inRow (front ++ back) (front' ++ back') := by
  induction first with
  | nil => exact second
  | keeps settled inner _ _ ih => exact .keeps settled inner (ih second)
  | repeats due copies _ _ ih =>
      rw [List.append_assoc]
      exact .repeats due copies (ih second)

theorem flatMap {α : Type} {items : List α} {trees : α → Tree} {expanded : α → List Tree}
    (each : ∀ item ∈ items, Expands params inRow [trees item] (expanded item)) :
    Expands params inRow (items.map trees) (items.flatMap expanded) := by
  induction items with
  | nil => exact .nil
  | cons item rest ih =>
      have others := ih fun other member => each other (by simp [member])
      exact (each item (by simp)).append others

theorem unique {trees first second : List Tree} (left : Expands params inRow trees first)
    (right : Expands params inRow trees second) : first = second := by
  induction left generalizing second with
  | nil =>
      cases right
      rfl
  | keeps settled _ _ innerIH nextIH =>
      cases right with
      | keeps _ inner next => rw [innerIH inner, nextIH next]
      | repeats due _ _ => exact absurd settled due
  | repeats due _ _ copiesIH nextIH =>
      cases right with
      | keeps settled _ _ => exact absurd settled due
      | repeats _ copies next => rw [copiesIH copies, nextIH next]

end Expands

mutual

def Settled (params : Params) (inRow : Bool) : Tree → Prop
  | .node element children =>
    listsOfRow params inRow (.node element children) = [] ∧
      SettledAll params (entersRow inRow element) children

def SettledAll (params : Params) (inRow : Bool) : List Tree → Prop
  | [] => True
  | tree :: rest => Settled params inRow tree ∧ SettledAll params inRow rest

end

section Settled

variable {params : Params}

theorem settledAll_append {inRow : Bool} {front back : List Tree} :
    SettledAll params inRow (front ++ back) ↔
      SettledAll params inRow front ∧ SettledAll params inRow back := by
  induction front with
  | nil => simp [SettledAll]
  | cons tree rest ih => simp [SettledAll, ih, and_assoc]

mutual

theorem expands_of_settled {inRow : Bool} {tree : Tree} (settled : Settled params inRow tree) :
    Expands params inRow [tree] [tree] := by
  cases tree with
  | node element children =>
      exact .keeps settled.1 (expands_of_settledAll settled.2) .nil

theorem expands_of_settledAll {inRow : Bool} {trees : List Tree}
    (settled : SettledAll params inRow trees) :
    Expands params inRow trees trees := by
  cases trees with
  | nil => exact .nil
  | cons tree rest =>
      exact (expands_of_settled settled.1).append (expands_of_settledAll settled.2)

end

/-- The tags of which no row repeats in front of a text that a row owns. -/
def guards (inRow : Bool) : List String :=
  if inRow then [Wordml.row] else rowTags

theorem contains_of_ownedTexts {inRow : Bool} {tree : Tree}
    (some : ownedTexts inRow tree ≠ []) :
    (guards inRow).contains tree.element.tag = true := by
  cases tree with
  | node element children =>
      simp only [ownedTexts] at some
      split at some
      · rename_i isRow
        cases inRow <;> simp [guards, rowTags, Tree.element, isRow]
      · split at some
        · rename_i isParagraph
          simp only [Bool.and_eq_true, decide_eq_true_eq, Bool.not_eq_true'] at isParagraph
          simp [guards, rowTags, Tree.element, isParagraph]
        · exact absurd rfl some

theorem ownedTexts_of_listsOfRow {inRow : Bool} {tree : Tree}
    (due : listsOfRow params inRow tree ≠ []) :
    ownedTexts inRow tree ≠ [] := by
  intro none
  rw [listsOfRow, none] at due
  exact due rfl

theorem textsOutside_of_contains {tags : List String} {tree : Tree}
    (stops : tags.contains tree.element.tag = true) : textsOutside tags tree = [] := by
  cases tree with
  | node element children => exact if_pos stops

/-- Expansion does not touch the texts outside of rows that may repeat. -/
theorem textsOutsideAll_expands {inRow : Bool} {trees expanded : List Tree}
    (expands : Expands params inRow trees expanded) {tags : List String}
    (guarded : ∀ tag, (guards inRow).contains tag = true → tags.contains tag = true) :
    textsOutsideAll tags expanded = textsOutsideAll tags trees := by
  induction expands with
  | nil => rfl
  | @keeps inRow element children below rest others _ _ _ innerIH nextIH =>
      have inside : tags.contains element.tag = false →
          textsOutsideAll tags below = textsOutsideAll tags children := by
        intro outside
        apply innerIH
        intro tag found
        by_cases isRow : element.tag = Wordml.row
        · have : (guards inRow).contains element.tag = true := by
            cases inRow <;> simp [guards, rowTags, isRow]
          rw [guarded _ this] at outside
          exact absurd outside (by decide)
        · simp only [entersRow, isRow, decide_false, Bool.or_false] at found
          exact guarded tag found
      rw [textsOutsideAll, textsOutsideAll, nextIH guarded, textsOutside, textsOutside]
      by_cases stops : tags.contains element.tag = true
      · rw [if_pos stops, if_pos stops]
      · rw [if_neg stops, if_neg stops, inside (by simpa using stops)]
  | @repeats inRow tree expanded rest others due _ _ copiesIH nextIH =>
      have stops := guarded _ (contains_of_ownedTexts (ownedTexts_of_listsOfRow due))
      have none : textsOutsideAll tags (copiesOf params (listsOfRow params inRow tree) tree) =
          [] := by
        rw [textsOutsideAll_eq, List.flatMap_eq_nil_iff]
        intro copy member
        obtain ⟨position, -, rfl⟩ := List.mem_map.mp member
        apply textsOutside_of_contains
        rw [Tree.element_map]
        exact stops
      rw [textsOutsideAll_eq, List.flatMap_append, ← textsOutsideAll_eq, ← textsOutsideAll_eq,
        copiesIH guarded, none, nextIH guarded, textsOutsideAll, textsOutside_of_contains stops]

theorem ownedTexts_expands {inRow : Bool} {element : Element} {children below : List Tree}
    (inner : Expands params (entersRow inRow element) children below) :
    ownedTexts inRow (.node element below) = ownedTexts inRow (.node element children) := by
  rw [ownedTexts, ownedTexts]
  by_cases isRow : element.tag = Wordml.row
  · rw [if_pos isRow, if_pos isRow]
    apply textsOutsideAll_expands inner
    intro tag found
    simpa [entersRow, isRow, guards] using found
  · rw [if_neg isRow, if_neg isRow]
    by_cases isParagraph : (element.tag = Wordml.paragraph && !inRow) = true
    · rw [if_pos isParagraph, if_pos isParagraph]
      apply textsOutsideAll_expands inner
      intro tag found
      simp only [Bool.and_eq_true, Bool.not_eq_true'] at isParagraph
      simpa [entersRow, isRow, guards, isParagraph.2] using found
    · rw [if_neg isParagraph, if_neg isParagraph]

theorem Expands.settled {inRow : Bool} {trees expanded : List Tree}
    (expands : Expands params inRow trees expanded) : SettledAll params inRow expanded := by
  induction expands with
  | nil => trivial
  | keeps settled inner _ innerIH nextIH =>
      refine ⟨⟨?_, innerIH⟩, nextIH⟩
      rw [listsOfRow, ownedTexts_expands inner]
      exact settled
  | repeats _ _ _ copiesIH nextIH => exact settledAll_append.mpr ⟨copiesIH, nextIH⟩

end Settled

end WordTemplate.Filling
