import Mathlib.Algebra.BigOperators.Group.List.Basic
import Mathlib.Tactic.Ring
import WordTemplate.Filling.Lines
import WordTemplate.Proofs.Filling.RowTrees
import WordTemplate.Proofs.Markup.Places

/-! Line feeds in the texts of trees, and how often paragraphs are split at them. A paragraph is split at
each line feed of its own texts, and with it the paragraphs inside of it are copied; so a number of splits
is known before the first one, and every split lowers it. -/

namespace WordTemplate

namespace Text

theorem length_pieces (separator : Char) (text : List Char) :
    (pieces separator text).length = text.count separator + 1 := by
  induction text with
  | nil => rfl
  | cons c rest ih =>
      rw [pieces]
      by_cases here : c = separator
      · rw [if_pos here, List.length_cons, ih, here, List.count_cons_self]
      · rw [if_neg here, List.count_cons_of_ne here]
        cases cut : pieces separator rest with
        | nil => exact absurd cut (pieces_ne_nil separator rest)
        | cons first others => rw [← ih, cut, List.length_cons, List.length_cons]

theorem not_mem_of_mem_pieces {separator : Char} {text piece : List Char}
    (member : piece ∈ pieces separator text) : separator ∉ piece := by
  induction text generalizing piece with
  | nil => simp_all [pieces]
  | cons c rest ih =>
      rw [pieces] at member
      by_cases here : c = separator
      · rw [if_pos here] at member
        rcases List.mem_cons.mp member with rfl | later
        · simp
        · exact ih later
      · rw [if_neg here] at member
        cases cut : pieces separator rest with
        | nil => exact absurd cut (pieces_ne_nil separator rest)
        | cons first others =>
            rw [cut] at member ih
            rcases List.mem_cons.mp member with rfl | later
            · rw [List.mem_cons, not_or]
              exact ⟨Ne.symm here, ih (List.mem_cons_self ..)⟩
            · exact ih (List.mem_cons_of_mem _ later)

end Text

namespace Filling

open Markup
open Outline (idsAll toTrees)

def feeds (content : String) : Nat :=
  content.toList.count '\n'

def feedsAll (contents : List String) : Nat :=
  (contents.map feeds).sum

theorem holdsLineFeed_iff {content : String} : holdsLineFeed content = true ↔ 0 < feeds content := by
  rw [holdsLineFeed, feeds, List.contains_iff_mem, List.count_pos_iff]

@[simp]
theorem feedsAll_nil : feedsAll [] = 0 := rfl

@[simp]
theorem feedsAll_cons (content : String) (rest : List String) :
    feedsAll (content :: rest) = feeds content + feedsAll rest := rfl

@[simp]
theorem feedsAll_append (front back : List String) :
    feedsAll (front ++ back) = feedsAll front + feedsAll back := by
  simp [feedsAll]

theorem feedsAll_sublist {first second : List String} (sublist : first.Sublist second) :
    feedsAll first ≤ feedsAll second := by
  induction sublist with
  | slnil => exact Nat.le_refl _
  | cons content _ ih => exact Nat.le_trans ih (Nat.le_add_left ..)
  | cons_cons content _ ih => exact Nat.add_le_add_left ih _

section Lines

theorem length_lines (content : String) : (lines content).length = feeds content + 1 := by
  rw [lines, List.length_map, Text.length_pieces, feeds]

theorem feeds_of_mem_lines {content line : String} (member : line ∈ lines content) : feeds line = 0 := by
  obtain ⟨piece, listed, rfl⟩ := List.mem_map.mp member
  have free := Text.not_mem_of_mem_pieces listed
  rw [feeds, String.toList_ofList, List.count_eq_zero, dropReturn]
  split
  · exact fun inside => free ((List.dropLast_subset piece) inside)
  · exact free

theorem length_linesOf (content : String) : (linesOf content).length = feeds content + 1 := by
  rw [linesOf, List.length_map, List.length_zipIdx, length_lines]

theorem feeds_of_mem_linesOf {content : String} {line : Line} (member : line ∈ linesOf content) :
    feeds line.content = 0 := by
  obtain ⟨⟨text, index⟩, listed, rfl⟩ := List.mem_map.mp member
  exact feeds_of_mem_lines (List.fst_mem_of_mem_zipIdx listed)

/-- What goes with a line of what stands in front of the split text and behind it. -/
def Line.share (front back : Nat) (line : Line) : Nat :=
  (if line.isFirst then front else 0) + (if line.isLast then back else 0)

theorem sum_zipIdx (front back : Nat) {contents : List String} (some : contents ≠ []) (start : Nat) :
    ((contents.zipIdx start).map fun entry =>
      (if entry.2 = start then front else 0) +
        (if entry.2 + 1 = start + contents.length then back else 0)).sum = front + back := by
  have later : ∀ (contents : List String) (start first : Nat), first < start → contents ≠ [] →
      ((contents.zipIdx start).map fun entry =>
        (if entry.2 = first then front else 0) +
          (if entry.2 + 1 = start + contents.length then back else 0)).sum = back := by
    intro contents
    induction contents with
    | nil => exact fun start first _ none => absurd rfl none
    | cons content rest ih =>
        intro start first before _
        rw [List.zipIdx_cons, List.map_cons, List.sum_cons, if_neg (by omega), Nat.zero_add]
        by_cases last : rest = []
        · simp [last]
        · have more := List.length_pos_iff.mpr last
          have next := ih (start + 1) first (by omega) last
          rw [show start + (content :: rest).length = start + 1 + rest.length by
            rw [List.length_cons]; omega, next, if_neg (by dsimp only; omega), Nat.zero_add]
  cases contents with
  | nil => exact absurd rfl some
  | cons content rest =>
      rw [List.zipIdx_cons, List.map_cons, List.sum_cons, if_pos rfl]
      by_cases last : rest = []
      · simp [last]
      · have more := List.length_pos_iff.mpr last
        rw [show start + (content :: rest).length = start + 1 + rest.length by
          rw [List.length_cons]; omega, later rest (start + 1) start (by omega) last,
          if_neg (by dsimp only; omega), Nat.add_zero]

theorem sum_share (front back : Nat) (content : String) :
    ((linesOf content).map (Line.share front back)).sum = front + back := by
  have some : lines content ≠ [] := List.length_pos_iff.mp (by rw [length_lines]; omega)
  have whole := sum_zipIdx front back some 0
  rw [linesOf, List.map_map, ← whole]
  congr 1
  apply List.map_congr_left
  intro entry _
  simp [Line.share]

end Lines

def loose (trees : List Tree) : Nat :=
  feedsAll (textsOutsideAll [Wordml.paragraph] trees)

mutual

/-- How often paragraphs of a tree are split. Each line feed in the own texts of a paragraph makes one
more copy of it, and of the paragraphs inside of it. -/
def splits : Tree → Nat
  | .node element children =>
    if element.tag = Wordml.paragraph then
      loose children * (splitsAll children + 1) + splitsAll children
    else splitsAll children

def splitsAll : List Tree → Nat
  | [] => 0
  | tree :: rest => splits tree + splitsAll rest

end

section Trees

theorem loose_append (front back : List Tree) : loose (front ++ back) = loose front + loose back := by
  simp [loose, textsOutsideAll_eq]

theorem loose_cons (tree : Tree) (rest : List Tree) : loose (tree :: rest) = loose [tree] + loose rest :=
  loose_append [tree] rest

theorem splitsAll_append (front back : List Tree) :
    splitsAll (front ++ back) = splitsAll front + splitsAll back := by
  induction front with
  | nil => simp [splitsAll]
  | cons tree rest ih => rw [List.cons_append, splitsAll, splitsAll, ih, Nat.add_assoc]

theorem splitsAll_singleton (tree : Tree) : splitsAll [tree] = splits tree := by
  simp [splitsAll]

def ownFeeds (element : Element) : Nat :=
  if element.tag = Wordml.text then feeds element.text else 0

theorem loose_of_paragraph {element : Element} (isParagraph : element.tag = Wordml.paragraph)
    (children : List Tree) : loose [.node element children] = 0 := by
  simp [loose, textsOutsideAll, textsOutside, isParagraph]

theorem loose_of_other {element : Element} (other : element.tag ≠ Wordml.paragraph)
    (children : List Tree) : loose [.node element children] = ownFeeds element + loose children := by
  rw [loose, textsOutsideAll, textsOutsideAll, textsOutside, if_neg (by simpa using other),
    List.append_nil, feedsAll_append, ownFeeds, loose]
  split <;> rfl

/-- The first trees hold no more line feeds than the others, neither inside nor outside of paragraphs. -/
structure Lighter (trees others : List Tree) : Prop where
  loose : loose trees ≤ loose others
  splits : splitsAll trees ≤ splitsAll others

namespace Lighter

variable {trees others first second : List Tree}

theorem refl (trees : List Tree) : Lighter trees trees :=
  ⟨Nat.le_refl _, Nat.le_refl _⟩

theorem trans {more : List Tree} (left : Lighter trees others) (right : Lighter others more) :
    Lighter trees more :=
  ⟨Nat.le_trans left.loose right.loose, Nat.le_trans left.splits right.splits⟩

theorem nil (trees : List Tree) : Lighter [] trees :=
  ⟨by simp [Filling.loose, textsOutsideAll], by simp [splitsAll]⟩

theorem append (front : Lighter trees others) (back : Lighter first second) :
    Lighter (trees ++ first) (others ++ second) := by
  constructor
  · rw [loose_append, loose_append]
    exact Nat.add_le_add front.loose back.loose
  · rw [splitsAll_append, splitsAll_append]
    exact Nat.add_le_add front.splits back.splits

theorem node {element other : Element} (tag : element.tag = other.tag)
    (fewer : feeds element.text ≤ feeds other.text) (below : Lighter trees others) :
    Lighter [.node element trees] [.node other others] := by
  have own : ownFeeds element ≤ ownFeeds other := by
    rw [ownFeeds, ownFeeds, tag]
    split
    · exact fewer
    · exact Nat.le_refl 0
  constructor
  · by_cases isParagraph : other.tag = Wordml.paragraph
    · exact Nat.le_of_eq ((loose_of_paragraph (tag.trans isParagraph) _).trans
        (loose_of_paragraph isParagraph _).symm)
    · rw [loose_of_other (tag ▸ isParagraph), loose_of_other isParagraph]
      exact Nat.add_le_add own below.loose
  · rw [splitsAll_singleton, splitsAll_singleton, Filling.splits, Filling.splits, tag]
    split
    · exact Nat.add_le_add (Nat.mul_le_mul below.loose (Nat.succ_le_succ below.splits)) below.splits
    · exact below.splits

theorem of_outlines {first second : Document} {outlines : List Outline}
    (tag : ∀ id ∈ idsAll outlines, second.tag id = first.tag id)
    (fewer : ∀ id ∈ idsAll outlines, feeds (second.text id) ≤ feeds (first.text id)) :
    Lighter (toTrees second outlines) (toTrees first outlines) := by
  suffices ∀ outline : Outline, (∀ id ∈ outline.ids, second.tag id = first.tag id) →
      (∀ id ∈ outline.ids, feeds (second.text id) ≤ feeds (first.text id)) →
      Lighter [outline.toTree second] [outline.toTree first] by
    induction outlines with
    | nil => exact .refl _
    | cons outline rest ih =>
        rw [Outline.idsAll, List.forall_mem_append] at tag fewer
        exact (this outline tag.1 fewer.1).append (ih tag.2 fewer.2)
  intro outline
  induction outline using Outline.induction with
  | node id children ih =>
      intro tag fewer
      rw [Outline.ids, List.forall_mem_cons] at tag fewer
      rw [Outline.toTree, Outline.toTree]
      refine .node tag.1 fewer.1 ?_
      replace tag := tag.2
      replace fewer := fewer.2
      induction children with
      | nil => exact .refl _
      | cons child rest rec =>
          rw [Outline.idsAll, List.forall_mem_append] at tag fewer
          exact (ih child (by simp) tag.1 fewer.1).append
            (rec (fun other member => ih other (by simp [member])) tag.2 fewer.2)

end Lighter

variable {document : Document} {filling others : List Tree}

theorem lighter_trees (lighter : Lighter filling others) (context : Context) :
    Lighter (context.trees document filling) (context.trees document others) := by
  induction context generalizing filling others with
  | top before after => exact ((Lighter.refl _).append lighter).append (.refl _)
  | under outer before after id ih =>
      exact ih (.node rfl (Nat.le_refl _) (((Lighter.refl _).append lighter).append (.refl _)))

theorem splitsAll_trees_lt (same : loose filling = loose others)
    (fewer : splitsAll filling < splitsAll others) (context : Context) :
    splitsAll (context.trees document filling) < splitsAll (context.trees document others) := by
  induction context generalizing filling others with
  | top before after =>
      simp only [Context.trees, splitsAll_append]
      omega
  | under outer before after id ih =>
      have inside : splitsAll (toTrees document before ++ filling ++ toTrees document after) <
          splitsAll (toTrees document before ++ others ++ toTrees document after) := by
        simp only [splitsAll_append]
        omega
      have looseInside : loose (toTrees document before ++ filling ++ toTrees document after) =
          loose (toTrees document before ++ others ++ toTrees document after) := by
        simp only [loose_append, same]
      rw [Context.trees, Context.trees]
      apply ih
      · by_cases isParagraph : (document.node id).tag = Wordml.paragraph
        · rw [loose_of_paragraph isParagraph, loose_of_paragraph isParagraph]
        · rw [loose_of_other isParagraph, loose_of_other isParagraph, looseInside]
      · rw [splitsAll_singleton, splitsAll_singleton, splits, splits, looseInside]
        split
        · have more := Nat.mul_le_mul_left
            (loose (toTrees document before ++ others ++ toTrees document after))
            (Nat.add_le_add_right (Nat.le_of_lt inside) 1)
          omega
        · exact inside

/-- One more than the line feeds of each element, multiplied. -/
def feedProduct (elements : List Element) : Nat :=
  (elements.map fun element => feeds element.text + 1).prod

theorem feedProduct_append (front back : List Element) :
    feedProduct (front ++ back) = feedProduct front * feedProduct back := by
  simp [feedProduct]

theorem add_le_mul (first second : Nat) : first + second + 1 ≤ (first + 1) * (second + 1) :=
  calc first + second + 1 ≤ first * second + (first + second + 1) := Nat.le_add_left ..
    _ = (first + 1) * (second + 1) := by ring

theorem mul_le_of_parts {first second third fourth left right : Nat}
    (front : (first + 1) * (second + 1) ≤ left) (back : (third + 1) * (fourth + 1) ≤ right) :
    (first + third + 1) * (second + fourth + 1) ≤ left * right :=
  calc (first + third + 1) * (second + fourth + 1)
      ≤ ((first + 1) * (third + 1)) * ((second + 1) * (fourth + 1)) :=
        Nat.mul_le_mul (add_le_mul first third) (add_le_mul second fourth)
    _ = ((first + 1) * (second + 1)) * ((third + 1) * (fourth + 1)) := by ring
    _ ≤ left * right := Nat.mul_le_mul front back

mutual

/-- Nothing is split more often than the product of the line feeds allows. -/
theorem splits_bound (tree : Tree) :
    (loose [tree] + 1) * (splits tree + 1) ≤ feedProduct tree.elements := by
  cases tree with
  | node element children =>
      have below := splitsAll_bound children
      rw [Tree.elements, feedProduct, List.map_cons, List.prod_cons, ← feedProduct]
      by_cases isParagraph : element.tag = Wordml.paragraph
      · rw [loose_of_paragraph isParagraph, splits, if_pos isParagraph, Nat.zero_add, Nat.one_mul]
        calc loose children * (splitsAll children + 1) + splitsAll children + 1
            = (loose children + 1) * (splitsAll children + 1) := by ring
          _ ≤ feedProduct (Tree.elementsAll children) := below
          _ ≤ (feeds element.text + 1) * feedProduct (Tree.elementsAll children) :=
            Nat.le_mul_of_pos_left _ (Nat.succ_pos _)
      · have own : ownFeeds element ≤ feeds element.text := by
          rw [ownFeeds]
          split
          · exact Nat.le_refl _
          · exact Nat.zero_le _
        rw [loose_of_other isParagraph, splits, if_neg isParagraph]
        have first : (ownFeeds element + 1) * (0 + 1) ≤ feeds element.text + 1 := by
          rw [Nat.zero_add, Nat.mul_one]
          exact Nat.add_le_add_right own 1
        simpa using mul_le_of_parts first below

theorem splitsAll_bound (trees : List Tree) :
    (loose trees + 1) * (splitsAll trees + 1) ≤ feedProduct (Tree.elementsAll trees) := by
  cases trees with
  | nil => exact Nat.le_refl 1
  | cons tree rest =>
      rw [loose_cons, splitsAll, Tree.elementsAll, feedProduct_append]
      exact mul_le_of_parts (splits_bound tree) (splitsAll_bound rest)

end

end Trees

end Filling

end WordTemplate
