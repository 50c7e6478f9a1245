import Mathlib.Algebra.Order.BigOperators.Group.List
import WordTemplate.Proofs.Filling.Finish
import WordTemplate.Proofs.Filling.LineFeeds

/-! What paragraphs say, cut at line feeds, and documents in which paragraphs are replaced by others at their
place. -/

namespace WordTemplate

namespace Text

theorem pieces_append_cons (separator : Char) (front back : List Char) :
    pieces separator (front ++ separator :: back) = pieces separator front ++ pieces separator back := by
  induction front with
  | nil => simp [pieces]
  | cons c rest ih =>
      rw [List.cons_append, pieces, pieces, ih]
      by_cases here : c = separator
      · rw [if_pos here, if_pos here, List.cons_append]
      · rw [if_neg here, if_neg here]
        cases cut : pieces separator rest with
        | nil => exact absurd cut (pieces_ne_nil separator rest)
        | cons first others => rfl

theorem pieces_of_free {separator : Char} {text : List Char} (free : separator ∉ text) :
    pieces separator text = [text] := by
  induction text with
  | nil => rfl
  | cons c rest ih =>
      rw [List.mem_cons, not_or] at free
      rw [pieces, if_neg (Ne.symm free.1), ih free.2]

theorem intercalate_pieces (separator : Char) (text : List Char) :
    [separator].intercalate (pieces separator text) = text := by
  induction text with
  | nil => rfl
  | cons c rest ih =>
      cases cut : pieces separator rest with
      | nil => exact absurd cut (pieces_ne_nil separator rest)
      | cons first others =>
          rw [cut] at ih
          rw [pieces, cut]
          split
          · rename_i here
            rw [List.intercalate_cons_cons, ih, here]
            rfl
          · cases others with
            | nil => simpa using ih
            | cons next others =>
                simp only [List.intercalate_cons_cons] at ih ⊢
                rw [← ih]
                rfl

theorem pieces_append_intercalate (separator : Char) (lead stretch back : List Char)
    {rest : List (List Char)} (more : rest ≠ []) :
    pieces separator (lead ++ stretch) ++ pieces separator ([separator].intercalate rest ++ back) =
      pieces separator (lead ++ [separator].intercalate (stretch :: rest) ++ back) := by
  obtain ⟨second, others, rfl⟩ := List.exists_cons_of_ne_nil more
  rw [← pieces_append_cons, List.intercalate_cons_cons]
  simp

/-- Behind the first of some stretches, only the last gets something more. -/
theorem flatMap_pieces_zipIdx_behind (separator : Char) (front back : List Char)
    {stretches : List (List Char)} (filled : stretches ≠ []) {first start : Nat} (before : first < start) :
    ((stretches.zipIdx start).flatMap fun entry => pieces separator
      ((if entry.2 = first then front else []) ++ entry.1 ++
        if entry.2 + 1 = start + stretches.length then back else [])) =
      pieces separator ([separator].intercalate stretches ++ back) := by
  induction stretches generalizing start with
  | nil => exact absurd rfl filled
  | cons stretch rest ih =>
      rw [List.zipIdx_cons, List.flatMap_cons, if_neg (by omega), List.nil_append]
      by_cases last : rest = []
      · simp [last]
      · have more := List.length_pos_iff.mpr last
        have next := ih last (Nat.lt_succ_of_lt before)
        have joined := pieces_append_intercalate separator [] stretch back last
        rw [show start + (stretch :: rest).length = start + 1 + rest.length by
          rw [List.length_cons]; omega, next, if_neg (by dsimp only; omega), List.append_nil]
        exact joined

/-- The first of some stretches with what is put in front, and the last with what is put behind, are cut like
all of them joined. -/
theorem flatMap_pieces_zipIdx (separator : Char) (front back : List Char) {stretches : List (List Char)}
    (filled : stretches ≠ []) (start : Nat) :
    ((stretches.zipIdx start).flatMap fun entry => pieces separator
      ((if entry.2 = start then front else []) ++ entry.1 ++
        if entry.2 + 1 = start + stretches.length then back else [])) =
      pieces separator (front ++ [separator].intercalate stretches ++ back) := by
  cases stretches with
  | nil => exact absurd rfl filled
  | cons stretch rest =>
      rw [List.zipIdx_cons, List.flatMap_cons, if_pos rfl]
      by_cases last : rest = []
      · simp [last]
      · have more := List.length_pos_iff.mpr last
        have behind := flatMap_pieces_zipIdx_behind separator front back last (Nat.lt_succ_self start)
        have joined := pieces_append_intercalate separator front stretch back last
        rw [show start + (stretch :: rest).length = start + 1 + rest.length by
          rw [List.length_cons]; omega, behind, if_neg (by dsimp only; omega), List.append_nil]
        exact joined

end Text

namespace Filling

open Markup
open Outline (toTrees)

section Lines

theorem dropReturn_of_free {line : List Char} (free : '\r' ∉ line) : dropReturn line = line := by
  rw [dropReturn, if_neg]
  exact fun last => free (List.mem_of_getLast? last)

theorem lines_of_free {content : String} (free : '\r' ∉ content.toList) :
    lines content = (Text.pieces '\n' content.toList).map String.ofList := by
  refine List.map_congr_left fun piece member => ?_
  rw [dropReturn_of_free fun inside => free ((Text.infix_of_mem_pieces member).subset inside)]

/-- A line with what goes with it of the characters in front of the split text and behind it. -/
def Line.around (front back : List Char) (line : Line) : List Char :=
  (if line.isFirst then front else []) ++ line.content.toList ++ (if line.isLast then back else [])

theorem flatMap_pieces_around (front back : List Char) {content : String} (free : '\r' ∉ content.toList) :
    (linesOf content).flatMap (fun line => Text.pieces '\n' (line.around front back)) =
      Text.pieces '\n' (front ++ content.toList ++ back) := by
  have whole := Text.flatMap_pieces_zipIdx '\n' front back (Text.pieces_ne_nil '\n' content.toList) 0
  rw [Text.intercalate_pieces] at whole
  rw [← whole, linesOf, lines_of_free free, List.zipIdx_map, List.map_map, List.flatMap_map]
  refine List.flatMap_congr fun entry _ => ?_
  simp [Line.around]

end Lines

def ownText (children : List Tree) : List Char :=
  (textsOutsideAll [Wordml.paragraph] children).flatMap String.toList

/-- Trees in which each paragraph is replaced at its place by paragraphs that are like it but for their
children. The rule says which children they may have; paragraphs inside of paragraphs are not looked at. -/
inductive Replaces (rule : List Tree → List (List Tree) → Prop) : List Tree → List Tree → Prop
  | nil : Replaces rule [] []
  | paragraph {element : Element} {children rest others : List Tree} {copies : List (List Tree)}
      (isParagraph : element.tag = Wordml.paragraph) (allowed : rule children copies)
      (behind : Replaces rule rest others) :
      Replaces rule (.node element children :: rest) (copies.map (.node element) ++ others)
  | other {element : Element} {children below rest others : List Tree}
      (notParagraph : element.tag ≠ Wordml.paragraph) (inside : Replaces rule children below)
      (behind : Replaces rule rest others) :
      Replaces rule (.node element children :: rest) (.node element below :: others)

/-- A paragraph with line feeds becomes one for each line of what it says, and any other one stays as it
is. -/
def IntoLines (children : List Tree) (copies : List (List Tree)) : Prop :=
  copies.map ownText = Text.pieces '\n' (ownText children) ∧
    ('\n' ∉ ownText children → copies = [children])

def TowardsLines (children : List Tree) (copies : List (List Tree)) : Prop :=
  copies.flatMap (fun copy => Text.pieces '\n' (ownText copy)) = Text.pieces '\n' (ownText children) ∧
    ('\n' ∉ ownText children → copies = [children])

theorem TowardsLines.refl (children : List Tree) : TowardsLines children [children] :=
  ⟨by simp, fun _ => rfl⟩

theorem TowardsLines.trans {children : List Tree} {copies : List (List Tree)}
    {lists : List (List (List Tree))} (first : TowardsLines children copies)
    (each : List.Forall₂ TowardsLines copies lists) : TowardsLines children lists.flatten := by
  constructor
  · rw [← first.1]
    clear first
    induction each with
    | nil => rfl
    | cons one _ ih => rw [List.flatten_cons, List.flatMap_append, ih, one.1, List.flatMap_cons]
  · intro free
    obtain rfl := first.2 free
    cases each with
    | cons one rest =>
        cases rest
        simpa using one.2 free

namespace Replaces

variable {rule : List Tree → List (List Tree) → Prop}

theorem append {front front' back back' : List Tree} (first : Replaces rule front front')
    (second : Replaces rule back back') : Replaces rule (front ++ back) (front' ++ back') := by
  induction first with
  | nil => exact second
  | paragraph isParagraph allowed _ ih =>
      rw [List.cons_append, List.append_assoc]
      exact .paragraph isParagraph allowed ih
  | other notParagraph inside _ _ ih => exact .other notParagraph inside ih

mutual

theorem refl_singleton (same : ∀ children, rule children [children]) (tree : Tree) :
    Replaces rule [tree] [tree] := by
  cases tree with
  | node element children =>
      by_cases isParagraph : element.tag = Wordml.paragraph
      · exact .paragraph isParagraph (same children) .nil
      · exact .other isParagraph (refl same children) .nil

theorem refl (same : ∀ children, rule children [children]) (trees : List Tree) :
    Replaces rule trees trees := by
  cases trees with
  | nil => exact .nil
  | cons tree rest => exact (refl_singleton same tree).append (refl same rest)

end

theorem of_copies {element : Element} (isParagraph : element.tag = Wordml.paragraph)
    {copies : List (List Tree)} {others trees : List Tree}
    (replaces : Replaces rule (copies.map (.node element) ++ others) trees) :
    ∃ lists rest, trees = lists.flatten.map (.node element) ++ rest ∧ List.Forall₂ rule copies lists ∧
      Replaces rule others rest := by
  induction copies generalizing trees with
  | nil => exact ⟨[], trees, rfl, .nil, replaces⟩
  | cons copy rest ih =>
      rw [List.map_cons, List.cons_append] at replaces
      cases replaces with
      | paragraph _ allowed behind =>
          obtain ⟨lists, trees, rfl, each, last⟩ := ih behind
          exact ⟨_ :: lists, trees, by simp, .cons allowed each, last⟩
      | other notParagraph _ _ => exact absurd isParagraph notParagraph

theorem trans (compose : ∀ {children copies lists}, rule children copies → List.Forall₂ rule copies lists →
    rule children lists.flatten) {first second third : List Tree} (left : Replaces rule first second)
    (right : Replaces rule second third) : Replaces rule first third := by
  induction left generalizing third with
  | nil => exact right
  | paragraph isParagraph allowed _ ih =>
      obtain ⟨lists, rest, rfl, each, last⟩ := right.of_copies isParagraph
      exact .paragraph isParagraph (compose allowed each) (ih last)
  | other notParagraph _ _ within ih =>
      cases right with
      | paragraph isParagraph => exact absurd isParagraph notParagraph
      | other _ inside behind => exact .other notParagraph (within inside) (ih behind)

end Replaces

mutual

def fedTexts : Tree → Nat
  | .node element children =>
    (if element.tag = Wordml.paragraph then
      (textsOutsideAll [Wordml.paragraph] children).countP holdsLineFeed
    else 0) + fedTextsAll children

def fedTextsAll : List Tree → Nat
  | [] => 0
  | tree :: rest => fedTexts tree + fedTextsAll rest

end

section Fed

theorem fedTextsAll_eq (trees : List Tree) : fedTextsAll trees = (trees.map fedTexts).sum := by
  induction trees with
  | nil => rfl
  | cons tree rest ih => rw [fedTextsAll, ih, List.map_cons, List.sum_cons]

theorem fedTextsAll_append (front back : List Tree) :
    fedTextsAll (front ++ back) = fedTextsAll front + fedTextsAll back := by
  simp [fedTextsAll_eq]

theorem fedTexts_of_other {element : Element} (notParagraph : element.tag ≠ Wordml.paragraph)
    (children : List Tree) : fedTexts (.node element children) = fedTextsAll children := by
  rw [fedTexts, if_neg notParagraph, Nat.zero_add]

theorem fedTextsAll_of_none {trees : List Tree}
    (none : ∀ element ∈ Tree.elementsAll trees, element.tag ≠ Wordml.paragraph) : fedTextsAll trees = 0 := by
  suffices ∀ tree : Tree, (∀ element ∈ tree.elements, element.tag ≠ Wordml.paragraph) → fedTexts tree = 0 by
    rw [Tree.elementsAll_eq] at none
    rw [fedTextsAll_eq, List.sum_eq_zero_iff]
    intro count member
    obtain ⟨tree, listed, rfl⟩ := List.mem_map.mp member
    exact this tree fun element inside => none element (List.mem_flatMap.mpr ⟨tree, listed, inside⟩)
  intro tree
  induction tree using Tree.induction with
  | node element children ih =>
      intro none
      rw [Tree.elements, List.forall_mem_cons] at none
      rw [fedTexts_of_other none.1, fedTextsAll_eq, List.sum_eq_zero_iff]
      intro count member
      obtain ⟨child, listed, rfl⟩ := List.mem_map.mp member
      refine ih child listed fun element inside => none.2 element ?_
      rw [Tree.elementsAll_eq]
      exact List.mem_flatMap.mpr ⟨child, listed, inside⟩

theorem countP_le_feedsAll (contents : List String) : contents.countP holdsLineFeed ≤ feedsAll contents := by
  induction contents with
  | nil => exact Nat.le_refl 0
  | cons content rest ih =>
      rw [List.countP_cons, feedsAll_cons]
      split
      · rename_i fed
        have one := holdsLineFeed_iff.mp fed
        omega
      · omega

mutual

theorem fedTexts_le_splits (tree : Tree) : fedTexts tree ≤ splits tree := by
  cases tree with
  | node element children =>
      have inside := fedTextsAll_le_splitsAll children
      rw [fedTexts, splits]
      split
      · have own : (textsOutsideAll [Wordml.paragraph] children).countP holdsLineFeed ≤ loose children :=
          countP_le_feedsAll _
        have more := Nat.mul_le_mul_left (loose children) (Nat.le_add_left 1 (splitsAll children))
        omega
      · omega

theorem fedTextsAll_le_splitsAll (trees : List Tree) : fedTextsAll trees ≤ splitsAll trees := by
  cases trees with
  | nil => exact Nat.le_refl 0
  | cons tree rest =>
      have first := fedTexts_le_splits tree
      have others := fedTextsAll_le_splitsAll rest
      rw [fedTextsAll, splitsAll]
      omega

end

/-- Where no paragraph has line feeds, all paragraphs are cut into lines. -/
theorem Replaces.settle {trees others : List Tree} (replaces : Replaces TowardsLines trees others)
    (settled : fedTextsAll others = 0) : Replaces IntoLines trees others := by
  induction replaces with
  | nil => exact .nil
  | @paragraph element children rest others copies isParagraph allowed _ ih =>
      rw [fedTextsAll_append, Nat.add_eq_zero_iff] at settled
      refine .paragraph isParagraph ⟨?_, allowed.2⟩ (ih settled.2)
      rw [← allowed.1, List.map_eq_flatMap]
      refine List.flatMap_congr fun copy member => ?_
      have none : fedTexts (.node element copy) = 0 := by
        rw [fedTextsAll_eq, List.sum_eq_zero_iff] at settled
        exact settled.1 _ (List.mem_map_of_mem (List.mem_map_of_mem member))
      rw [fedTexts, if_pos isParagraph, Nat.add_eq_zero_iff, List.countP_eq_zero] at none
      refine (Text.pieces_of_free fun fed => ?_).symm
      obtain ⟨text, listed, inside⟩ := List.mem_flatMap.mp fed
      exact none.1 text listed (by simpa [holdsLineFeed] using inside)
  | other notParagraph _ _ within ih =>
      rw [fedTextsAll, fedTexts_of_other notParagraph, Nat.add_eq_zero_iff] at settled
      exact .other notParagraph (within settled.1) (ih settled.2)

end Fed

end Filling

end WordTemplate
