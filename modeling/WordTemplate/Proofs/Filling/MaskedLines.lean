import WordTemplate.Filling.Lines
import WordTemplate.Filling.Lists
import WordTemplate.Proofs.Markup.Covering

/-! Splitting paragraphs into lines with some characters disguised. Line feeds and carriage returns are
blank and no disguise touches them, so that the same paragraphs are split at the same places. -/

namespace WordTemplate

open Markup
open Text (Disguises)

section Pieces

variable {change : Char → Char} (disguises : Disguises change)
include disguises

theorem Text.pieces_map {separator : Char} (letter : ¬ Text.Neutral separator) (text : List Char) :
    Text.pieces separator (text.map change) = (Text.pieces separator text).map (List.map change) := by
  induction text with
  | nil => rfl
  | cons c rest ih =>
      rw [List.map_cons, Text.pieces, Text.pieces, ih]
      simp only [disguises.eq_iff letter]
      split
      · rfl
      · cases Text.pieces separator rest <;> rfl

namespace Filling

theorem dropReturn_map (line : List Char) :
    dropReturn (line.map change) = (dropReturn line).map change := by
  have atEnd : (line.map change).getLast? = some '\r' ↔ line.getLast? = some '\r' := by
    rw [List.getLast?_map]
    cases line.getLast? with
    | none => simp
    | some c => simpa using disguises.eq_iff (by decide +kernel)
  simp only [dropReturn, atEnd]
  split
  · exact (List.map_dropLast ..).symm
  · rfl

theorem lines_map (content : String) :
    lines (content.map change) = (lines content).map (String.map change) := by
  rw [lines, lines, String.toList_map, Text.pieces_map disguises (by decide +kernel), List.map_map,
    List.map_map]
  refine List.map_congr_left fun line _ => ?_
  rw [← String.toList_inj]
  simp [dropReturn_map disguises]

theorem holdsLineFeed_map (content : String) :
    holdsLineFeed (content.map change) = holdsLineFeed content := by
  rw [holdsLineFeed, holdsLineFeed, String.toList_map, Bool.eq_iff_iff]
  simp only [List.contains_iff_mem, List.mem_map, disguises.eq_iff (show ¬ Text.Neutral '\n' by
    decide +kernel), exists_eq_right]

end Filling

end Pieces

namespace Filling

variable {change : Char → Char} (disguises : Disguises change)

/-- The line with other characters. -/
def Line.recode (change : Char → Char) (line : Line) : Line :=
  { line with content := line.content.map change }

include disguises

theorem linesOf_map (content : String) :
    linesOf (content.map change) = (linesOf content).map (Line.recode change) := by
  simp only [linesOf, lines_map disguises, List.zipIdx_map, List.map_map, List.length_map]
  rfl

omit disguises in
theorem ownTexts_recode (document : Document) (id : NodeId) :
    Wordml.ownTexts (document.recode change) id = Wordml.ownTexts document id := by
  simp only [Wordml.ownTexts, Document.findAll_recode, Document.closest?_recode]

theorem fillLine_recode (document : Document) (copy : NodeId) (path : List Nat) (line : Line) :
    fillLine (document.recode change) copy path (line.recode change) =
      (fillLine document copy path line).recode change := by
  rw [fillLine, fillLine, Document.follow?_recode]
  cases document.follow? copy path with
  | none => rfl
  | some twin =>
      simp only [Line.recode, Document.setText_recode, Document.removeAttribute_recode,
        Wordml.preserveSpace_recode disguises, ownTexts_recode]
      split
      · exact Document.foldl_recode _ (Wordml.deleteText_recode change) _
      · rfl

theorem copyLines_recode (document : Document) (paragraph : NodeId) (path : List Nat)
    (anchor : NodeId) (lines : List Line) :
    copyLines (document.recode change) paragraph path anchor (lines.map (Line.recode change)) =
      (copyLines document paragraph path anchor lines).recode change := by
  induction lines generalizing document anchor with
  | nil => rfl
  | cons line rest ih =>
      simp only [List.map_cons, copyLines, Document.cloneSubtree_recode,
        Document.insertAfter_recode, fillLine_recode disguises, ih]

theorem splitParagraph_recode (document : Document) (paragraph : NodeId) (path : List Nat)
    (content : String) :
    splitParagraph (document.recode change) paragraph path (content.map change) =
      (splitParagraph document paragraph path content).recode change := by
  rw [splitParagraph, splitParagraph, linesOf_map disguises, copyLines_recode disguises,
    Document.delete_recode]

omit disguises in
theorem locate?_recode (document : Document) (id : NodeId) :
    locate? (document.recode change) id = locate? document id := by
  simp only [locate?, Document.closest?_recode, Document.path?_recode]

theorem splitFrom_recode (fuel : Nat) (skipped : List NodeId) (document : Document) (count : Nat) :
    splitFrom fuel skipped (document.recode change, count) =
      ((splitFrom fuel skipped (document, count)).1.recode change,
        (splitFrom fuel skipped (document, count)).2) := by
  induction fuel generalizing skipped document count with
  | zero => rfl
  | succ fuel ih =>
      rw [splitFrom, splitFrom]
      simp only [Document.root_recode, Document.findAll_recode, Document.text_recode,
        holdsLineFeed_map disguises, locate?_recode]
      split
      · rfl
      · rename_i id _
        split
        · exact ih _ document count
        · rw [splitParagraph_recode disguises]
          exact ih _ _ _

theorem splitFuel_recode (document : Document) :
    splitFuel (document.recode change) = splitFuel document := by
  simp only [splitFuel, Document.size_recode, Document.root_recode, Document.descendants_recode,
    Document.text_recode, lines_map disguises, List.length_map]

theorem splitLines_recode (document : Document) :
    (splitLines (document.recode change)).1 = (splitLines document).1.recode change := by
  rw [splitLines, splitLines, splitFuel_recode disguises, splitFrom_recode disguises]

omit disguises in
theorem stripMarks_recode (document : Document) :
    stripMarks (document.recode change) = (stripMarks document).recode change :=
  Document.removeAttributeDeep_recode document document.root listKey

end Filling

end WordTemplate
