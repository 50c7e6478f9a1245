import Mathlib.Data.List.Basic
import WordTemplate.Key

/-! Keys as lists of segments. The weight of a key is the number of its segments that are not
empty; it grows with every position that is put into the key. -/

namespace WordTemplate

namespace Text

theorem pieces_eq_splitOn (separator : Char) (text : List Char) :
    pieces separator text = text.splitOn separator := by
  induction text with
  | nil => simp [pieces]
  | cons c rest ih =>
      rw [pieces, List.splitOn_cons_eq_if_modifyHead, ih]
      by_cases same : c = separator
      · simp [same]
      · simp only [same, if_false, beq_iff_eq]
        cases split : rest.splitOn separator with
        | nil => exact absurd split (List.splitOn_ne_nil separator rest)
        | cons first others => rfl

theorem not_mem_of_mem_splitOn {separator : Char} {text segment : List Char}
    (member : segment ∈ text.splitOn separator) : separator ∉ segment := by
  induction text generalizing segment with
  | nil => simp_all
  | cons c rest ih =>
      rw [List.splitOn_cons_eq_if_modifyHead] at member
      by_cases same : c = separator
      · simp only [same, beq_self_eq_true, if_true, List.mem_cons] at member
        rcases member with first | later
        · simp [first]
        · exact ih later
      · simp only [beq_iff_eq, same, if_false] at member
        cases split : rest.splitOn separator with
        | nil => exact absurd split (List.splitOn_ne_nil separator rest)
        | cons first others =>
            rw [split] at member ih
            simp only [List.modifyHead_cons, List.mem_cons] at member
            rcases member with here | later
            · subst here
              have inner := ih (List.mem_cons_self ..)
              simpa [Ne.symm same] using inner
            · exact ih (List.mem_cons_of_mem _ later)

end Text

namespace Key

/-- A text that can stand between two separators. -/
def IsSegment (segment : String) : Prop :=
  separator ∉ segment.toList

instance (segment : String) : Decidable (IsSegment segment) :=
  inferInstanceAs (Decidable (_ ∉ _))

theorem segments_ne_nil (key : String) : segments key ≠ [] := by
  intro empty
  exact Text.pieces_ne_nil separator key.toList (List.map_eq_nil_iff.mp empty)

theorem ofSegments_segments (key : String) : ofSegments (segments key) = key := by
  rw [← String.toList_inj, ofSegments, segments, String.toList_intercalate, List.map_map]
  have plain : (String.toList ∘ String.ofList) = id := funext fun text => String.toList_ofList
  rw [plain, List.map_id, Text.pieces_eq_splitOn]
  exact List.intercalate_splitOn separator

theorem segments_ofSegments {segments : List String} (some : segments ≠ [])
    (plain : ∀ segment ∈ segments, IsSegment segment) :
    Key.segments (ofSegments segments) = segments := by
  have split : (ofSegments segments).toList.splitOn separator = segments.map String.toList := by
    rw [ofSegments, String.toList_intercalate]
    apply List.splitOn_intercalate separator
    · intro text member
      obtain ⟨segment, listed, rfl⟩ := List.mem_map.mp member
      exact plain segment listed
    · simpa using some
  rw [Key.segments, Text.pieces_eq_splitOn, split, List.map_map]
  have same : (String.ofList ∘ String.toList) = id := funext fun text => String.ofList_toList
  rw [same, List.map_id]

theorem isSegment_of_mem_segments {key segment : String} (member : segment ∈ segments key) :
    IsSegment segment := by
  rw [segments, Text.pieces_eq_splitOn] at member
  obtain ⟨text, listed, rfl⟩ := List.mem_map.mp member
  rw [IsSegment, String.toList_ofList]
  exact Text.not_mem_of_mem_splitOn listed

theorem ofSegments_cons {segment : String} {rest : List String} (some : rest ≠ []) :
    ofSegments (segment :: rest) = segment ++ "." ++ ofSegments rest :=
  String.intercalate_cons_of_ne_nil some

theorem ofSegments_append {front back : List String} (some : front ≠ []) (more : back ≠ []) :
    ofSegments (front ++ back) = ofSegments front ++ "." ++ ofSegments back :=
  String.intercalate_append_of_ne_nil some more

theorem segments_append (front back : String) :
    segments (front ++ "." ++ back) = segments front ++ segments back := by
  have whole : front ++ "." ++ back = ofSegments (segments front ++ segments back) := by
    rw [ofSegments_append (segments_ne_nil front) (segments_ne_nil back), ofSegments_segments,
      ofSegments_segments]
  rw [whole, segments_ofSegments]
  · simp [segments_ne_nil]
  · intro segment member
    rcases List.mem_append.mp member with before | after
    · exact isSegment_of_mem_segments before
    · exact isSegment_of_mem_segments after

@[simp]
theorem ofSegments_singleton (segment : String) : ofSegments [segment] = segment :=
  String.intercalate_singleton

theorem join_of_ne_empty {parent : String} (some : parent ≠ "") (segment : String) :
    join parent segment = ofSegments [parent, segment] := by
  rw [ofSegments_cons (by simp), ofSegments_singleton]
  simp [join, some]

theorem ofSegments_ne_empty {first : String} (some : first ≠ "") (rest : List String) :
    ofSegments (first :: rest) ≠ "" := by
  cases rest with
  | nil => simpa using some
  | cons segment rest =>
      rw [ofSegments_cons (by simp)]
      intro empty
      have texts := congrArg String.toList empty
      simp at texts

theorem foldl_join {first : String} (some : first ≠ "") (front back : List String) :
    back.foldl join (ofSegments (first :: front)) = ofSegments (first :: (front ++ back)) := by
  induction back generalizing front with
  | nil => simp
  | cons segment rest ih =>
      have joined : join (ofSegments (first :: front)) segment =
          ofSegments (first :: (front ++ [segment])) := by
        rw [join_of_ne_empty (ofSegments_ne_empty some front), ← List.cons_append,
          ofSegments_append (by simp) (by simp), ofSegments_cons (by simp)]
      rw [List.foldl_cons, joined, ih]
      simp

def weight (key : String) : Nat :=
  (segments key).countP fun segment => !segment.isEmpty

theorem weight_le_length (key : String) : weight key ≤ (segments key).length :=
  List.countP_le_length

end Key

end WordTemplate
