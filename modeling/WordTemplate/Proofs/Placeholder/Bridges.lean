import WordTemplate.Proofs.Placeholder.Spans
import WordTemplate.Proofs.Wordml.OpenMarkers

/-! Lines that are scanned as one text. All placeholders of the single lines are found, and one more for
each line in which a placeholder begins that ends behind the line feed. -/

namespace WordTemplate

namespace Piece

/-- A placeholder begins in a text and ends behind the line feed that follows the text. -/
def Bridges (front back : List Char) : Prop :=
  ∃ before opened closed after, front = before ++ '{' :: '{' :: opened ∧
    back = closed ++ '}' :: '}' :: after ∧ Braceless (opened ++ '\n' :: closed) ∧
    (Placeholder.ofBody? (opened ++ '\n' :: closed)).isSome

theorem Bridges.append {front back : List Char} (bridges : Bridges front back)
    (stretch : List Char) : Bridges (stretch ++ front) back := by
  obtain ⟨before, opened, closed, after, rfl, ends⟩ := bridges
  exact ⟨stretch ++ before, opened, closed, after, (List.append_assoc ..).symm, ends⟩

theorem placeholder?_ofMarker (body : List Char) :
    (ofMarker body).placeholder? = Placeholder.ofBody? body := by
  rw [ofMarker]
  cases Placeholder.ofBody? body <;> rfl

theorem exists_of_append_closing {front tail before rest : List Char} (none : '}' ∉ tail)
    (same : front ++ tail = before ++ '}' :: rest) : ∃ later, front = before ++ '}' :: later := by
  rcases List.append_eq_append_iff.mp same with ⟨more, -, ends⟩ | ⟨more, whole, ends⟩
  · exact absurd (ends ▸ by simp) none
  · cases more with
    | nil =>
        rw [List.nil_append] at ends
        exact absurd (ends ▸ by simp) none
    | cons c later =>
        obtain ⟨rfl, -⟩ := List.cons.inj ends
        exact ⟨later, whole⟩

theorem cutMarker?_append_of_no_closing {front tail : List Char} (none : '}' ∉ tail)
    (open_ : cutMarker? front = .none) : cutMarker? (front ++ tail) = .none := by
  cases cut : cutMarker? (front ++ tail) with
  | none => rfl
  | some found =>
      obtain ⟨body, after⟩ := found
      obtain ⟨whole, plain⟩ := cutMarker?_eq_some.mp cut
      have split : front ++ tail = ('{' :: '{' :: body ++ ['}']) ++ '}' :: after := by simp [whole]
      obtain ⟨later, same⟩ := exists_of_append_closing none split
      rw [cutMarker?_eq_some.mpr ⟨by simpa using same, plain⟩] at open_
      exact absurd open_ (by simp)

theorem markers_append_of_no_closing (front : List Char) {tail : List Char} (none : '}' ∉ tail) :
    markers (front ++ tail) = markers front := by
  have cuts := cuts_split front
  generalize split front = pieces at cuts
  induction cuts with
  | nil =>
      rw [markers_nil, List.nil_append]
      induction tail with
      | nil => exact markers_nil
      | cons c tail ih =>
          have open_ : cutMarker? ([] ++ c :: tail) = .none := cutMarker?_append_of_no_closing none rfl
          rw [markers_literal open_]
          exact ih fun member => none (List.mem_cons_of_mem _ member)
  | @marker body after pieces plain _ ih =>
      have whole : '{' :: '{' :: body ++ '}' :: '}' :: after ++ tail =
          '{' :: '{' :: body ++ '}' :: '}' :: (after ++ tail) := by simp
      rw [whole, markers_marker plain, markers_marker plain, ih]
  | literal open_ _ ih =>
      have still := cutMarker?_append_of_no_closing none open_
      rw [List.cons_append] at still ⊢
      rw [markers_literal still, markers_literal open_, ih]

theorem not_mem_closing_opened {opened : List Char} (plain : Braceless opened) :
    '}' ∉ '{' :: '{' :: opened := by
  intro member
  simp only [List.mem_cons, Char.reduceEq, false_or] at member
  exact absurd (plain _ member) (by decide)

theorem not_mem_opening_closed {closed : List Char} (plain : Braceless closed) :
    '{' ∉ closed ++ ['}', '}'] := by
  intro member
  simp only [List.mem_append, List.mem_cons, Char.reduceEq, List.not_mem_nil, or_false] at member
  exact absurd (plain _ member) (by decide)

theorem markers_torn {opened closed : List Char} (plain : Braceless (opened ++ '\n' :: closed))
    (before after : List Char) :
    markers (before ++ '{' :: '{' :: opened) ++ markers (closed ++ '}' :: '}' :: after) =
      markers before ++ markers after := by
  have first : Braceless opened := fun c member => plain c (by simp [member])
  have second : Braceless closed := fun c member => plain c (by simp [member])
  have split : closed ++ '}' :: '}' :: after = (closed ++ ['}', '}']) ++ after := by simp
  rw [markers_append_of_no_closing before (not_mem_closing_opened first), split,
    markers_append_of_no_opening (not_mem_opening_closed second)]

/-- A placeholder more is found where a line is bridged. -/
theorem length_lt_of_bridges {front back : List Char} (bridges : Bridges front back) :
    (markers front ++ markers back).length < (markers (front ++ '\n' :: back)).length := by
  obtain ⟨before, opened, closed, after, rfl, rfl, plain, reads⟩ := bridges
  obtain ⟨placeholder, read⟩ := Option.isSome_iff_exists.mp reads
  have whole : before ++ '{' :: '{' :: opened ++ '\n' :: (closed ++ '}' :: '}' :: after) =
      before ++ ('{' :: '{' :: (opened ++ '\n' :: closed) ++ '}' :: '}' :: after) := by simp
  have found := (sublist_markers before
    ('{' :: '{' :: (opened ++ '\n' :: closed) ++ '}' :: '}' :: after)).length_le
  rw [markers_marker plain, placeholder?_ofMarker, read] at found
  rw [markers_torn plain before after, whole]
  simp only [List.length_append, Option.toList_some, List.length_cons, List.length_nil] at found ⊢
  omega

theorem exists_torn {front back body rest : List Char} (open_ : cutMarker? front = none)
    (whole : front ++ '\n' :: back = '{' :: '{' :: body ++ '}' :: '}' :: rest)
    (plain : Braceless body) :
    ∃ opened closed, front = '{' :: '{' :: opened ∧ body = opened ++ '\n' :: closed ∧
      back = closed ++ '}' :: '}' :: rest := by
  have notWhole : ∀ more, front ≠ '{' :: '{' :: body ++ '}' :: '}' :: more := by
    rintro more rfl
    rw [cutMarker?_eq_some.mpr ⟨rfl, plain⟩] at open_
    exact absurd open_ (by simp)
  match front with
  | [] => simp at whole
  | [c] => simp at whole
  | c :: d :: opened =>
      simp only [List.cons_append, List.cons.injEq] at whole
      obtain ⟨rfl, rfl, whole⟩ := whole
      rcases List.append_eq_append_iff.mp whole with ⟨more, same, ends⟩ | ⟨more, rfl, ends⟩
      · cases more with
        | nil => simp at ends
        | cons c closed =>
            obtain ⟨rfl, after⟩ := List.cons.inj ends
            exact ⟨opened, closed, rfl, same, after⟩
      · match more with
        | [] => simp at ends
        | [c] => simp at ends
        | c :: d :: more =>
            simp only [List.cons_append, List.cons.injEq] at ends
            obtain ⟨rfl, rfl, -⟩ := ends
            exact absurd rfl (notWhole more)

theorem markers_join {front back : List Char} (apart : ¬ Bridges front back) :
    markers (front ++ '\n' :: back) = markers front ++ markers back := by
  have cuts := cuts_split front
  generalize split front = pieces at cuts
  induction cuts with
  | nil =>
      rw [markers_nil, List.nil_append, List.nil_append, markers_literal]
      rfl
  | @marker body after pieces plain _ ih =>
      have whole : '{' :: '{' :: body ++ '}' :: '}' :: after ++ '\n' :: back =
          '{' :: '{' :: body ++ '}' :: '}' :: (after ++ '\n' :: back) := by simp
      rw [whole, markers_marker plain, markers_marker plain, ih, List.append_assoc]
      intro bridges
      have longer := bridges.append ('{' :: '{' :: body ++ ['}', '}'])
      exact apart (by simpa using longer)
  | @literal c after pieces open_ _ ih =>
      cases cut : cutMarker? (c :: (after ++ '\n' :: back)) with
      | none =>
          rw [List.cons_append, markers_literal cut, markers_literal open_]
          exact ih fun bridges => apart (bridges.append [c])
      | some found =>
          obtain ⟨body, rest⟩ := found
          obtain ⟨whole, plain⟩ := cutMarker?_eq_some.mp cut
          obtain ⟨opened, closed, front, rfl, rfl⟩ := exists_torn open_ whole plain
          have unread : Placeholder.ofBody? (opened ++ '\n' :: closed) = none := by
            by_contra reads
            refine apart ⟨[], opened, closed, rest, front, rfl, plain, ?_⟩
            exact Option.isSome_iff_ne_none.mpr reads
          have torn := markers_torn plain [] rest
          rw [List.nil_append, markers_nil, List.nil_append] at torn
          rw [List.cons_append, whole, markers_marker plain, placeholder?_ofMarker, unread, front,
            torn]
          rfl

end Piece

namespace Placeholder

theorem scan_eq_markers (text : String) : scan text = Piece.markers text.toList := rfl

theorem scan_cons_intercalate (line next : String) (rest : List String) :
    scan ("\n".intercalate (line :: next :: rest)) =
      Piece.markers (line.toList ++ '\n' :: ("\n".intercalate (next :: rest)).toList) := by
  rw [String.intercalate_cons_cons, scan_eq_markers, String.toList_append, String.toList_append,
    List.append_assoc]
  rfl

theorem sublist_scan_intercalate (lines : List String) :
    (lines.flatMap scan).Sublist (scan ("\n".intercalate lines)) := by
  induction lines with
  | nil => exact List.nil_sublist _
  | cons line rest ih =>
      cases rest with
      | nil => simp
      | cons next rest =>
          rw [scan_cons_intercalate, List.flatMap_cons]
          have lineFeed := Piece.sublist_markers_cons '\n' ("\n".intercalate (next :: rest)).toList
          exact ((ih.trans lineFeed).append_left (scan line)).trans (Piece.sublist_markers _ _)

/-- Lines that are scanned as one text give the placeholders of the lines and no other one exactly when no
placeholder reaches from a line into those that follow it. -/
theorem length_scan_intercalate_iff (lines : List String) :
    (scan ("\n".intercalate lines)).length = (lines.flatMap scan).length ↔
      ∀ line rest, line :: rest <:+ lines →
        ¬ Piece.Bridges line.toList ("\n".intercalate rest).toList := by
  induction lines with
  | nil => simp [scan, Piece.ofText, Piece.split_nil]
  | cons line rest ih =>
      have forwards : (∀ first others, first :: others <:+ line :: rest →
          ¬ Piece.Bridges first.toList ("\n".intercalate others).toList) ↔
          ¬ Piece.Bridges line.toList ("\n".intercalate rest).toList ∧
            ∀ first others, first :: others <:+ rest →
              ¬ Piece.Bridges first.toList ("\n".intercalate others).toList := by
        simp only [List.suffix_cons_iff, List.cons.injEq]
        constructor
        · exact fun all => ⟨all line rest (.inl ⟨rfl, rfl⟩),
            fun first others behind => all first others (.inr behind)⟩
        · rintro ⟨here, later⟩ first others (⟨rfl, rfl⟩ | behind)
          · exact here
          · exact later first others behind
      rw [forwards, ← ih]
      cases rest with
      | nil =>
          refine iff_of_true (by simp) ⟨?_, by simp [scan, Piece.ofText, Piece.split_nil]⟩
          rintro ⟨before, opened, closed, after, -, ends, -⟩
          simp at ends
      | cons next rest =>
          have later := (sublist_scan_intercalate (next :: rest)).length_le
          rw [scan_cons_intercalate, List.flatMap_cons, List.length_append, scan_eq_markers line]
          rw [scan_eq_markers] at later ⊢
          by_cases bridges : Piece.Bridges line.toList ("\n".intercalate (next :: rest)).toList
          · have more := Piece.length_lt_of_bridges bridges
            rw [List.length_append] at more
            refine iff_of_false (fun equal => ?_) fun none => none.1 bridges
            omega
          · rw [Piece.markers_join bridges, List.length_append, Nat.add_left_cancel_iff]
            exact (and_iff_right bridges).symm

end Placeholder

end WordTemplate
