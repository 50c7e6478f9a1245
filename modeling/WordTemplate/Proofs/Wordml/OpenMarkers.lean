import Mathlib.Logic.Relation
import WordTemplate.Proofs.Placeholder.Rekeying
import WordTemplate.Wordml.Runs

/-! Markers that a text leaves open. Behind a text that leaves none open another text is cut as if it stood
alone, and its placeholders are further on by the length of the first text; where a marker is left open, a
placeholder may come to light. -/

namespace WordTemplate

namespace Wordml

theorem opensFrom_plain (depth : Nat) {c : Char} (opening : c ≠ '{') (closing : c ≠ '}')
    (rest : List Char) : opensFrom depth (c :: rest) = opensFrom depth rest := by
  rw [opensFrom]
  all_goals simp [opening, closing]

theorem opensFrom_closing_append (depth : Nat) {text : List Char} (other : text.head? ≠ some '}') :
    opensFrom depth ('}' :: text) = opensFrom depth text := by
  rw [opensFrom]
  · simp
  · simp
  · rintro rest - rfl
    simp at other

theorem opensFrom_closing (text : List Char) : opensFrom 0 ('}' :: text) = opensFrom 0 text := by
  induction text with
  | nil => rfl
  | cons c rest ih =>
      by_cases more : c = '}'
      · subst more
        rw [ih, opensFrom]
      · exact opensFrom_closing_append 0 (by simpa using more)

theorem opensFrom_append {depth : Nat} {front : List Char} (closed : opensFrom depth front = false)
    (back : List Char) : opensFrom depth (front ++ back) = opensFrom 0 back := by
  induction depth, front using opensFrom.induct with
  | case1 depth =>
      obtain rfl : depth = 0 := by simpa [opensFrom] using closed
      rfl
  | case2 depth => simp [opensFrom] at closed
  | case3 depth rest ih =>
      rw [opensFrom] at closed
      rw [List.cons_append, List.cons_append, opensFrom, ih closed]
  | case4 depth rest ih =>
      rw [opensFrom] at closed
      rw [List.cons_append, List.cons_append, opensFrom, ih closed]
  | case5 depth c rest notLast notOpening notClosing ih =>
      rw [opensFrom.eq_5 _ _ _ notLast notOpening notClosing] at closed
      cases rest with
      | nil =>
          obtain rfl : depth = 0 := by simpa [opensFrom] using closed
          have other : c ≠ '{' := fun same => notLast same rfl
          by_cases closing : c = '}'
          · subst closing
            exact opensFrom_closing back
          · exact opensFrom_plain 0 other closing back
      | cons d rest =>
          rw [List.cons_append, opensFrom.eq_5, ih closed]
          · intro _ none
            simp at none
          · rintro tail same next
            exact notOpening rest same (by rw [(List.cons.inj next).1])
          · rintro tail same next
            exact notClosing rest same (by rw [(List.cons.inj next).1])

/-- A text that begins with an opening brace and leaves a marker open, read at any depth and with one
more brace before it. -/
structure Opens (text : List Char) : Prop where
  start : text.head? = some '{'
  alone : ∀ depth, opensFrom depth text = true
  behind : ∀ depth, opensFrom depth ('{' :: text) = true

theorem Opens.append {text : List Char} (opens : Opens text) (depth : Nat) (front : List Char) :
    opensFrom depth (front ++ text) = true := by
  induction depth, front using opensFrom.induct with
  | case1 depth => exact opens.alone depth
  | case2 depth => exact opens.behind depth
  | case3 depth rest ih => rwa [List.cons_append, List.cons_append, opensFrom]
  | case4 depth rest ih => rwa [List.cons_append, List.cons_append, opensFrom]
  | case5 depth c rest notLast notOpening notClosing ih =>
      rw [List.cons_append, opensFrom.eq_5]
      · exact ih
      · intro same none
        exact notLast same (List.append_eq_nil_iff.mp none).1
      · rintro tail same next
        cases rest with
        | nil => exact notLast same rfl
        | cons d rest => exact notOpening rest same (by rw [(List.cons.inj next).1])
      · rintro tail same next
        cases rest with
        | nil =>
            have start := opens.start
            rw [List.nil_append] at next
            rw [next] at start
            simp at start
        | cons d rest => exact notClosing rest same (by rw [(List.cons.inj next).1])

theorem opens_brace : Opens ['{'] :=
  ⟨rfl, fun _ => rfl, fun depth => by simp [opensFrom]⟩

/-- Two opening braces with a body behind them, and at most one closing brace. -/
theorem opens_marker {body tail : List Char} (plain : ∀ c ∈ body, Piece.isBrace c = false)
    (ending : tail = [] ∨ tail = ['}']) : Opens ('{' :: '{' :: body ++ tail) := by
  have deeper : ∀ depth, opensFrom (depth + 1) (body ++ tail) = true := by
    intro depth
    induction body with
    | nil =>
        rcases ending with rfl | rfl
        · simp [opensFrom]
        · simp [opensFrom]
    | cons c body ih =>
        have other := plain c (by simp)
        simp only [Piece.isBrace, Bool.or_eq_false_iff, decide_eq_false_iff_not] at other
        rw [List.cons_append, opensFrom_plain _ other.1 other.2]
        exact ih fun d member => plain d (List.mem_cons_of_mem _ member)
  refine ⟨rfl, fun depth => ?_, fun depth => ?_⟩
  · rw [List.cons_append, List.cons_append, opensFrom, deeper]
  · rw [List.cons_append, List.cons_append, opensFrom]
    cases whole : body ++ tail with
    | nil => rfl
    | cons c rest =>
        have inside := deeper depth
        rw [whole] at inside
        rw [opensFrom.eq_5]
        · exact inside
        · simp
        · rintro more - next
          have brace : '{' ∈ body ++ tail := by
            rw [whole, next]
            simp
          rcases List.mem_append.mp brace with below | last
          · exact absurd (plain _ below) (by decide)
          · rcases ending with rfl | rfl <;> simp at last
        · simp

end Wordml

namespace Piece

def markers (text : List Char) : List Placeholder :=
  (split text).filterMap placeholder?

theorem markers_nil : markers [] = [] := by
  rw [markers, split_nil]
  rfl

theorem markers_literal {c : Char} {rest : List Char} (open_ : cutMarker? (c :: rest) = none) :
    markers (c :: rest) = markers rest := by
  rw [markers, split_literal open_]
  rfl

theorem markers_marker {body : List Char} (plain : ∀ c ∈ body, isBrace c = false)
    (after : List Char) :
    markers ('{' :: '{' :: body ++ '}' :: '}' :: after) =
      ((ofMarker body).placeholder?).toList ++ markers after := by
  rw [markers, split_marker plain, List.filterMap_cons, markers]
  cases (ofMarker body).placeholder? <;> rfl

theorem markers_append_of_no_opening {front : List Char} (plain : '{' ∉ front) (back : List Char) :
    markers (front ++ back) = markers back := by
  induction front with
  | nil => rfl
  | cons c front ih =>
      simp only [List.mem_cons, not_or] at plain
      have open_ : cutMarker? (c :: (front ++ back)) = none := by
        rw [cutMarker?]
        intro rest same
        exact plain.1 (List.cons.inj same).1.symm
      rw [List.cons_append, markers_literal open_, ih plain.2]

theorem sublist_markers_cons (c : Char) (text : List Char) :
    (markers text).Sublist (markers (c :: text)) := by
  cases cut : cutMarker? (c :: text) with
  | none => rw [markers_literal cut]
  | some found =>
      obtain ⟨body, after⟩ := found
      obtain ⟨whole, plain⟩ := cutMarker?_eq_some.mp cut
      have tail : text = '{' :: (body ++ ['}', '}'] ++ after) := by
        rw [(List.cons.inj whole).2]
        simp
      have noOpening : '{' ∉ body ++ ['}', '}'] := by
        intro member
        rcases List.mem_append.mp member with inside | last
        · exact absurd (plain _ inside) (by decide)
        · simp at last
      -- The brace that is left of the two begins no marker of its own.
      have open_ : cutMarker? ('{' :: (body ++ ['}', '}'] ++ after)) = none := by
        rw [cutMarker?]
        intro rest same
        have next : '{' ∈ (body ++ ['}', '}'] ++ after).head? := by
          rw [(List.cons.inj same).2]
          rfl
        cases body with
        | nil => simp at next
        | cons d body =>
            rw [List.cons_append, List.cons_append, List.head?_cons, Option.mem_some_iff] at next
            exact absurd (plain '{' (by simp [next])) (by decide)
      rw [whole, markers_marker plain, tail, markers_literal open_,
        markers_append_of_no_opening noOpening]
      exact List.sublist_append_right ..

theorem sublist_markers (front back : List Char) :
    (markers front ++ markers back).Sublist (markers (front ++ back)) := by
  have cuts := cuts_split front
  generalize split front = pieces at cuts
  induction cuts with
  | nil =>
      rw [markers_nil]
      exact List.Sublist.refl _
  | @marker body after pieces plain _ ih =>
      have whole : '{' :: '{' :: body ++ '}' :: '}' :: after ++ back =
          '{' :: '{' :: body ++ '}' :: '}' :: (after ++ back) := by simp
      rw [whole, markers_marker plain, markers_marker plain, List.append_assoc]
      exact ih.append_left _
  | literal open_ _ ih =>
      rw [markers_literal open_]
      exact ih.trans (sublist_markers_cons _ _)

/-- The beginning of a marker, of which some part is missing. -/
structure Unfinished (tail : List Char) : Prop where
  filled : tail ≠ []
  completed : ∃ body rest, Braceless body ∧ rest ≠ [] ∧ tail ++ rest = '{' :: '{' :: body ++ ['}', '}']

/-- Wherever a marker breaks off, between its opening braces, in its body or between its closing braces, it is
left open. -/
theorem Unfinished.opens {tail : List Char} (unfinished : Unfinished tail) : Wordml.Opens tail := by
  obtain ⟨filled, body, rest, plain, missing, whole⟩ := unfinished
  match tail with
  | [] => exact absurd rfl filled
  | [c] =>
      obtain ⟨rfl, -⟩ := List.cons.inj whole
      exact Wordml.opens_brace
  | c :: d :: inner =>
      simp only [List.cons_append, List.cons.injEq] at whole
      obtain ⟨rfl, rfl, parts⟩ := whole
      rcases List.append_eq_append_iff.mp parts with ⟨more, shorter, -⟩ | ⟨more, longer, ending⟩
      · have inside : Braceless inner := plain.subset (shorter ▸ List.subset_append_left ..)
        simpa using Wordml.opens_marker inside (.inl rfl)
      · have last : more = [] ∨ more = ['}'] := by
          rcases more with _ | ⟨e, _ | ⟨f, more⟩⟩
          · exact .inl rfl
          · obtain ⟨rfl, -⟩ := List.cons.inj ending
            exact .inr rfl
          · simp only [List.cons_append, List.cons.injEq, List.nil_eq, List.append_eq_nil_iff] at ending
            exact absurd ending.2.2.2 missing
        rw [longer]
        exact Wordml.opens_marker plain last

/-- A text that is judged complete ends with no unfinished marker. Nested braces may leave other texts open
too, such as two pairs of opening braces before a whole marker. -/
theorem not_unfinished_of_closed {text tail : List Char} (closed : Wordml.opensFrom 0 text = false)
    (ends : tail <:+ text) : ¬ Unfinished tail := by
  intro unfinished
  obtain ⟨before, rfl⟩ := ends
  rw [unfinished.opens.append] at closed
  exact absurd closed (by decide)

/-- A marker that comes to light at the start of a text only when more text follows is unfinished without it. -/
theorem unfinished_of_cutMarker? {text back body rest : List Char} (filled : text ≠ [])
    (open_ : cutMarker? text = none) (cut : cutMarker? (text ++ back) = some (body, rest)) :
    Unfinished text := by
  obtain ⟨whole, plain⟩ := cutMarker?_eq_some.mp cut
  have notWhole : ∀ later, text ≠ '{' :: '{' :: body ++ '}' :: '}' :: later := by
    intro later same
    rw [cutMarker?_eq_some.mpr ⟨same, plain⟩] at open_
    exact absurd open_ (by simp)
  have parts : text ++ back = '{' :: '{' :: body ++ ['}', '}'] ++ rest := by simp [whole]
  rcases List.append_eq_append_iff.mp parts with ⟨missing, marker, -⟩ | ⟨later, longer, -⟩
  · refine ⟨filled, body, missing, plain, ?_, marker.symm⟩
    rintro rfl
    exact notWhole [] (by simpa using marker.symm)
  · exact absurd (by simpa using longer) (notWhole later)

/-- Behind a text that ends with no unfinished marker another one is cut as if it stood alone. -/
theorem split_append_of_complete {front : List Char} (complete : ∀ tail, tail <:+ front → ¬ Unfinished tail)
    (back : List Char) : split (front ++ back) = split front ++ split back := by
  have cuts := cuts_split front
  generalize split front = pieces at cuts ⊢
  induction cuts with
  | nil => rfl
  | @marker body after pieces plain _ ih =>
      have whole : '{' :: '{' :: body ++ '}' :: '}' :: after ++ back =
          '{' :: '{' :: body ++ '}' :: '}' :: (after ++ back) := by simp
      have ends : after <:+ '{' :: '{' :: body ++ '}' :: '}' :: after :=
        ⟨'{' :: '{' :: body ++ ['}', '}'], by simp⟩
      rw [whole, split_marker plain, ih fun tail inside => complete tail (inside.trans ends),
        List.cons_append]
  | @literal c after pieces open_ _ ih =>
      -- A marker from here on would be unfinished at the end of the first text.
      have stays : cutMarker? (c :: (after ++ back)) = none := by
        cases cut : cutMarker? (c :: (after ++ back)) with
        | none => rfl
        | some found =>
            exact absurd (unfinished_of_cutMarker? (by simp) open_ cut) (complete _ List.suffix_rfl)
      have ends : after <:+ c :: after := List.suffix_cons c after
      rw [List.cons_append, split_literal stays, ih fun tail inside => complete tail (inside.trans ends),
        List.cons_append]

theorem Occurs.exists_pieces {text before body after : List Char} {pieces : List Piece}
    (cuts : Cuts text pieces) (occurs : Occurs text before body after) :
    ∃ front back, pieces = front ++ ofMarker body :: back ∧ sources front = before ∧
      sources back = after := by
  induction cuts generalizing before with
  | nil => exact absurd occurs not_occurs_nil
  | @marker first rest pieces plain cuts ih =>
      rcases (occurs_marker_iff plain).mp occurs with ⟨rfl, rfl, rfl⟩ | ⟨later, rfl, below⟩
      · exact ⟨[], pieces, rfl, rfl, cuts.sources_eq⟩
      · obtain ⟨front, back, rfl, starts, ends⟩ := ih below
        exact ⟨ofMarker first :: front, back, rfl, by rw [sources_cons, source_ofMarker, starts], ends⟩
  | @literal c rest pieces open_ _ ih =>
      obtain ⟨later, rfl, below⟩ := (occurs_literal_iff open_).mp occurs
      obtain ⟨front, back, rfl, starts, ends⟩ := ih below
      exact ⟨.literal [c] :: front, back, rfl, by rw [sources_cons, starts]; rfl, ends⟩

/-- Any other text may follow without a change of the pieces just when no unfinished marker stands at the
end. -/
theorem split_append_iff {front : List Char} :
    (∀ back, split (front ++ back) = split front ++ split back) ↔
      ∀ tail, tail <:+ front → ¬ Unfinished tail := by
  refine ⟨?_, split_append_of_complete⟩
  rintro parts tail ⟨before, rfl⟩ unfinished
  obtain ⟨body, rest, plain, some, completed⟩ := unfinished.completed
  have occurs : Occurs (before ++ tail ++ rest) before body [] :=
    ⟨by rw [List.append_assoc, completed], plain⟩
  obtain ⟨front, back, same, starts, -⟩ := occurs.exists_pieces (cuts_split _)
  have whole : sources (split (before ++ tail)) = sources front ++ tail := by rw [sources_split, starts]
  -- The first text would have to end before the completed marker or behind it.
  rw [parts] at same
  rcases List.append_eq_append_iff.mp same with ⟨more, longer, -⟩ | ⟨_ | ⟨piece, more⟩, shorter, ending⟩
  · rw [longer, sources_append, List.append_assoc, List.self_eq_append_right] at whole
    exact unfinished.filled (List.append_eq_nil_iff.mp whole).2
  · rw [shorter, List.append_nil, List.self_eq_append_right] at whole
    exact unfinished.filled whole
  · obtain ⟨rfl, -⟩ := List.cons.inj ending
    rw [shorter, sources_append, sources_cons, source_ofMarker, ← completed] at whole
    have inside := List.append_cancel_left whole
    rw [List.append_assoc, List.append_right_eq_self, List.append_eq_nil_iff] at inside
    exact some inside.1

theorem split_append_of_closed {front : List Char} (closed : Wordml.opensFrom 0 front = false)
    (back : List Char) : split (front ++ back) = split front ++ split back :=
  split_append_iff.mpr (fun _ => not_unfinished_of_closed closed) back

/-- Behind a text that leaves no marker open, the placeholders are found as if it were not there. -/
theorem markers_append {front back : List Char} (closed : Wordml.opensFrom 0 front = false) :
    markers (front ++ back) = markers front ++ markers back := by
  rw [markers, split_append_of_closed closed, List.filterMap_append, markers, markers]

end Piece

namespace Placeholder

/-- Behind a text that leaves no marker open, a text has the placeholders that it has alone, further on by as
many bytes as the first text takes. -/
theorem spans_append {first : String} (closed : Wordml.hasOpenMarker first = false) (second : String) :
    spans (first ++ second) = spans first ++ (spans second).map (Piece.shifted first.utf8ByteSize) := by
  have parts := Piece.split_append_of_closed closed second.toList
  have length : 0 + Text.byteLength (Piece.sources (Piece.split first.toList)) = first.utf8ByteSize := by
    rw [Nat.zero_add, Piece.sources_split, Text.byteLength_toList]
  calc spans (first ++ second)
      = Piece.spansFrom 0 (Piece.split first.toList ++ Piece.split second.toList) := by
        rw [spans, Piece.ofText, String.toList_append, parts]
    _ = spans first ++ Piece.spansFrom first.utf8ByteSize (Piece.split second.toList) := by
        rw [Piece.spansFrom_append, length]
        rfl
    _ = spans first ++ (spans second).map (Piece.shifted first.utf8ByteSize) := by
        rw [Piece.spansFrom_eq_shifted]
        rfl

/-- Closing braces stray before the first marker and on both sides of the cut, and an opening one stands before
the marker's own; the letter in front takes two bytes. -/
theorem spans_append_stray :
    let first := "é\x7d\x7d\x7b\x7b\x7bA\x7d\x7d\x7d"
    let second := "\x7d\x7b\x7bB\x7d\x7d"
    Wordml.hasOpenMarker first = false ∧
      spans (first ++ second) = spans first ++ (spans second).map (Piece.shifted first.utf8ByteSize) ∧
      spans first = [(5, 10, ⟨false, "A", "", none, []⟩)] ∧
      spans (first ++ second) =
        [(5, 10, ⟨false, "A", "", none, []⟩), (12, 17, ⟨false, "B", "", none, []⟩)] := by
  intro first second
  have closed : Wordml.hasOpenMarker first = false := by decide +kernel
  exact ⟨closed, spans_append closed second, by decide +kernel, by decide +kernel⟩

end Placeholder

end WordTemplate
