import WordTemplate.Proofs.Placeholder.Grammar

/-! Where placeholders stand. The spans of a text are those of all its markers whose bodies follow the
grammar, counted in bytes; no two markers share a character, so none of them hides another one. -/

namespace WordTemplate

namespace Text

@[simp]
theorem byteLength_append (front back : List Char) :
    byteLength (front ++ back) = byteLength front + byteLength back := by
  induction front with
  | nil => simp [byteLength]
  | cons c rest ih => rw [List.cons_append, byteLength, byteLength, ih, Nat.add_assoc]

theorem utf8ByteSize_ofList (text : List Char) : (String.ofList text).utf8ByteSize = byteLength text := by
  induction text with
  | nil => rfl
  | cons c rest ih =>
      have whole : String.ofList (c :: rest) = String.singleton c ++ String.ofList rest := by
        rw [← String.toList_inj]
        simp
      rw [whole, String.utf8ByteSize_append, String.utf8ByteSize_singleton, ih, byteLength]

theorem byteLength_toList (text : String) : byteLength text.toList = text.utf8ByteSize := by
  rw [← utf8ByteSize_ofList, String.ofList_toList]

theorem byteLength_eq_zero_iff {text : List Char} : byteLength text = 0 ↔ text = [] := by
  cases text with
  | nil => simp [byteLength]
  | cons c rest =>
      have size := c.utf8Size_pos
      simp only [byteLength, reduceCtorEq, iff_false]
      omega

theorem append_inj_of_byteLength {front back other rest : List Char}
    (same : front ++ back = other ++ rest) (size : byteLength front = byteLength other) :
    front = other ∧ back = rest := by
  rcases List.append_eq_append_iff.mp same with ⟨more, rfl, rfl⟩ | ⟨more, rfl, rfl⟩
  · have empty : more = [] := byteLength_eq_zero_iff.mp (by rw [byteLength_append] at size; omega)
    simp [empty]
  · have empty : more = [] := byteLength_eq_zero_iff.mp (by rw [byteLength_append] at size; omega)
    simp [empty]

end Text

namespace Piece

/-- A marker in a text, between what stands before and behind it. -/
structure Occurs (text before body after : List Char) : Prop where
  whole : text = before ++ ('{' :: '{' :: body ++ '}' :: '}' :: after)
  plain : Braceless body

theorem not_occurs_nil {before body after : List Char} : ¬ Occurs [] before body after := by
  rintro ⟨whole, -⟩
  simp at whole

theorem occurs_literal_iff {c : Char} {rest before body after : List Char}
    (open_ : cutMarker? (c :: rest) = none) :
    Occurs (c :: rest) before body after ↔ ∃ later, before = c :: later ∧ Occurs rest later body after := by
  constructor
  · rintro ⟨whole, plain⟩
    cases before with
    | nil =>
        rw [cutMarker?_eq_some.mpr ⟨whole, plain⟩] at open_
        exact absurd open_ (by simp)
    | cons d later =>
        obtain ⟨rfl, below⟩ := List.cons.inj whole
        exact ⟨later, rfl, below, plain⟩
  · rintro ⟨later, rfl, rfl, plain⟩
    exact ⟨rfl, plain⟩

theorem exists_of_append_opening {stretch rest before tail : List Char} (none : ∀ c ∈ stretch, c ≠ '{')
    (same : stretch ++ rest = before ++ '{' :: tail) :
    ∃ later, before = stretch ++ later ∧ rest = later ++ '{' :: tail := by
  rcases List.append_eq_append_iff.mp same with ⟨later, whole, below⟩ | ⟨inside, whole, below⟩
  · exact ⟨later, whole, below⟩
  · cases inside with
    | nil => exact ⟨[], by simpa using whole.symm, by simpa using below.symm⟩
    | cons c others =>
        obtain ⟨rfl, -⟩ := List.cons.inj below
        exact absurd rfl (none '{' (by simp [whole]))

/-- In a text that starts with a marker, the other markers stand behind it. -/
theorem occurs_marker_iff {first rest before body after : List Char} (plain : Braceless first) :
    Occurs ('{' :: '{' :: first ++ '}' :: '}' :: rest) before body after ↔
      (before = [] ∧ body = first ∧ after = rest) ∨
        ∃ later, before = '{' :: '{' :: first ++ ['}', '}'] ++ later ∧ Occurs rest later body after := by
  have none : ∀ c ∈ first ++ ['}', '}'], c ≠ '{' := by
    intro c member
    rcases List.mem_append.mp member with inside | closing
    · exact Placeholder.ne_opening_of_plain (plain c inside)
    · rintro rfl
      simp at closing
  have split : first ++ '}' :: '}' :: rest = (first ++ ['}', '}']) ++ rest := by simp
  constructor
  · rintro ⟨whole, other⟩
    match before with
    | [] =>
        have cut := cutMarker?_eq_some.mpr ⟨whole, other⟩
        rw [cutMarker?_eq_some.mpr ⟨rfl, plain⟩, Option.some.injEq, Prod.mk.injEq] at cut
        exact .inl ⟨rfl, cut.1.symm, cut.2.symm⟩
    | [c] =>
        -- One brace further on, the body of the first marker would have to start with a brace.
        simp only [List.cons_append, List.nil_append, List.cons.injEq, true_and] at whole
        rw [split] at whole
        obtain ⟨later, empty, -⟩ := exists_of_append_opening none (whole.2.trans (List.nil_append _).symm)
        simp at empty
    | c :: d :: others =>
        simp only [List.cons_append, List.cons.injEq] at whole
        obtain ⟨rfl, rfl, below⟩ := whole
        rw [split] at below
        obtain ⟨later, rfl, tail⟩ := exists_of_append_opening none below
        exact .inr ⟨later, by simp, tail, other⟩
  · rintro (⟨rfl, rfl, rfl⟩ | ⟨later, rfl, rfl, other⟩)
    · exact ⟨rfl, plain⟩
    · exact ⟨by simp, other⟩

theorem spansFrom_ofMarker (start : Nat) (body : List Char) (rest : List Piece) :
    spansFrom start (ofMarker body :: rest) =
      let stop := start + Text.byteLength ('{' :: '{' :: body ++ ['}', '}'])
      ((Placeholder.ofBody? body).map fun placeholder => (start, stop, placeholder)).toList ++
        spansFrom stop rest := by
  have same := source_ofMarker body
  rw [ofMarker] at same ⊢
  cases read : Placeholder.ofBody? body with
  | none =>
      rw [read] at same
      simp only [spansFrom, same, Option.map_none, Option.toList_none, List.nil_append]
  | some placeholder =>
      rw [read] at same
      simp only [spansFrom, same, Option.map_some, Option.toList_some, List.singleton_append]

/-- Counted from a number of bytes on, the spans are those of the markers that read as placeholders. -/
theorem mem_spansFrom_iff {text : List Char} {pieces : List Piece} (cuts : Cuts text pieces)
    {offset start stop : Nat} {placeholder : Placeholder} :
    (start, stop, placeholder) ∈ spansFrom offset pieces ↔
      ∃ before body after, Occurs text before body after ∧ Placeholder.ofBody? body = some placeholder ∧
        start = offset + Text.byteLength before ∧
        stop = start + Text.byteLength ('{' :: '{' :: body ++ ['}', '}']) := by
  induction cuts generalizing offset with
  | nil => simp [spansFrom, not_occurs_nil]
  | @marker first rest pieces plain _ ih =>
      rw [spansFrom_ofMarker, List.mem_append, ih]
      constructor
      · rintro (here | ⟨before, body, after, occurs, read, starts, stops⟩)
        · simp only [Option.mem_toList, Option.map_eq_some_iff, Prod.mk.injEq] at here
          obtain ⟨found, read, rfl, rfl, rfl⟩ := here
          have here : Occurs ('{' :: '{' :: first ++ '}' :: '}' :: rest) [] first rest := ⟨rfl, plain⟩
          exact ⟨[], first, rest, here, read, by simp [Text.byteLength], rfl⟩
        · have behind := (occurs_marker_iff plain).mpr (.inr ⟨before, rfl, occurs⟩)
          refine ⟨_, body, after, behind, read, ?_, stops⟩
          rw [starts, Nat.add_assoc, ← Text.byteLength_append]
      · rintro ⟨before, body, after, occurs, read, starts, stops⟩
        rcases (occurs_marker_iff plain).mp occurs with ⟨rfl, rfl, rfl⟩ | ⟨later, rfl, below⟩
        · refine .inl ?_
          rw [starts] at stops
          simp [read, starts, stops, Text.byteLength]
        · refine .inr ⟨later, body, after, below, read, ?_, stops⟩
          rw [starts, Text.byteLength_append, Nat.add_assoc]
  | @literal c rest pieces open_ _ ih =>
      rw [spansFrom, ih]
      constructor
      · rintro ⟨before, body, after, occurs, read, starts, stops⟩
        have behind := (occurs_literal_iff open_).mpr ⟨before, rfl, occurs⟩
        refine ⟨c :: before, body, after, behind, read, ?_, stops⟩
        simpa [source, Text.byteLength, Nat.add_assoc] using starts
      · rintro ⟨before, body, after, occurs, read, starts, stops⟩
        obtain ⟨later, rfl, below⟩ := (occurs_literal_iff open_).mp occurs
        refine ⟨later, body, after, below, read, ?_, stops⟩
        simpa [source, Text.byteLength, Nat.add_assoc] using starts

theorem le_start_of_mem_spansFrom {pieces : List Piece} {offset : Nat} {span : Nat × Nat × Placeholder}
    (member : span ∈ spansFrom offset pieces) : offset ≤ span.1 := by
  induction pieces generalizing offset with
  | nil => simp [spansFrom] at member
  | cons piece rest ih =>
      cases piece with
      | literal text => exact Nat.le_trans (Nat.le_add_right ..) (ih member)
      | marker placeholder =>
          rcases List.mem_cons.mp member with rfl | later
          · exact Nat.le_refl _
          · exact Nat.le_trans (Nat.le_add_right ..) (ih later)

theorem pairwise_spansFrom (offset : Nat) (pieces : List Piece) :
    (spansFrom offset pieces).Pairwise fun first second => first.2.1 ≤ second.1 := by
  induction pieces generalizing offset with
  | nil => exact .nil
  | cons piece rest ih =>
      cases piece with
      | literal text => exact ih _
      | marker placeholder => exact .cons (fun _ member => le_start_of_mem_spansFrom member) (ih _)

theorem map_spansFrom (offset : Nat) (pieces : List Piece) :
    (spansFrom offset pieces).map (fun (_, _, placeholder) => placeholder) =
      pieces.filterMap placeholder? := by
  induction pieces generalizing offset with
  | nil => rfl
  | cons piece rest ih =>
      cases piece with
      | literal text => exact ih _
      | marker placeholder => simp only [spansFrom, List.map_cons, ih, placeholder?, List.filterMap_cons]

end Piece

namespace Placeholder

/-- The part of the text from one byte to another. -/
def LiesAt (text : String) (start stop : Nat) (part : String) : Prop :=
  ∃ before after, text = before ++ part ++ after ∧ start = before.utf8ByteSize ∧
    stop = start + part.utf8ByteSize

/-- From one byte of the text to another stands a marker whose body follows the grammar. -/
def MarkerAt (text : String) (start stop : Nat) (placeholder : Placeholder) : Prop :=
  ∃ body, LiesAt text start stop ("\x7b\x7b" ++ body ++ "\x7d\x7d") ∧ Braceless body.toList ∧
    Reads body.toList placeholder

theorem liesAt_iff {text part : String} {start stop : Nat} :
    LiesAt text start stop part ↔ ∃ before after, text.toList = before ++ part.toList ++ after ∧
      start = Text.byteLength before ∧ stop = start + Text.byteLength part.toList := by
  constructor
  · rintro ⟨before, after, rfl, rfl, rfl⟩
    refine ⟨before.toList, after.toList, by simp, ?_, ?_⟩
    · rw [Text.byteLength_toList]
    · rw [Text.byteLength_toList]
  · rintro ⟨before, after, whole, rfl, rfl⟩
    refine ⟨String.ofList before, String.ofList after, ?_, (Text.utf8ByteSize_ofList before).symm, ?_⟩
    · rw [← String.toList_inj, whole]
      simp
    · rw [Text.byteLength_toList]

theorem LiesAt.unique {text part other : String} {start stop : Nat} (lies : LiesAt text start stop part)
    (again : LiesAt text start stop other) : part = other := by
  obtain ⟨before, after, whole, rfl, rfl⟩ := liesAt_iff.mp lies
  obtain ⟨front, back, same, starts, stops⟩ := liesAt_iff.mp again
  rw [whole, List.append_assoc, List.append_assoc] at same
  obtain ⟨-, below⟩ := Text.append_inj_of_byteLength same starts
  obtain ⟨equal, -⟩ := Text.append_inj_of_byteLength below (Nat.add_left_cancel stops)
  exact String.toList_inj.mp equal

theorem toList_braced (body : String) :
    ("\x7b\x7b" ++ body ++ "\x7d\x7d").toList = '{' :: '{' :: body.toList ++ ['}', '}'] := by
  simp

theorem mem_spans_iff {text : String} {start stop : Nat} {placeholder : Placeholder} :
    (start, stop, placeholder) ∈ spans text ↔ MarkerAt text start stop placeholder := by
  rw [spans, Piece.ofText, Piece.mem_spansFrom_iff (Piece.cuts_split text.toList), MarkerAt]
  constructor
  · rintro ⟨before, body, after, ⟨whole, plain⟩, read, starts, stops⟩
    have written : body = (String.ofList body).toList := String.toList_ofList.symm
    rw [written] at whole plain read stops
    refine ⟨String.ofList body, liesAt_iff.mpr ⟨before, after, ?_, ?_, ?_⟩, plain,
      ofBody?_eq_some_iff.mp read⟩
    · rw [whole, toList_braced]
      simp
    · rw [starts, Nat.zero_add]
    · rw [stops, toList_braced]
  · rintro ⟨body, lies, plain, reads⟩
    obtain ⟨before, after, whole, starts, stops⟩ := liesAt_iff.mp lies
    rw [toList_braced] at whole stops
    refine ⟨before, body.toList, after, ⟨?_, plain⟩, ofBody?_eq_some_iff.mpr reads, ?_, stops⟩
    · rw [whole]
      simp
    · rw [starts, Nat.zero_add]

theorem Reads.braced_eq {body : String} {placeholder : Placeholder} (reads : Reads body.toList placeholder) :
    "\x7b\x7b" ++ body ++ "\x7d\x7d" = placeholder.withKey placeholder.key := by
  have same := toList_source placeholder
  rw [reads.whole, ← toList_braced, String.toList_inj] at same
  exact same.symm

theorem MarkerAt.liesAt {text : String} {start stop : Nat} {placeholder : Placeholder}
    (marker : MarkerAt text start stop placeholder) :
    LiesAt text start stop (placeholder.withKey placeholder.key) := by
  obtain ⟨body, lies, -, reads⟩ := marker
  exact reads.braced_eq ▸ lies

theorem MarkerAt.start_lt_stop {text : String} {start stop : Nat} {placeholder : Placeholder}
    (marker : MarkerAt text start stop placeholder) : start < stop := by
  obtain ⟨body, ⟨before, after, -, -, rfl⟩, -, -⟩ := marker
  have size : ("\x7b\x7b" : String).utf8ByteSize = 2 := rfl
  rw [String.utf8ByteSize_append, String.utf8ByteSize_append, size]
  omega

/-- The placeholders of a text are its markers that follow the grammar, from left to right and apart from each
other, and each is written as it stands in the text. -/
theorem spans_follow_grammar (text : String) :
    scan text = (spans text).map (fun (_, _, placeholder) => placeholder) ∧
    (∀ start stop placeholder,
      (start, stop, placeholder) ∈ spans text ↔ MarkerAt text start stop placeholder) ∧
    (spans text).Pairwise (fun first second => first.2.1 ≤ second.1) ∧
    ∀ start stop placeholder, (start, stop, placeholder) ∈ spans text →
      start < stop ∧ ∀ raw, LiesAt text start stop raw ↔ raw = placeholder.withKey placeholder.key := by
  refine ⟨(Piece.map_spansFrom 0 _).symm, fun _ _ _ => mem_spans_iff, Piece.pairwise_spansFrom 0 _, ?_⟩
  intro start stop placeholder member
  have marker := mem_spans_iff.mp member
  refine ⟨marker.start_lt_stop, fun raw => ⟨fun lies => lies.unique marker.liesAt, ?_⟩⟩
  rintro rfl
  exact marker.liesAt

/-- Of three braces in a row the last two are the marker's; the letter in front takes two bytes. -/
example : spans "é\x7b\x7b\x7bA\x7d\x7d\x7d" = [(3, 8, ⟨false, "A", "", none, []⟩)] := by
  decide +kernel

end Placeholder

end WordTemplate
