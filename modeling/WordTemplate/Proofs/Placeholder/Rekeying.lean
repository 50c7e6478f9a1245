import WordTemplate.Proofs.Placeholder.Spans

/-! One placeholder of a text with another key. It stands where it stood and differs in its key alone, and all
other placeholders of the text stay, those behind it as many bytes further on as the marker has become longer. -/

namespace WordTemplate

namespace Piece

theorem Cuts.exchange {placeholder other : Placeholder} (proper : other.Proper) {front back : List Piece}
    {text : List Char} (cuts : Cuts text (front ++ .marker placeholder :: back)) :
    Cuts (sources (front ++ .marker other :: back)) (front ++ .marker other :: back) := by
  generalize cut : front ++ .marker placeholder :: back = pieces at cuts
  induction cuts generalizing front with
  | nil => simp at cut
  | @marker body after pieces plain rest ih =>
      cases front with
      | nil =>
          obtain ⟨-, rfl⟩ := List.cons.inj cut
          have cuts := Cuts.marker proper.plain rest
          rw [ofMarker, proper.reads] at cuts
          simpa [source, Placeholder.toList_source, rest.sources_eq] using cuts
      | cons first front =>
          obtain ⟨rfl, below⟩ := List.cons.inj cut
          have cuts := Cuts.marker plain (ih below)
          simpa [source_ofMarker] using cuts
  | @literal c after pieces open_ rest ih =>
      cases front with
      | nil => simp at cut
      | cons first front =>
          obtain ⟨rfl, below⟩ := List.cons.inj cut
          have same : SameStart after (sources (front ++ .marker other :: back)) := by
            refine ⟨sources front, .inr ⟨placeholder.body ++ ['}', '}'] ++ sources back,
              other.body ++ ['}', '}'] ++ sources back, ?_, ?_⟩⟩
            · rw [← rest.sources_eq, ← below, List.append_eq, sources_append]
              simp [source, Placeholder.toList_source]
            · rw [sources_append]
              simp [source, Placeholder.toList_source]
          exact .literal (same.cutMarker? open_) (ih below)

/-- A span that begins the given number of bytes further on. -/
def shifted (bytes : Nat) : Nat × Nat × Placeholder → Nat × Nat × Placeholder
  | (start, stop, placeholder) => (bytes + start, bytes + stop, placeholder)

theorem spansFrom_eq_shifted (offset : Nat) (pieces : List Piece) :
    spansFrom offset pieces = (spansFrom 0 pieces).map (shifted offset) := by
  have shift (bytes offset : Nat) :
      spansFrom (bytes + offset) pieces = (spansFrom offset pieces).map (shifted bytes) := by
    induction pieces generalizing offset with
    | nil => rfl
    | cons piece rest ih =>
        cases piece with
        | literal text =>
            rw [spansFrom, spansFrom, Nat.add_assoc]
            exact ih _
        | marker placeholder =>
            rw [spansFrom, spansFrom, Nat.add_assoc]
            exact congrArg _ (ih _)
  exact shift offset 0

theorem spansFrom_append (offset : Nat) (front back : List Piece) :
    spansFrom offset (front ++ back) =
      spansFrom offset front ++ spansFrom (offset + Text.byteLength (sources front)) back := by
  induction front generalizing offset with
  | nil => rfl
  | cons piece rest ih =>
      cases piece <;>
        simp only [List.cons_append, spansFrom, ih, sources_cons, Text.byteLength_append, Nat.add_assoc]

theorem exists_of_spansFrom {pieces : List Piece} {offset start stop : Nat} {placeholder : Placeholder}
    {before after : List (Nat × Nat × Placeholder)}
    (listed : spansFrom offset pieces = before ++ (start, stop, placeholder) :: after) :
    ∃ front back, pieces = front ++ .marker placeholder :: back ∧ spansFrom offset front = before ∧
      start = offset + Text.byteLength (sources front) ∧
      stop = start + Text.byteLength placeholder.source.toList ∧ spansFrom stop back = after := by
  induction pieces generalizing offset before with
  | nil => simp [spansFrom] at listed
  | cons piece rest ih =>
      cases piece with
      | literal text =>
          obtain ⟨front, back, rfl, same, starts, stops, later⟩ := ih listed
          refine ⟨.literal text :: front, back, rfl, same, ?_, stops, later⟩
          rw [starts, sources_cons, Text.byteLength_append, Nat.add_assoc]
      | marker other =>
          cases before with
          | nil =>
              obtain ⟨here, behind⟩ := List.cons.inj listed
              simp only [Prod.mk.injEq] at here
              obtain ⟨rfl, rfl, rfl⟩ := here
              exact ⟨[], rest, rfl, rfl, rfl, rfl, behind⟩
          | cons span before =>
              obtain ⟨rfl, behind⟩ := List.cons.inj listed
              obtain ⟨front, back, rfl, same, starts, stops, later⟩ := ih behind
              refine ⟨.marker other :: front, back, rfl, congrArg _ same, ?_, stops, later⟩
              rw [starts, sources_cons, Text.byteLength_append, Nat.add_assoc]

end Piece

namespace Placeholder

theorem isKey_of_cutKey {key : List Char} (filled : key ≠ []) (whole : cutKey key = (key, [])) : IsKey key := by
  have spec : (cutKey key).1 ≠ [] → _ := cutKey_spec
  rw [whole] at spec
  exact (spec filled).2.1

/-- A placeholder of a text is put in again with another key. The placeholders in front of it keep their spans;
it begins where it began and has the new key, with all else as before, so the same formatter and trigger; and the
placeholders behind it follow at the same distances. -/
theorem spans_withKey {text key : String} {start stop : Nat} {placeholder : Placeholder}
    {before after : List (Nat × Nat × Placeholder)}
    (listed : spans text = before ++ (start, stop, placeholder) :: after)
    (filled : key ≠ "") (whole : cutKey key.toList = (key.toList, [])) :
    ∃ (front back : String) (rest : List (Nat × Nat × Placeholder)),
      text = front ++ placeholder.source ++ back ∧ front.utf8ByteSize = start ∧
      (front ++ placeholder.source).utf8ByteSize = stop ∧ after = rest.map (Piece.shifted stop) ∧
      spans (front ++ placeholder.withKey key ++ back) =
        before ++ (start, (front ++ placeholder.withKey key).utf8ByteSize, { placeholder with key }) ::
          rest.map (Piece.shifted (front ++ placeholder.withKey key).utf8ByteSize) := by
  have cuts := Piece.cuts_split text.toList
  rw [spans, Piece.ofText] at listed
  obtain ⟨front, back, same, rfl, rfl, rfl, rfl⟩ := Piece.exists_of_spansFrom listed
  rw [same] at cuts
  have isKey := isKey_of_cutKey (mt String.toList_eq_nil_iff.mp filled) whole
  have proper := (cuts.proper placeholder (by simp)).withKey isKey
  have asked : placeholder.withKey key = Placeholder.source { placeholder with key } := rfl
  rw [asked]
  generalize ({ placeholder with key } : Placeholder) = other at proper
  have written (shown : Placeholder) : Piece.sources (front ++ .marker shown :: back) =
      Piece.sources front ++ shown.source.toList ++ Piece.sources back := by
    rw [Piece.sources_append, Piece.sources_cons, List.append_assoc]
    rfl
  have length (shown : Placeholder) : (String.ofList (Piece.sources front) ++ shown.source).utf8ByteSize =
      0 + Text.byteLength (Piece.sources front) + Text.byteLength shown.source.toList := by
    rw [String.utf8ByteSize_append, Text.utf8ByteSize_ofList, Text.byteLength_toList, Nat.zero_add]
  have split := (cuts.exchange proper).split_eq
  have text := cuts.sources_eq
  rw [written] at split text
  refine ⟨String.ofList (Piece.sources front), String.ofList (Piece.sources back), Piece.spansFrom 0 back,
    ?_, ?_, length placeholder, Piece.spansFrom_eq_shifted _ _, ?_⟩
  · rw [← String.toList_inj, ← text]
    simp
  · rw [Text.utf8ByteSize_ofList, Nat.zero_add]
  · have changed : (String.ofList (Piece.sources front) ++ other.source ++
        String.ofList (Piece.sources back)).toList =
        Piece.sources front ++ other.source.toList ++ Piece.sources back := by simp
    rw [spans, Piece.ofText, changed, split, Piece.spansFrom_append, length, Piece.spansFrom,
      ← Piece.spansFrom_eq_shifted]
    rfl

/-- Of two markers with the same key the first one is turned to an item; a brace stands between the two. -/
theorem spans_withKey_users :
    let text := "é\x7b\x7bUsers.Name , :upper\x7d\x7d\x7b\x7b\x7b#Users.Name\x7d\x7d"
    let first : Placeholder := ⟨false, "Users.Name", " , :upper", some ",", ["upper"]⟩
    let second : Placeholder := ⟨true, "Users.Name", "", none, []⟩
    (spans text = [] ++ (2, 25, first) :: [(26, 41, second)] ∧ "Users.12.Name" ≠ "" ∧
        cutKey "Users.12.Name".toList = ("Users.12.Name".toList, [])) ∧
      ∃ (front back : String) (rest : List (Nat × Nat × Placeholder)),
        text = front ++ first.source ++ back ∧ front.utf8ByteSize = 2 ∧
        (front ++ first.source).utf8ByteSize = 25 ∧ [(26, 41, second)] = rest.map (Piece.shifted 25) ∧
        spans (front ++ first.withKey "Users.12.Name" ++ back) =
          [] ++ (2, (front ++ first.withKey "Users.12.Name").utf8ByteSize,
              { first with key := "Users.12.Name" }) ::
            rest.map (Piece.shifted (front ++ first.withKey "Users.12.Name").utf8ByteSize) := by
  intro text first second
  have listed : spans text = [] ++ (2, 25, first) :: [(26, 41, second)] := by decide +kernel
  have whole : cutKey "Users.12.Name".toList = ("Users.12.Name".toList, []) := by decide +kernel
  exact ⟨⟨listed, by decide, whole⟩, spans_withKey listed (by decide) whole⟩

end Placeholder

end WordTemplate
