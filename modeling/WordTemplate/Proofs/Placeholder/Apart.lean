import WordTemplate.Proofs.Placeholder.Disguise

/-! Texts in which no mark is followed by another one, or by nothing: put together, such texts are of
the same kind. Formatting does not bring marks together, as long as it cuts off no more than blanks. -/

namespace WordTemplate

/-- Behind every mark stands another character that is no mark. -/
def Apart (mark : Char) (text : List Char) : Prop :=
  ∀ behind, mark :: behind <:+ text → ∃ next rest, behind = next :: rest ∧ next ≠ mark

variable {mark : Char}

theorem apart_of_not_mem {text : List Char} (none : mark ∉ text) : Apart mark text :=
  fun _ inside => absurd (inside.subset (List.mem_cons_self ..)) none

theorem Apart.suffix {text part : List Char} (apart : Apart mark text) (behind : part <:+ text) :
    Apart mark part :=
  fun _ inside => apart _ (inside.trans behind)

theorem apart_cons {c : Char} {rest : List Char} :
    Apart mark (c :: rest) ↔
      (c = mark → ∃ next others, rest = next :: others ∧ next ≠ mark) ∧ Apart mark rest := by
  constructor
  · intro apart
    refine ⟨?_, apart.suffix (List.suffix_cons c rest)⟩
    rintro rfl
    exact apart rest List.suffix_rfl
  · rintro ⟨first, later⟩ behind inside
    rcases List.suffix_cons_iff.mp inside with here | below
    · rw [List.cons.injEq] at here
      exact here.2 ▸ first here.1.symm
    · exact later behind below

theorem Apart.append {front back : List Char} (first : Apart mark front) (second : Apart mark back) :
    Apart mark (front ++ back) := by
  induction front with
  | nil => exact second
  | cons c rest ih =>
      obtain ⟨here, later⟩ := apart_cons.mp first
      refine apart_cons.mpr ⟨fun same => ?_, ih later⟩
      obtain ⟨next, others, whole, other⟩ := here same
      exact ⟨next, others ++ back, by rw [whole]; rfl, other⟩

theorem Apart.map {change : Char → Char} {text : List Char} {next : Char} (apart : Apart mark text)
    (only : ∀ c ∈ text, change c = next → c = mark) : Apart next (text.map change) := by
  induction text with
  | nil => exact apart_of_not_mem (by simp)
  | cons c rest ih =>
      obtain ⟨here, later⟩ := apart_cons.mp apart
      rw [List.map_cons]
      refine apart_cons.mpr ⟨fun same => ?_, ih later fun d member => only d (by simp [member])⟩
      obtain ⟨other, others, rfl, different⟩ := here (only c (by simp) same)
      refine ⟨change other, others.map change, List.map_cons, fun marked => ?_⟩
      exact different (only other (by simp) marked)

namespace Text

/-- The second text comes from the first one by spreading each character except the marks to one
or more others that are no marks. -/
inductive Spreads (mark : Char) : List Char → List Char → Prop
  | nil : Spreads mark [] []
  | mark {rest result : List Char} (later : Spreads mark rest result) :
      Spreads mark (mark :: rest) (mark :: result)
  | other {c d : Char} {rest block result : List Char} (differs : c ≠ mark)
      (free : mark ∉ d :: block) (later : Spreads mark rest result) :
      Spreads mark (c :: rest) (d :: block ++ result)

theorem Spreads.maps (neutral : Neutral mark) {c : Char} {rest mapped result : List Char}
    (maps : Maps c mapped) (later : Spreads mark rest result) :
    Spreads mark (c :: rest) (mapped ++ result) := by
  by_cases same : c = mark
  · subst same
    rw [maps.neutral neutral]
    exact later.mark
  · cases mapped with
    | nil => exact absurd rfl maps.some
    | cons d block =>
        refine later.other same fun member => ?_
        rcases maps.other mark member with here | letter
        · exact same here.symm
        · exact letter neutral

theorem Spreads.apart {text result : List Char} (spreads : Spreads mark text result)
    (apart : Apart mark text) : Apart mark result := by
  induction spreads with
  | nil => exact apart
  | mark later ih =>
      obtain ⟨here, behind⟩ := apart_cons.mp apart
      refine apart_cons.mpr ⟨fun _ => ?_, ih behind⟩
      obtain ⟨next, others, rfl, different⟩ := here rfl
      cases later with
      | mark _ => exact absurd rfl different
      | @other _ d _ block _ _ free _ =>
          exact ⟨d, _, rfl, fun same => free (same ▸ List.mem_cons_self ..)⟩
  | other _ free _ ih => exact (apart_of_not_mem free).append (ih (apart_cons.mp apart).2)

theorem spreads_lowerAfter (neutral : Neutral mark) (before text : List Char) :
    Spreads mark text (lowerAfter before text) := by
  induction text generalizing before with
  | nil => exact .nil
  | cons c rest ih =>
      rw [lowerAfter]
      refine .maps neutral ?_ (ih _)
      split
      · rename_i sigma
        subst sigma
        split
        · exact maps_singleton (.inr (by decide +kernel))
        · exact maps_singleton (.inr (by decide +kernel))
      · exact maps_lowerChar c

theorem spreads_upper (neutral : Neutral mark) (text : List Char) :
    Spreads mark text (upper text) := by
  induction text with
  | nil => exact .nil
  | cons c rest ih => exact .maps neutral (maps_upperChar c) ih

theorem spreads_titleFrom (neutral : Neutral mark) (wordStart : Bool) (text : List Char) :
    Spreads mark text (Formatter.titleFrom wordStart text) := by
  induction text generalizing wordStart with
  | nil => exact .nil
  | cons c rest ih =>
      rw [Formatter.titleFrom]
      split
      · refine .maps neutral ?_ (ih false)
        split
        · exact maps_upperChar c
        · exact maps_lowerChar c
      · exact .maps neutral (maps_singleton (.inl rfl)) (ih _)

theorem spreads_capitalizeChars (neutral : Neutral mark) (text : List Char) :
    Spreads mark text (Formatter.capitalizeChars text) := by
  cases text with
  | nil => exact .nil
  | cons c rest => exact .maps neutral (maps_upperChar c) (spreads_lowerAfter neutral [] rest)

theorem exists_trimEnd (text : List Char) :
    ∃ blanks, text = trimEnd text ++ blanks ∧ ∀ c ∈ blanks, isBlank c = true := by
  refine ⟨(text.reverse.takeWhile isBlank).reverse, ?_, ?_⟩
  · rw [trimEnd, ← List.reverse_append, List.takeWhile_append_dropWhile, List.reverse_reverse]
  · intro c member
    exact List.all_eq_true.mp List.all_takeWhile c (List.mem_reverse.mp member)

theorem trimEnd_append {front back : List Char} (some : trimEnd back ≠ []) :
    trimEnd (front ++ back) = front ++ trimEnd back := by
  have left : back.reverse.dropWhile isBlank ≠ [] := by simpa [trimEnd] using some
  rw [trimEnd, trimEnd, List.reverse_append, List.dropWhile_append]
  cases cut : back.reverse.dropWhile isBlank with
  | nil => exact absurd cut left
  | cons c rest => simp

theorem trimEnd_suffix {text part : List Char} (behind : part <:+ text) :
    trimEnd part <:+ trimEnd text := by
  obtain ⟨front, rfl⟩ := behind
  by_cases some : trimEnd part = []
  · rw [some]
    exact List.nil_suffix
  · rw [trimEnd_append some]
    exact List.suffix_append ..

theorem apart_of_trimEnd (neutral : Neutral mark) {text : List Char}
    (apart : Apart mark (trimEnd text)) : Apart mark text := by
  obtain ⟨blanks, whole, blank⟩ := exists_trimEnd text
  rw [whole]
  refine apart.append (apart_of_not_mem fun member => ?_)
  have here := blank mark member
  rw [neutral.blank] at here
  exact absurd here (by decide)

end Text

/-- Formatting keeps marks apart that stay apart when blanks at the end are cut off. -/
theorem Formatter.apart_apply (neutral : Text.Neutral mark) (formatter : Formatter) {value : String}
    (apart : Apart mark (Text.trimEnd value.toList)) :
    Apart mark (formatter.apply value).toList := by
  have whole := Text.apart_of_trimEnd neutral apart
  rw [apply, String.toList_ofList]
  cases formatter with
  | lower => exact (Text.spreads_lowerAfter neutral [] _).apart whole
  | upper => exact (Text.spreads_upper neutral _).apart whole
  | title => exact (Text.spreads_titleFrom neutral true _).apart whole
  | capitalize =>
      have trimmed := apart.suffix (Text.trimEnd_suffix (List.dropWhile_suffix Text.isBlank))
      exact (Text.spreads_capitalizeChars neutral _).apart trimmed

theorem Placeholder.apart_format (neutral : Text.Neutral mark) (placeholder : Placeholder)
    {value : String} (apart : Apart mark (Text.trimEnd value.toList)) :
    Apart mark (placeholder.format value).toList := by
  rw [format]
  split
  · exact Formatter.apart_apply neutral _ apart
  · exact Text.apart_of_trimEnd neutral apart

end WordTemplate
