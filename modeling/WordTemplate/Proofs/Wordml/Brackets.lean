import Mathlib.Data.List.Infix
import WordTemplate.Proofs.Wordml.OpenMarkers

/-! Texts that complete each other. Where a text leaves a marker open and the text behind it closes all that
is open, double braces that belong together stand on both sides, or the first text ends with a brace that
the other one does not go on with. -/

namespace WordTemplate.Wordml

/-- Whether double braces, some of which are open at the start, are all closed at the end and not before. -/
def closesAt (depth : Nat) : List Char → Bool
  | [] => false
  | '{' :: '{' :: rest => closesAt (depth + 1) rest
  | '}' :: '}' :: rest => if depth ≤ 1 then rest.isEmpty else closesAt (depth - 1) rest
  | _ :: rest => closesAt depth rest

def Bracketed (text : List Char) : Prop :=
  ∃ body, text = '{' :: '{' :: body ∧ closesAt 1 body = true

/-- Double braces with a body without braces. -/
def IsMarker (text : List Char) : Prop :=
  ∃ body, text = '{' :: '{' :: body ++ ['}', '}'] ∧ ∀ c ∈ body, Piece.isBrace c = false

/-- A text of some kind begins in the first text and ends in the second one. -/
def Covered (kind : List Char → Prop) (front back : List Char) : Prop :=
  ∃ before left right after, front = before ++ left ∧ back = right ++ after ∧ left ≠ [] ∧ right ≠ [] ∧
    kind (left ++ right)

/-- A text leaves nothing open but a brace at its end, and no other one follows. -/
def Dangles (front back : List Char) : Prop :=
  ∃ before, front = before ++ ['{'] ∧ opensFrom 0 before = false ∧ back.head? ≠ some '{'

theorem opensFrom_zero_cons {c : Char} {text : List Char}
    (single : c = '{' → text ≠ [] ∧ text.head? ≠ some '{') : opensFrom 0 (c :: text) = opensFrom 0 text := by
  by_cases opening : c = '{'
  · obtain ⟨some, other⟩ := single opening
    subst opening
    rw [opensFrom]
    · exact fun _ => some
    · rintro rest - rfl
      simp at other
    · simp
  · by_cases closing : c = '}'
    · subst closing
      exact opensFrom_closing text
    · exact opensFrom_plain 0 opening closing text

theorem closesAt_cons {depth : Nat} {c : Char} {text : List Char}
    (opening : c = '{' → text.head? ≠ some '{') (closing : c = '}' → text.head? ≠ some '}') :
    closesAt depth (c :: text) = closesAt depth text := by
  rw [closesAt]
  · rintro rest same rfl
    exact opening same rfl
  · rintro rest same rfl
    exact closing same rfl

theorem opensFrom_of_closesAt {depth : Nat} {text : List Char} (closes : closesAt depth text = true) :
    opensFrom depth text = false := by
  induction depth, text using closesAt.induct with
  | case1 => simp [closesAt] at closes
  | case2 depth rest ih =>
      rw [closesAt] at closes
      rw [opensFrom, ih closes]
  | case3 depth rest last =>
      rw [closesAt, if_pos last, List.isEmpty_iff] at closes
      subst closes
      rw [opensFrom, opensFrom]
      simp only [decide_eq_false_iff_not]
      omega
  | case4 depth rest more ih =>
      rw [closesAt, if_neg more] at closes
      rw [opensFrom, ih closes]
  | case5 depth c rest notOpening notClosing ih =>
      rw [closesAt.eq_4 _ _ _ notOpening notClosing] at closes
      rw [opensFrom.eq_5, ih closes]
      · rintro - rfl
        simp [closesAt] at closes
      · exact notOpening
      · exact notClosing

/-- What leaves nothing open closes first all that is open at the start. -/
theorem exists_closesAt {depth : Nat} {text : List Char} (deep : 0 < depth)
    (closed : opensFrom depth text = false) :
    ∃ front back, text = front ++ back ∧ closesAt depth front = true ∧ opensFrom 0 back = false := by
  induction depth, text using opensFrom.induct with
  | case1 depth =>
      rw [opensFrom, decide_eq_false_iff_not] at closed
      exact absurd deep closed
  | case2 depth => simp [opensFrom] at closed
  | case3 depth rest ih =>
      rw [opensFrom] at closed
      obtain ⟨front, back, rfl, closes, later⟩ := ih (Nat.succ_pos _) closed
      exact ⟨'{' :: '{' :: front, back, rfl, closes, later⟩
  | case4 depth rest ih =>
      rw [opensFrom] at closed
      by_cases last : depth ≤ 1
      · rw [Nat.sub_eq_zero_of_le last] at closed
        refine ⟨['}', '}'], rest, rfl, ?_, closed⟩
        rw [closesAt, if_pos last]
        rfl
      · obtain ⟨front, back, rfl, closes, later⟩ := ih (by omega) closed
        refine ⟨'}' :: '}' :: front, back, rfl, ?_, later⟩
        rwa [closesAt, if_neg last]
  | case5 depth c rest notLast notOpening notClosing ih =>
      rw [opensFrom.eq_5 _ _ _ notLast notOpening notClosing] at closed
      obtain ⟨front, back, rfl, closes, later⟩ := ih deep closed
      refine ⟨c :: front, back, rfl, ?_, later⟩
      have next : ∀ d, front.head? = some d → ∃ rest, front ++ back = d :: rest := by
        intro d first
        obtain ⟨tail, rfl⟩ := List.head?_eq_some_iff.mp first
        exact ⟨tail ++ back, rfl⟩
      rw [closesAt_cons, closes]
      · intro same first
        obtain ⟨tail, whole⟩ := next _ first
        exact notOpening tail same whole
      · intro same first
        obtain ⟨tail, whole⟩ := next _ first
        exact notClosing tail same whole

theorem Covered.behind {kind : List Char → Prop} {front back : List Char} (more : List Char)
    (covered : Covered kind front back) : Covered kind (more ++ front) back := by
  obtain ⟨before, left, right, after, rfl, rest⟩ := covered
  exact ⟨more ++ before, left, right, after, (List.append_assoc ..).symm, rest⟩

/-- No marker begins in a text when none is cut at any place of it. -/
theorem not_covered_isMarker {front back : List Char}
    (none : ∀ left ∈ front.tails, left ≠ [] → Piece.cutMarker? (left ++ back) = none) :
    ¬ Covered IsMarker front back := by
  rintro ⟨before, left, right, after, rfl, rfl, more, _, body, whole, plain⟩
  have cut : Piece.cutMarker? (left ++ (right ++ after)) = some (body, after) := by
    rw [← List.append_assoc, whole]
    exact Piece.cutMarker?_eq_some.mpr ⟨by simp, plain⟩
  rw [none left ((List.mem_tails ..).mpr (List.suffix_append ..)) more] at cut
  simp at cut

theorem Covered.append {kind : List Char → Prop} {front back : List Char}
    (covered : Covered kind front back) (more : List Char) : Covered kind front (back ++ more) := by
  obtain ⟨before, left, right, after, first, rfl, rest⟩ := covered
  exact ⟨before, left, right, after ++ more, first, List.append_assoc .., rest⟩

theorem Dangles.append {front back : List Char} (dangles : Dangles front back) (some : back ≠ [])
    (more : List Char) : Dangles front (back ++ more) := by
  obtain ⟨before, first, quiet, other⟩ := dangles
  refine ⟨before, first, quiet, ?_⟩
  rwa [List.head?_append_of_ne_nil _ some]

theorem Dangles.behind {front back more : List Char} (closed : opensFrom 0 more = false)
    (dangles : Dangles front back) : Dangles (more ++ front) back := by
  obtain ⟨before, rfl, quiet, other⟩ := dangles
  refine ⟨more ++ before, (List.append_assoc ..).symm, ?_, other⟩
  rw [opensFrom_append closed, quiet]

theorem Dangles.cons {c : Char} {front back : List Char}
    (single : c = '{' → front ≠ [] ∧ front.head? ≠ some '{') (dangles : Dangles front back) :
    Dangles (c :: front) back := by
  obtain ⟨before, rfl, quiet, other⟩ := dangles
  refine ⟨c :: before, rfl, ?_, other⟩
  rw [opensFrom_zero_cons, quiet]
  intro opening
  have next := (single opening).2
  cases before with
  | nil => simp at next
  | cons d before => exact ⟨by simp, next⟩

/-- Where a text is open, and the next one closes it, double braces stand on both sides of the boundary
between them, except where only a brace stands at the end of the first one. -/
theorem covered_or_dangles {front back : List Char} (opened : opensFrom 0 front = true)
    (closed : opensFrom 0 (front ++ back) = false) : Covered Bracketed front back ∨ Dangles front back := by
  induction size : front.length using Nat.strongRecOn generalizing front with
  | ind length ih =>
      cases front with
      | nil => simp [opensFrom] at opened
      | cons c rest =>
          by_cases single : c = '{' → rest ≠ [] ∧ rest.head? ≠ some '{'
          · rw [opensFrom_zero_cons single] at opened
            have tail : opensFrom 0 (rest ++ back) = false := by
              rw [List.cons_append, opensFrom_zero_cons] at closed
              · exact closed
              · intro opening
                obtain ⟨some, other⟩ := single opening
                obtain ⟨d, more, rfl⟩ := List.exists_cons_of_ne_nil some
                exact ⟨by simp, other⟩
            refine (ih rest.length (by simp at size; omega) opened tail rfl).imp ?_ (Dangles.cons single)
            exact Covered.behind [c]
          · rw [Classical.not_imp, not_and_or, not_not, not_not] at single
            obtain ⟨rfl, rfl | next⟩ := single
            · by_cases other : back.head? = some '{'
              · obtain ⟨more, rfl⟩ := List.head?_eq_some_iff.mp other
                rw [List.singleton_append, opensFrom] at closed
                obtain ⟨inner, after, rfl, closes, _⟩ := exists_closesAt Nat.one_pos closed
                exact .inl ⟨[], ['{'], '{' :: inner, after, rfl, rfl, by simp, by simp, inner, rfl, closes⟩
              · exact .inr ⟨[], rfl, rfl, other⟩
            · obtain ⟨more, rfl⟩ := List.head?_eq_some_iff.mp next
              rw [opensFrom] at opened
              rw [List.cons_append, List.cons_append, opensFrom] at closed
              obtain ⟨inner, after, whole, closes, later⟩ := exists_closesAt Nat.one_pos closed
              have complete := opensFrom_of_closesAt closes
              rcases List.append_eq_append_iff.mp whole with ⟨right, rfl, rfl⟩ | ⟨left, rfl, rfl⟩
              · refine .inl ⟨[], '{' :: '{' :: more, right, after, rfl, rfl, by simp, ?_, _, rfl, closes⟩
                rintro rfl
                rw [List.append_nil, opened] at complete
                exact absurd complete (by decide)
              · -- The marker ends in the first text, and what is behind it is read anew.
                rw [opensFrom_append complete] at opened
                have shorter : left.length < length := by
                  simp only [List.length_cons, List.length_append] at size
                  omega
                refine (ih _ shorter opened later rfl).imp ?_ ?_
                · exact Covered.behind ('{' :: '{' :: inner)
                · exact Dangles.behind (show opensFrom 0 ('{' :: '{' :: inner) = false from complete)

end WordTemplate.Wordml
