import WordTemplate.Placeholder

/-! Texts without braces. Formatting such a text, cutting it and putting such texts together brings in
no brace. -/

namespace WordTemplate

open Piece (isBrace)

/-- Holds of a text without braces. -/
def Braceless (text : List Char) : Prop :=
  ∀ c ∈ text, isBrace c = false

instance (text : List Char) : Decidable (Braceless text) :=
  List.decidableBAll _ text

theorem braceless_nil : Braceless [] := by
  simp [Braceless]

theorem braceless_cons {c : Char} {text : List Char} :
    Braceless (c :: text) ↔ isBrace c = false ∧ Braceless text := by
  simp [Braceless]

theorem braceless_append {front back : List Char} :
    Braceless (front ++ back) ↔ Braceless front ∧ Braceless back := by
  simp [Braceless, or_imp, forall_and]

theorem Braceless.subset {text part : List Char} (plain : Braceless text) (inside : part ⊆ text) :
    Braceless part :=
  fun c member => plain c (inside member)

theorem braceless_flatMap {α : Type} {items : List α} {write : α → List Char}
    (plain : ∀ item ∈ items, Braceless (write item)) : Braceless (items.flatMap write) := by
  intro c member
  obtain ⟨item, listed, written⟩ := List.mem_flatMap.mp member
  exact plain item listed c written

theorem braceless_intercalate {separator : String} (plain : Braceless separator.toList)
    {parts : List String} (each : ∀ part ∈ parts, Braceless part.toList) :
    Braceless (separator.intercalate parts).toList := by
  induction parts with
  | nil => simp [Braceless]
  | cons part rest ih =>
      have first := each part (by simp)
      have others := ih fun other member => each other (by simp [member])
      cases rest with
      | nil => simpa using first
      | cons next rest =>
          rw [String.intercalate_cons_cons, String.toList_append, String.toList_append,
            braceless_append, braceless_append]
          exact ⟨⟨first, plain⟩, others⟩

theorem isBrace_iff_toNat {c : Char} : isBrace c = true ↔ c.toNat = 0x7B ∨ c.toNat = 0x7D := by
  have opening : c = '{' ↔ c.toNat = 0x7B := by
    rw [← Char.toNat_inj]
    rfl
  have closing : c = '}' ↔ c.toNat = 0x7D := by
    rw [← Char.toNat_inj]
    rfl
  simp [isBrace, opening, closing]

theorem isBrace_of_isDigit {c : Char} (digit : c.isDigit = true) : isBrace c = false := by
  have bounds := Char.isDigit_iff_toNat.mp digit
  rw [← Bool.not_eq_true, isBrace_iff_toNat]
  have high : '9'.toNat = 57 := rfl
  omega

theorem braceless_toString (number : Nat) : Braceless (toString number).toList := by
  rw [Nat.toString_eq_ofList_toDigits, String.toList_ofList]
  intro c member
  exact isBrace_of_isDigit (Nat.isDigit_of_mem_toDigits (by decide) (by decide) member)

namespace Text

def avoidsBraces (sequences : List (Nat × List Nat)) (ranges : List (Nat × Nat × Nat × Int)) :
    Bool :=
  (sequences.all fun (_, codes) => codes.all fun code => code != 0x7B && code != 0x7D) &&
    ranges.all fun (first, last, _, shift) =>
      decide (0x7D < first + shift) || decide (last + shift < 0x7B)

theorem isBrace_ofNat {code : Nat} (other : code ≠ 0x7B ∧ code ≠ 0x7D) :
    isBrace (Char.ofNat code) = false := by
  rw [← Bool.not_eq_true, isBrace_iff_toNat, Char.ofNat]
  by_cases valid : code.isValidChar
  · have same : (Char.ofNatAux code valid).toNat = code := rfl
    rw [dif_pos valid, same]
    omega
  · rw [dif_neg valid]
    decide

theorem CaseRange.bounds_of_contains {range : CaseRange} {code : Nat}
    (inside : range.contains code = true) : range.first ≤ code ∧ code ≤ range.last := by
  simp only [contains, Bool.and_eq_true, decide_eq_true_eq] at inside
  exact inside.1

theorem braceless_mapCase {sequences : List (Nat × List Nat)}
    {ranges : List (Nat × Nat × Nat × Int)} (avoids : avoidsBraces sequences ranges = true)
    {c : Char} (plain : isBrace c = false) : Braceless (mapCase sequences ranges c) := by
  simp only [avoidsBraces, Bool.and_eq_true, List.all_eq_true] at avoids
  unfold mapCase
  split
  · rename_i codes found
    obtain ⟨front, back, whole, -⟩ := List.lookup_eq_some_iff.mp found
    intro d member
    obtain ⟨code, inside, rfl⟩ := List.mem_map.mp member
    have other := avoids.1 (c.toNat, codes) (by simp [whole]) code inside
    exact isBrace_ofNat (by simpa using other)
  · split
    · rename_i range found
      obtain ⟨⟨first, last, step, shift⟩, listed, rfl⟩ :=
        List.mem_map.mp (List.mem_of_find?_eq_some found)
      have inside := List.find?_some found
      have other := avoids.2 _ listed
      have bounds : first ≤ c.toNat ∧ c.toNat ≤ last := CaseRange.bounds_of_contains inside
      simp only [Bool.or_eq_true, decide_eq_true_eq] at other
      simp only [CaseRange.ofTuple, Braceless, List.mem_singleton, forall_eq]
      apply isBrace_ofNat
      omega
    · simpa [Braceless] using plain

theorem isBrace_ascii {change : Char → Char}
    (kept : ∀ code < 128, isBrace (Char.ofNat code) = false →
      isBrace (change (Char.ofNat code)) = false)
    {c : Char} (small : c.toNat < 128) (plain : isBrace c = false) :
    isBrace (change c) = false := by
  have here := kept c.toNat small
  rw [Char.ofNat_toNat] at here
  exact here plain

theorem braceless_lowerChar {c : Char} (plain : isBrace c = false) : Braceless (lowerChar c) := by
  unfold lowerChar
  split
  · rename_i small
    simp only [Braceless, List.mem_singleton, forall_eq]
    exact isBrace_ascii (by decide) small plain
  · exact braceless_mapCase (by decide +kernel) plain

theorem braceless_upperChar {c : Char} (plain : isBrace c = false) : Braceless (upperChar c) := by
  unfold upperChar
  split
  · rename_i small
    simp only [Braceless, List.mem_singleton, forall_eq]
    exact isBrace_ascii (by decide) small plain
  · exact braceless_mapCase (by decide +kernel) plain

theorem braceless_lowerAfter (before : List Char) {text : List Char} (plain : Braceless text) :
    Braceless (lowerAfter before text) := by
  induction text generalizing before with
  | nil => exact braceless_nil
  | cons c rest ih =>
      obtain ⟨first, others⟩ := braceless_cons.mp plain
      rw [lowerAfter, braceless_append]
      refine ⟨?_, ih _ others⟩
      split
      · split <;> simp [Braceless, isBrace]
      · exact braceless_lowerChar first

theorem braceless_trimStart {text : List Char} (plain : Braceless text) :
    Braceless (trimStart text) :=
  plain.subset (List.dropWhile_suffix _).subset

theorem braceless_trimEnd {text : List Char} (plain : Braceless text) :
    Braceless (trimEnd text) := by
  apply plain.subset
  intro c member
  rw [trimEnd, List.mem_reverse] at member
  exact List.mem_reverse.mp ((List.dropWhile_suffix _).subset member)

end Text

namespace Formatter

theorem braceless_titleFrom (wordStart : Bool) {text : List Char} (plain : Braceless text) :
    Braceless (titleFrom wordStart text) := by
  induction text generalizing wordStart with
  | nil => exact braceless_nil
  | cons c rest ih =>
      obtain ⟨first, others⟩ := braceless_cons.mp plain
      unfold titleFrom
      split
      · refine braceless_append.mpr ⟨?_, ih _ others⟩
        split
        · exact Text.braceless_upperChar first
        · exact Text.braceless_lowerChar first
      · exact braceless_cons.mpr ⟨first, ih _ others⟩

theorem braceless_apply (formatter : Formatter) {value : String} (plain : Braceless value.toList) :
    Braceless (formatter.apply value).toList := by
  rw [apply, String.toList_ofList]
  cases formatter with
  | lower => exact Text.braceless_lowerAfter [] plain
  | upper =>
      apply braceless_flatMap
      intro c member
      exact Text.braceless_upperChar (plain c member)
  | title => exact braceless_titleFrom true plain
  | capitalize =>
      have trimmed := Text.braceless_trimEnd (Text.braceless_trimStart plain)
      rw [applyChars, Text.trim]
      cases cut : Text.trimEnd (Text.trimStart value.toList) with
      | nil => exact braceless_nil
      | cons c rest =>
          rw [cut, braceless_cons] at trimmed
          exact braceless_append.mpr
            ⟨Text.braceless_upperChar trimmed.1, Text.braceless_lowerAfter [] trimmed.2⟩

end Formatter

theorem Placeholder.braceless_format (placeholder : Placeholder) {value : String}
    (plain : Braceless value.toList) : Braceless (placeholder.format value).toList := by
  rw [format]
  split
  · exact Formatter.braceless_apply _ plain
  · exact plain

end WordTemplate
