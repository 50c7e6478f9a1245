import Mathlib.Data.List.Basic
import WordTemplate.Proofs.Placeholder.Braceless

/-! Changes of characters that formatting takes no notice of: they only touch characters that are
neither alphanumeric nor blank and do not count for letter case, as the braces are. -/

namespace WordTemplate

namespace Text

/-- Holds of characters that formatting leaves as they are, and that part words. -/
structure Neutral (c : Char) : Prop where
  alphanumeric : isAlphanumeric c = false
  ignorable : isCaseIgnorable c = false
  blank : isBlank c = false

instance (c : Char) : Decidable (Neutral c) :=
  decidable_of_iff (isAlphanumeric c = false ∧ isCaseIgnorable c = false ∧ isBlank c = false)
    ⟨fun ⟨alphanumeric, ignorable, blank⟩ => ⟨alphanumeric, ignorable, blank⟩,
      fun neutral => ⟨neutral.alphanumeric, neutral.ignorable, neutral.blank⟩⟩

/-- Whether none of the code points from `first` to `last` in steps is that of a neutral character. -/
def avoidsNeutral (first last step : Nat) : Bool :=
  (alphanumericRanges.any fun range => range.1 ≤ first && last ≤ range.2) ||
    (List.range ((last - first) / step + 1)).all fun index =>
      decide (¬ Neutral (Char.ofNat (first + step * index)))

/-- Whether one of the alphanumeric ranges holds all code points from `first` to `last`. -/
def liesInOne (first last : Nat) : Bool :=
  alphanumericRanges.any fun range => Nat.ble range.1 first && Nat.ble last range.2

-- The kernel compares numerals by `Nat.ble` much faster than it decides `≤`, and the tables below
-- take half a million comparisons.
theorem avoidsNeutral_eq (first last step : Nat) :
    avoidsNeutral first last step =
      (liesInOne first last ||
        (List.range ((last - first) / step + 1)).all fun index =>
          decide (¬ Neutral (Char.ofNat (first + step * index)))) := by
  have compared : ∀ small large : Nat, decide (small ≤ large) = Nat.ble small large := by
    intro small large
    rw [Bool.eq_iff_iff, decide_eq_true_eq, Nat.ble_eq]
  simp only [avoidsNeutral, liesInOne, compared]

theorem valid_of_alphanumeric {range : CodeRange} (listed : range ∈ alphanumericRanges) :
    128 ≤ range.1 ∧ (range.2 < 0xD800 ∨ 0xDFFF < range.1 ∧ range.2 < 0x110000) := by
  have all : ∀ range ∈ alphanumericRanges,
      128 ≤ range.1 ∧ (range.2 < 0xD800 ∨ 0xDFFF < range.1 ∧ range.2 < 0x110000) := by
    decide +kernel
  exact all range listed

theorem isAlphanumeric_ofNat {range : CodeRange} (listed : range ∈ alphanumericRanges) {code : Nat}
    (low : range.1 ≤ code) (high : code ≤ range.2) : isAlphanumeric (Char.ofNat code) = true := by
  obtain ⟨large, bounds⟩ := valid_of_alphanumeric listed
  have valid : code.isValidChar := by
    rw [Nat.isValidChar]
    omega
  have same : (Char.ofNat code).toNat = code := by
    rw [Char.ofNat, dif_pos valid]
    rfl
  have inside : inRanges alphanumericRanges code = true := by
    rw [inRanges, List.any_eq_true]
    exact ⟨range, listed, by simp [CodeRange.contains, low, high]⟩
  rw [isAlphanumeric, same, if_neg (by omega), inside]

theorem not_neutral_of_isAlphanumeric {c : Char} (letter : isAlphanumeric c = true) : ¬ Neutral c := by
  intro neutral
  rw [neutral.alphanumeric] at letter
  exact absurd letter (by decide)

theorem not_neutral_ofNat {first last step : Nat} (avoids : avoidsNeutral first last step = true)
    {code : Nat} (low : first ≤ code) (high : code ≤ last) (stepped : (code - first) % step = 0) :
    ¬ Neutral (Char.ofNat code) := by
  simp only [avoidsNeutral, Bool.or_eq_true, List.any_eq_true, List.all_eq_true, List.mem_range,
    decide_eq_true_eq, Bool.and_eq_true] at avoids
  rcases avoids with ⟨range, listed, below, above⟩ | each
  · exact not_neutral_of_isAlphanumeric (isAlphanumeric_ofNat listed (by omega) (by omega))
  · have whole : step * ((code - first) / step) = code - first := by
      have parts := Nat.div_add_mod (code - first) step
      omega
    have index := each ((code - first) / step)
      (Nat.lt_succ_of_le (Nat.div_le_div_right (by omega)))
    rwa [whole, Nat.add_sub_cancel' low] at index

/-- Whether the tables neither map a neutral character nor map one to a neutral character. -/
def mapsLetters (sequences : List (Nat × List Nat)) (ranges : List (Nat × Nat × Nat × Int)) : Bool :=
  (sequences.all fun (code, codes) =>
    decide (¬ Neutral (Char.ofNat code)) && !codes.isEmpty &&
      codes.all fun code => decide (¬ Neutral (Char.ofNat code))) &&
    ranges.all fun (first, last, step, shift) =>
      decide (0 ≤ first + shift) && avoidsNeutral first last step &&
        avoidsNeutral (first + shift).toNat (last + shift).toNat step

theorem CaseRange.stepped_of_contains {range : CaseRange} {code : Nat}
    (inside : range.contains code = true) : (code - range.first) % range.step = 0 := by
  simp only [contains, Bool.and_eq_true, decide_eq_true_eq] at inside
  exact inside.2

section MapCase

variable {sequences : List (Nat × List Nat)} {ranges : List (Nat × Nat × Nat × Int)} {c d : Char}

theorem mapCase_neutral (maps : mapsLetters sequences ranges = true) (neutral : Neutral c) :
    mapCase sequences ranges c = [c] := by
  simp only [mapsLetters, Bool.and_eq_true, List.all_eq_true, decide_eq_true_eq] at maps
  unfold mapCase
  split
  · rename_i codes found
    obtain ⟨front, back, whole, -⟩ := List.lookup_eq_some_iff.mp found
    have letter := (maps.1 (c.toNat, codes) (by simp [whole])).1.1
    rw [Char.ofNat_toNat] at letter
    exact absurd neutral letter
  · split
    · rename_i range found
      obtain ⟨⟨first, last, step, shift⟩, listed, rfl⟩ :=
        List.mem_map.mp (List.mem_of_find?_eq_some found)
      have inside := List.find?_some found
      obtain ⟨low, high⟩ := CaseRange.bounds_of_contains inside
      have letter := not_neutral_ofNat (maps.2 _ listed).1.2 low high
        (CaseRange.stepped_of_contains inside)
      rw [Char.ofNat_toNat] at letter
      exact absurd neutral letter
    · rfl

theorem mapCase_ne_nil (maps : mapsLetters sequences ranges = true) (c : Char) :
    mapCase sequences ranges c ≠ [] := by
  simp only [mapsLetters, Bool.and_eq_true, List.all_eq_true] at maps
  unfold mapCase
  split
  · rename_i codes found
    obtain ⟨front, back, whole, -⟩ := List.lookup_eq_some_iff.mp found
    have some := (maps.1 (c.toNat, codes) (by simp [whole])).1.2
    simpa using some
  · split <;> simp

theorem eq_or_not_neutral_of_mem_mapCase (maps : mapsLetters sequences ranges = true)
    (member : d ∈ mapCase sequences ranges c) : d = c ∨ ¬ Neutral d := by
  simp only [mapsLetters, Bool.and_eq_true, List.all_eq_true, decide_eq_true_eq] at maps
  unfold mapCase at member
  split at member
  · rename_i codes found
    obtain ⟨front, back, whole, -⟩ := List.lookup_eq_some_iff.mp found
    obtain ⟨code, inside, rfl⟩ := List.mem_map.mp member
    exact .inr ((maps.1 (c.toNat, codes) (by simp [whole])).2 code inside)
  · split at member
    · rename_i range found
      obtain ⟨⟨first, last, step, shift⟩, listed, rfl⟩ :=
        List.mem_map.mp (List.mem_of_find?_eq_some found)
      have inside := List.find?_some found
      have bounds : first ≤ c.toNat ∧ c.toNat ≤ last := CaseRange.bounds_of_contains inside
      have stepped : (c.toNat - first) % step = 0 := CaseRange.stepped_of_contains inside
      have positive : (0 : Int) ≤ first + shift := (maps.2 _ listed).1.1
      have moved : (c.toNat + shift).toNat - (first + shift).toNat = c.toNat - first := by omega
      simp only [CaseRange.ofTuple, List.mem_singleton] at member
      subst member
      have low : (first + shift).toNat ≤ (c.toNat + shift).toNat := by omega
      have high : (c.toNat + shift).toNat ≤ (last + shift).toNat := by omega
      exact .inr (not_neutral_ofNat (maps.2 _ listed).2 low high (by rw [moved, stepped]))
    · exact .inl (by simpa using member)

end MapCase

theorem mapsLetters_lower : mapsLetters lowerSequences lowerRanges = true := by
  simp only [mapsLetters, avoidsNeutral_eq]
  decide +kernel

theorem mapsLetters_upper : mapsLetters upperSequences upperRanges = true := by
  simp only [mapsLetters, avoidsNeutral_eq]
  decide +kernel

theorem ascii_change {change : Char → Char}
    (kept : ∀ code < 128, change (Char.ofNat code) = Char.ofNat code ∨
      ¬ Neutral (Char.ofNat code) ∧ ¬ Neutral (change (Char.ofNat code)))
    {c : Char} (small : c.toNat < 128) : change c = c ∨ ¬ Neutral c ∧ ¬ Neutral (change c) := by
  have here := kept c.toNat small
  rwa [Char.ofNat_toNat] at here

/-- How a character may be mapped: a neutral one to itself, and any other one to itself or to others
that are not neutral. -/
structure Maps (c : Char) (mapped : List Char) : Prop where
  neutral : Neutral c → mapped = [c]
  some : mapped ≠ []
  other : ∀ d ∈ mapped, d = c ∨ ¬ Neutral d

theorem maps_singleton {c d : Char} (kept : d = c ∨ ¬ Neutral c ∧ ¬ Neutral d) : Maps c [d] := by
  refine ⟨fun neutral => ?_, by simp, ?_⟩
  · rw [kept.resolve_right fun letters => letters.1 neutral]
  · intro other member
    rw [List.mem_singleton] at member
    exact member ▸ kept.imp_right And.right

theorem maps_lowerChar (c : Char) : Maps c (lowerChar c) := by
  unfold lowerChar
  split
  · rename_i small
    exact maps_singleton (ascii_change (by decide) small)
  · exact ⟨mapCase_neutral mapsLetters_lower, mapCase_ne_nil mapsLetters_lower c,
      fun _ => eq_or_not_neutral_of_mem_mapCase mapsLetters_lower⟩

theorem maps_upperChar (c : Char) : Maps c (upperChar c) := by
  unfold upperChar
  split
  · rename_i small
    exact maps_singleton (ascii_change (by decide) small)
  · exact ⟨mapCase_neutral mapsLetters_upper, mapCase_ne_nil mapsLetters_upper c,
      fun _ => eq_or_not_neutral_of_mem_mapCase mapsLetters_upper⟩

/-- Every character is left as it is, or a neutral one takes the place of a neutral one. -/
def Disguises (change : Char → Char) : Prop :=
  ∀ c, change c = c ∨ Neutral c ∧ Neutral (change c)

section Disguises

variable {change : Char → Char} (disguises : Disguises change)

include disguises

theorem Disguises.fixed {c : Char} (letter : ¬ Neutral c) : change c = c :=
  (disguises c).resolve_right fun neutral => letter neutral.1

theorem Disguises.isAlphanumeric (c : Char) : isAlphanumeric (change c) = isAlphanumeric c := by
  rcases disguises c with same | ⟨before, after⟩
  · rw [same]
  · rw [before.alphanumeric, after.alphanumeric]

theorem Disguises.isCaseIgnorable (c : Char) : isCaseIgnorable (change c) = isCaseIgnorable c := by
  rcases disguises c with same | ⟨before, after⟩
  · rw [same]
  · rw [before.ignorable, after.ignorable]

theorem Disguises.isBlank (c : Char) : isBlank (change c) = isBlank c := by
  rcases disguises c with same | ⟨before, after⟩
  · rw [same]
  · rw [before.blank, after.blank]

theorem Disguises.eq_iff {c d : Char} (letter : ¬ Neutral d) : change c = d ↔ c = d := by
  rcases disguises c with same | ⟨before, after⟩
  · rw [same]
  · constructor
    · rintro rfl
      exact absurd after letter
    · rintro rfl
      exact absurd before letter

theorem Disguises.map_maps {mapping : Char → List Char} (maps : ∀ c, Maps c (mapping c)) (c : Char) :
    (mapping c).map change = mapping (change c) := by
  rcases disguises c with same | ⟨before, after⟩
  · rw [same]
    refine (List.map_congr_left fun d member => ?_).trans (List.map_id _)
    rcases (maps c).other d member with here | letter
    · rw [here, same, id]
    · exact disguises.fixed letter
  · rw [(maps c).neutral before, (maps (change c)).neutral after, List.map_singleton]

theorem Disguises.isCased (c : Char) : isCased (change c) = isCased c := by
  have letters : ∀ d, Neutral d → Text.isCased d = false := by
    intro d neutral
    cases cased : Text.isCased d with
    | false => rfl
    | true =>
        have avoids : casedRanges.all (fun (first, last) => avoidsNeutral first last 1) = true := by
          simp only [avoidsNeutral_eq]
          decide +kernel
        obtain ⟨⟨first, last⟩, listed, inside⟩ := List.any_eq_true.mp cased
        simp only [CodeRange.contains, Bool.and_eq_true, decide_eq_true_eq] at inside
        have letter := not_neutral_ofNat (List.all_eq_true.mp avoids _ listed) inside.1 inside.2
          (Nat.mod_one _)
        rw [Char.ofNat_toNat] at letter
        exact absurd neutral letter
  rcases disguises c with same | ⟨before, after⟩
  · rw [same]
  · rw [letters c before, letters _ after]

theorem Disguises.casedNext (text : List Char) : casedNext (text.map change) = casedNext text := by
  have sameIgnorable : Text.isCaseIgnorable ∘ change = Text.isCaseIgnorable :=
    funext disguises.isCaseIgnorable
  rw [Text.casedNext, Text.casedNext, List.dropWhile_map, sameIgnorable]
  cases text.dropWhile Text.isCaseIgnorable with
  | nil => rfl
  | cons c rest => exact disguises.isCased c

theorem Disguises.lowerAfter (before text : List Char) :
    lowerAfter (before.map change) (text.map change) = (lowerAfter before text).map change := by
  induction text generalizing before with
  | nil => rfl
  | cons c rest ih =>
      have later := ih (c :: before)
      rw [List.map_cons] at later
      rw [List.map_cons, Text.lowerAfter, Text.lowerAfter, later, List.map_append,
        disguises.casedNext, disguises.casedNext]
      congr 1
      simp only [disguises.eq_iff (show ¬ Neutral 'Σ' by decide +kernel)]
      split
      · split
        · rw [List.map_singleton, disguises.fixed (by decide +kernel)]
        · rw [List.map_singleton, disguises.fixed (by decide +kernel)]
      · exact (disguises.map_maps maps_lowerChar c).symm

theorem Disguises.upper (text : List Char) : upper (text.map change) = (upper text).map change := by
  rw [Text.upper, Text.upper, List.flatMap_map, List.map_flatMap]
  exact List.flatMap_congr fun c _ => (disguises.map_maps maps_upperChar c).symm

theorem Disguises.trimStart (text : List Char) :
    trimStart (text.map change) = (trimStart text).map change := by
  have sameBlank : Text.isBlank ∘ change = Text.isBlank := funext disguises.isBlank
  rw [Text.trimStart, Text.trimStart, List.dropWhile_map, sameBlank]

theorem Disguises.trimEnd (text : List Char) :
    trimEnd (text.map change) = (trimEnd text).map change := by
  have sameBlank : Text.isBlank ∘ change = Text.isBlank := funext disguises.isBlank
  rw [Text.trimEnd, Text.trimEnd, ← List.map_reverse, List.dropWhile_map, sameBlank,
    List.map_reverse]

theorem Disguises.titleFrom (wordStart : Bool) (text : List Char) :
    Formatter.titleFrom wordStart (text.map change) =
      (Formatter.titleFrom wordStart text).map change := by
  induction text generalizing wordStart with
  | nil => rfl
  | cons c rest ih =>
      have apostrophe : (change c != '\'' && change c != '\u2019') = (c != '\'' && c != '\u2019') := by
        have straight : change c = '\'' ↔ c = '\'' := disguises.eq_iff (by decide +kernel)
        have curved : change c = '\u2019' ↔ c = '\u2019' := disguises.eq_iff (by decide +kernel)
        rw [Bool.eq_iff_iff]
        simp [straight, curved]
      rw [List.map_cons, Formatter.titleFrom, Formatter.titleFrom, disguises.isAlphanumeric,
        apostrophe]
      split
      · rw [List.map_append, ih]
        congr 1
        split
        · exact (disguises.map_maps maps_upperChar c).symm
        · exact (disguises.map_maps maps_lowerChar c).symm
      · rw [List.map_cons, ih]

end Disguises

end Text

open Text (Disguises)

/-- Formatting a disguised value is disguising the formatted one. -/
theorem Formatter.apply_map {change : Char → Char} (disguises : Disguises change)
    (formatter : Formatter) (value : String) :
    formatter.apply (value.map change) = (formatter.apply value).map change := by
  have chars : formatter.applyChars (value.toList.map change) =
      (formatter.applyChars value.toList).map change := by
    cases formatter with
    | lower => exact disguises.lowerAfter [] value.toList
    | upper => exact disguises.upper value.toList
    | title => exact disguises.titleFrom true value.toList
    | capitalize =>
        rw [applyChars, applyChars, Text.trim, Text.trim, disguises.trimStart, disguises.trimEnd]
        cases Text.trimEnd (Text.trimStart value.toList) with
        | nil => rfl
        | cons c rest =>
            have first := disguises.map_maps Text.maps_upperChar c
            have others := disguises.lowerAfter [] rest
            rw [List.map_cons, capitalizeChars, capitalizeChars, List.map_append, first, Text.lower,
              Text.lower, ← others]
            rfl
  rw [apply, apply, String.toList_map, chars, ← String.toList_inj]
  simp

theorem Placeholder.format_map {change : Char → Char} (disguises : Disguises change)
    (placeholder : Placeholder) (value : String) :
    placeholder.format (value.map change) = (placeholder.format value).map change := by
  rw [format, format]
  split
  · exact Formatter.apply_map disguises _ value
  · rfl

end WordTemplate
