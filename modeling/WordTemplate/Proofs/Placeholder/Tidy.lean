import WordTemplate.Proofs.Placeholder.Braceless
import WordTemplate.Proofs.Placeholder.Cutting

/-! Tidy texts, in which every brace belongs to a placeholder. They are the texts that are put together
from placeholders and braceless stretches, and stay tidy when placeholders are filled. A tidy text
lacks the placeholders that it is not put together from, and so does every part of it. -/

namespace WordTemplate

namespace Piece

def Neat : Piece → Prop
  | literal text => Braceless text
  | marker placeholder => placeholder.Proper

/-- How a piece is cut, character by character outside of placeholders. -/
def singles : Piece → List Piece
  | literal text => text.map fun c => literal [c]
  | marker placeholder => [marker placeholder]

theorem sources_append (front back : List Piece) :
    sources (front ++ back) = sources front ++ sources back :=
  List.flatMap_append

theorem cutMarker?_of_plain {c : Char} (plain : isBrace c = false) (rest : List Char) :
    cutMarker? (c :: rest) = none := by
  cases cut : cutMarker? (c :: rest) with
  | none => rfl
  | some parts =>
      obtain ⟨body, after⟩ := parts
      obtain ⟨whole, -⟩ := cutMarker?_eq_some.mp cut
      simp only [List.cons_append, List.cons.injEq] at whole
      rw [whole.1] at plain
      exact absurd plain (by decide)

theorem split_append_of_braceless {text : List Char} (plain : Braceless text) (rest : List Char) :
    split (text ++ rest) = (text.map fun c => literal [c]) ++ split rest := by
  induction text with
  | nil => rfl
  | cons c others ih =>
      obtain ⟨first, later⟩ := braceless_cons.mp plain
      rw [List.cons_append, split_literal (cutMarker?_of_plain first _), ih later]
      rfl

/-- Neat pieces are found again in the text that they make up. -/
theorem split_sources {pieces : List Piece} (neat : ∀ piece ∈ pieces, piece.Neat) :
    split (sources pieces) = pieces.flatMap singles := by
  induction pieces with
  | nil => exact split_nil
  | cons piece rest ih =>
      have first := neat piece (by simp)
      have others := ih fun other member => neat other (by simp [member])
      rw [sources_cons, List.flatMap_cons, ← others]
      cases piece with
      | literal text => exact split_append_of_braceless first _
      | marker placeholder =>
          have proper : placeholder.Proper := first
          have cut := split_marker proper.plain (sources rest)
          rw [ofMarker, proper.reads] at cut
          simpa [source, Placeholder.toList_source, singles] using cut

theorem scan_sources {pieces : List Piece} (neat : ∀ piece ∈ pieces, piece.Neat) :
    Placeholder.scan (String.ofList (sources pieces)) = pieces.filterMap placeholder? := by
  rw [Placeholder.scan, ofText, String.toList_ofList, split_sources neat]
  clear neat
  induction pieces with
  | nil => rfl
  | cons piece rest ih =>
      rw [List.flatMap_cons, List.filterMap_append, ih]
      cases piece with
      | literal text =>
          have none : (text.map fun c => literal [c]).filterMap placeholder? = [] := by
            simp [List.filterMap_map, Function.comp_def, placeholder?]
          rw [singles, none, List.nil_append, List.filterMap_cons]
          rfl
      | marker placeholder => simp [singles, placeholder?]

end Piece

namespace Placeholder

theorem cutChain_append (text : List Char) : (cutChain text).1 ++ (cutChain text).2 = text := by
  induction text with
  | nil => rfl
  | cons c rest ih =>
      rw [cutChain]
      split
      · rfl
      · simp [ih]

theorem separator_subset_of_readSuffix? {suffix : List Char} {separator : String}
    {modifiers : List String} (read : readSuffix? suffix = some (some separator, modifiers)) :
    separator.toList ⊆ suffix := by
  have before : (cutChain suffix).1 ⊆ suffix := by
    have inside := List.subset_append_left (cutChain suffix).1 (cutChain suffix).2
    rwa [cutChain_append] at inside
  have trimmedStart : Text.trimStart (cutChain suffix).1 ⊆ suffix :=
    List.Subset.trans (List.dropWhile_suffix _).subset before
  have trimmedEnd : Text.trimEnd (Text.trimStart (cutChain suffix).1) ⊆ suffix := by
    intro c member
    rw [Text.trimEnd, List.mem_reverse] at member
    exact trimmedStart (List.mem_reverse.mp ((List.dropWhile_suffix _).subset member))
  simp only [readSuffix?] at read
  have chosen : (if (cutChain suffix).2.isEmpty then Text.trimStart (cutChain suffix).1
      else Text.trimEnd (Text.trimStart (cutChain suffix).1)) ⊆ suffix := by
    split
    · exact trimmedStart
    · exact trimmedEnd
  generalize (if (cutChain suffix).2.isEmpty then Text.trimStart (cutChain suffix).1
      else Text.trimEnd (Text.trimStart (cutChain suffix).1)) = found at read chosen
  by_cases words : found.any Text.isWordChar = true
  · simp [words] at read
  · by_cases empty : found.isEmpty = true
    · simp [words, empty] at read
    · simp only [words, empty, Bool.false_eq_true, if_false, Option.some.injEq, Prod.mk.injEq] at read
      rw [← read.1, String.toList_ofList]
      exact chosen

theorem separator_subset_of_readKeyed? {asksKey : Bool} {text : List Char}
    {placeholder : Placeholder} (read : readKeyed? asksKey text = some placeholder)
    {separator : String} (asked : placeholder.separator = some separator) :
    separator.toList ⊆ text := by
  rw [readKeyed?] at read
  cases cut : cutKey text with
  | mk key suffix =>
      rw [cut] at read
      by_cases empty : key.isEmpty = true
      · simp [empty] at read
      · have filled : (cutKey text).1 ≠ [] := by
          rw [cut]
          simpa using empty
        have whole := (cutKey_spec filled).1
        rw [cut] at whole
        have behind : suffix ⊆ text := whole ▸ List.subset_append_right key suffix
        simp only [empty, Bool.false_eq_true, if_false] at read
        split at read
        · cases read
          simp at asked
        · rename_i rest
          simp only [Option.bind_eq_bind, Option.bind_eq_some_iff, Option.pure_def,
            Option.some.injEq] at read
          obtain ⟨⟨found, modifiers⟩, suffixRead, rfl⟩ := read
          simp only at asked
          subst asked
          have inRest := separator_subset_of_readSuffix? suffixRead
          exact List.Subset.trans inRest (List.Subset.trans (List.subset_cons_self ' ' rest) behind)
        · simp at read

theorem Proper.separator_subset {placeholder : Placeholder} (proper : placeholder.Proper)
    {separator : String} (asked : placeholder.separator = some separator) :
    separator.toList ⊆ placeholder.body := by
  have reads := proper.reads
  unfold ofBody? at reads
  split at reads
  · rename_i rest same
    rw [same]
    exact List.Subset.trans (separator_subset_of_readKeyed? reads asked) (List.subset_cons_self ..)
  · exact separator_subset_of_readKeyed? reads asked

theorem Proper.braceless_separator {placeholder : Placeholder} (proper : placeholder.Proper)
    {separator : String} (asked : placeholder.separator = some separator) :
    Braceless separator.toList :=
  Braceless.subset proper.plain (proper.separator_subset asked)

open Piece (Neat sources)

/-- Every brace of the text belongs to one of its placeholders. -/
def Tidy (text : String) : Prop :=
  ∀ content, Piece.literal content ∈ Piece.ofText text → Braceless content

instance (text : String) : Decidable (Tidy text) :=
  decidable_of_iff ((Piece.ofText text).all fun
      | .literal content => decide (Braceless content)
      | .marker _ => true) <| by
    rw [List.all_eq_true]
    constructor
    · intro plain content member
      simpa using plain _ member
    · intro tidy piece member
      cases piece with
      | literal content => simpa using tidy content member
      | marker placeholder => rfl

theorem tidy_ofList_sources {pieces : List Piece} (neat : ∀ piece ∈ pieces, piece.Neat) :
    Tidy (String.ofList (sources pieces)) := by
  intro content member
  rw [Piece.ofText, String.toList_ofList, Piece.split_sources neat] at member
  obtain ⟨piece, listed, cut⟩ := List.mem_flatMap.mp member
  cases piece with
  | literal text =>
      have plain : Braceless text := neat _ listed
      obtain ⟨c, inside, same⟩ := List.mem_map.mp cut
      cases same
      exact braceless_cons.mpr ⟨plain c inside, braceless_nil⟩
  | marker placeholder => simp [Piece.singles] at cut

theorem Tidy.neat {text : String} (tidy : Tidy text) : ∀ piece ∈ Piece.ofText text, piece.Neat := by
  intro piece member
  cases piece with
  | literal content => exact tidy content member
  | marker placeholder => exact (Piece.cuts_split _).proper placeholder member

/-- Tidy texts that are put together are cut as they were. -/
theorem Tidy.ofText_append {front back : String} (first : Tidy front) (second : Tidy back) :
    Piece.ofText (front ++ back) = Piece.ofText front ++ Piece.ofText back := by
  have whole (text : String) (tidy : Tidy text) :
      Piece.ofText text = (Piece.ofText text).flatMap Piece.singles := by
    rw [← Piece.split_sources tidy.neat, Piece.ofText, Piece.sources_split]
  rw [whole front first, whole back second, ← List.flatMap_append, ← Piece.split_sources,
    Piece.sources_append, Piece.ofText, Piece.ofText, Piece.ofText, Piece.sources_split,
    Piece.sources_split, String.toList_append]
  exact List.forall_mem_append.mpr ⟨first.neat, second.neat⟩

/-- The text is tidy, and none of its placeholders has an addressed key. -/
structure Filled (addressed : String → Prop) (text : String) : Prop where
  tidy : Tidy text
  scan : ∀ placeholder ∈ scan text, ¬ addressed placeholder.key

theorem filled_iff {addressed : String → Prop} {text : String} :
    Filled addressed text ↔ ∃ pieces, sources pieces = text.toList ∧
      (∀ piece ∈ pieces, piece.Neat) ∧
      ∀ placeholder, Piece.marker placeholder ∈ pieces → ¬ addressed placeholder.key := by
  constructor
  · intro filled
    refine ⟨Piece.ofText text, Piece.sources_split _, filled.tidy.neat, ?_⟩
    intro placeholder member
    exact filled.scan placeholder (Piece.mem_scan_iff.mpr member)
  · rintro ⟨pieces, whole, neat, free⟩
    have same : text = String.ofList (sources pieces) := by rw [whole, String.ofList_toList]
    subst same
    refine ⟨tidy_ofList_sources neat, ?_⟩
    intro placeholder member
    rw [Piece.scan_sources neat] at member
    exact free placeholder (Piece.mem_filterMap_placeholder?.mp member)

theorem Tidy.filled {text : String} (tidy : Tidy text) : Filled (fun _ => False) text :=
  ⟨tidy, by simp⟩

variable {addressed : String → Prop}

theorem filled_of_braceless {text : String} (plain : Braceless text.toList) :
    Filled addressed text :=
  filled_iff.mpr ⟨[.literal text.toList], by simp [Piece.source], by simpa [Neat] using plain, by simp⟩

theorem scan_of_braceless {text : String} (plain : Braceless text.toList) : scan text = [] := by
  have filled : Filled (fun _ => True) text := filled_of_braceless plain
  exact List.eq_nil_iff_forall_not_mem.mpr fun placeholder member => filled.scan placeholder member trivial

@[simp]
theorem scan_empty : scan "" = [] :=
  scan_of_braceless braceless_nil

theorem filled_append {front back : String} (first : Filled addressed front)
    (second : Filled addressed back) : Filled addressed (front ++ back) := by
  obtain ⟨pieces, whole, neat, free⟩ := filled_iff.mp first
  obtain ⟨others, whole', neat', free'⟩ := filled_iff.mp second
  refine filled_iff.mpr ⟨pieces ++ others, ?_, ?_, ?_⟩
  · rw [Piece.sources_append, whole, whole', String.toList_append]
  · intro piece member
    exact (List.mem_append.mp member).elim (neat piece) (neat' piece)
  · intro placeholder member
    exact (List.mem_append.mp member).elim (free placeholder) (free' placeholder)

theorem filled_join {texts : List String} (filled : ∀ text ∈ texts, Filled addressed text) :
    Filled addressed (String.join texts) := by
  induction texts with
  | nil => exact filled_of_braceless (by simp [Braceless])
  | cons text rest ih =>
      rw [String.join_cons]
      exact filled_append (filled text (by simp)) (ih fun other member => filled other (by simp [member]))

/-- What takes the place of a placeholder: a text without braces, or the placeholder as it is. -/
def Replaces (addressed : String → Prop) (replace : Placeholder → String)
    (placeholder : Placeholder) : Prop :=
  Braceless (replace placeholder).toList ∨
    replace placeholder = placeholder.source ∧ ¬ addressed placeholder.key

theorem filled_piece {replace : Placeholder → String} {placeholder : Placeholder}
    (proper : placeholder.Proper) (replaces : Replaces addressed replace placeholder) :
    Filled addressed (replace placeholder) := by
  rcases replaces with plain | ⟨same, free⟩
  · exact filled_of_braceless plain
  · rw [same]
    refine filled_iff.mpr ⟨[.marker placeholder], by simp [Piece.source], ?_, ?_⟩
    · simpa [Neat] using proper
    · simpa using free

/-- Filling placeholders keeps a text tidy, and leaves none of those that were filled. -/
theorem filled_render {replace : Placeholder → String} {text : String} (tidy : Tidy text)
    (replaces : ∀ placeholder ∈ scan text, Replaces addressed replace placeholder) :
    Filled addressed (Piece.render replace (Piece.ofText text)) := by
  have written : Piece.render replace (Piece.ofText text) =
      String.join ((Piece.ofText text).map fun
        | .literal content => String.ofList content
        | .marker placeholder => replace placeholder) := by
    rw [← String.toList_inj, Piece.render, String.toList_ofList, String.toList_join, List.flatMap_map]
    apply List.flatMap_congr
    intro piece _
    cases piece <;> simp
  rw [written]
  apply filled_join
  intro part member
  obtain ⟨piece, listed, rfl⟩ := List.mem_map.mp member
  cases piece with
  | literal content =>
      exact filled_of_braceless (by rw [String.toList_ofList]; exact tidy content listed)
  | marker placeholder =>
      have scanned : placeholder ∈ scan text := Piece.mem_scan_iff.mpr listed
      exact filled_piece (Piece.proper_of_mem_scan scanned) (replaces placeholder scanned)

/-- No stretch of the text reads as a placeholder with an addressed key. Unlike the placeholders that
are found from left to right, this is the same for every part of a text. -/
def Lacks (addressed : String → Prop) (text : List Char) : Prop :=
  ∀ body after, '{' :: '{' :: body ++ '}' :: '}' :: after <:+ text → Braceless body →
    ∀ placeholder, ofBody? body = some placeholder → ¬ addressed placeholder.key

theorem lacks_of_no_opening {text : List Char}
    (none : ¬ ['{', '{'] <:+: text) : Lacks addressed text := by
  intro body after behind _ _ _
  refine absurd (List.IsInfix.trans ?_ behind.isInfix) none
  exact ⟨[], body ++ '}' :: '}' :: after, by simp⟩

theorem Lacks.infix {text part : List Char} (lacks : Lacks addressed text)
    (inside : part <:+: text) : Lacks addressed part := by
  obtain ⟨before, behind, rfl⟩ := inside
  intro body after ⟨front, whole⟩ plain
  apply lacks body (after ++ behind) _ plain
  refine ⟨before ++ front, ?_⟩
  simp [← whole]

theorem Lacks.scan {text : String} (lacks : Lacks addressed text.toList) :
    ∀ placeholder ∈ Placeholder.scan text, ¬ addressed placeholder.key := by
  suffices ∀ {rest : List Char} {pieces : List Piece}, Piece.Cuts rest pieces → rest <:+ text.toList →
      ∀ placeholder, Piece.marker placeholder ∈ pieces → ¬ addressed placeholder.key by
    exact fun placeholder member =>
      this (Piece.cuts_split _) List.suffix_rfl placeholder (Piece.mem_scan_iff.mp member)
  intro rest pieces cuts
  induction cuts with
  | nil => simp
  | @marker body after pieces plain _ ih =>
      intro behind placeholder member
      rcases List.mem_cons.mp member with here | later
      · apply lacks body after behind plain
        rw [Piece.ofMarker] at here
        cases read : ofBody? body with
        | none => simp [read] at here
        | some found => simpa [read] using here.symm
      · refine ih (List.IsSuffix.trans ?_ behind) placeholder later
        exact ⟨'{' :: '{' :: body ++ ['}', '}'], by simp⟩
  | @literal c after pieces _ _ ih =>
      intro behind placeholder member
      rcases List.mem_cons.mp member with here | later
      · simp at here
      · exact ih ((List.suffix_cons c after).trans behind) placeholder later

theorem suffix_of_no_opening {front rest tail : List Char} (none : ∀ c ∈ front, c ≠ '{')
    (behind : '{' :: tail <:+ front ++ rest) : '{' :: tail <:+ rest := by
  induction front with
  | nil => exact behind
  | cons c others ih =>
      rcases List.suffix_cons_iff.mp behind with here | later
      · exact absurd (List.cons.inj here).1.symm (none c (by simp))
      · exact ih (fun other member => none other (by simp [member])) later

theorem ne_opening_of_plain {c : Char} (plain : Piece.isBrace c = false) : c ≠ '{' := by
  rintro rfl
  exact absurd plain (by decide)

/-- A stretch that starts in a placeholder and reads as one is the placeholder itself, or starts behind
it. -/
theorem suffix_of_marker {placeholder : Placeholder} (proper : placeholder.Proper)
    {body after rest : List Char} (plain : ∀ c ∈ body, Piece.isBrace c = false)
    (behind : '{' :: '{' :: body ++ '}' :: '}' :: after <:+
      (Piece.marker placeholder).source ++ rest) :
    body = placeholder.body ∨ '{' :: '{' :: body ++ '}' :: '}' :: after <:+ rest := by
  have whole : (Piece.marker placeholder).source ++ rest =
      '{' :: '{' :: placeholder.body ++ '}' :: '}' :: rest := by
    simp [Piece.source, toList_source]
  rw [whole] at behind
  simp only [List.cons_append] at behind
  rcases List.suffix_cons_iff.mp behind with here | inside
  · left
    have cut := Piece.cutMarker?_eq_some.mpr ⟨here.symm, plain⟩
    have own := Piece.cutMarker?_eq_some.mpr
      ⟨(rfl : '{' :: '{' :: placeholder.body ++ '}' :: '}' :: rest = _), proper.plain⟩
    rw [List.cons_append, List.cons_append, cut, Option.some.injEq, Prod.mk.injEq] at own
    exact own.1
  · right
    rcases List.suffix_cons_iff.mp inside with here | deeper
    · -- One brace further on, the body would have to start with a brace.
      exfalso
      have next := (List.cons.inj here).2
      cases start : placeholder.body with
      | nil =>
          rw [start, List.nil_append, List.cons.injEq] at next
          exact absurd next.1 (by decide)
      | cons c others =>
          rw [start, List.cons_append, List.cons.injEq] at next
          exact ne_opening_of_plain (proper.plain c (by simp [start])) next.1.symm
    · have split : placeholder.body ++ '}' :: '}' :: rest = (placeholder.body ++ ['}', '}']) ++ rest := by
        simp
      rw [split] at deeper
      refine suffix_of_no_opening (fun c member => ?_) deeper
      rcases List.mem_append.mp member with inBody | closing
      · exact ne_opening_of_plain (proper.plain c inBody)
      · simp only [List.mem_cons, List.not_mem_nil, or_false, or_self] at closing
        rw [closing]
        decide

theorem lacks_sources {pieces : List Piece} (neat : ∀ piece ∈ pieces, piece.Neat)
    (free : ∀ placeholder, Piece.marker placeholder ∈ pieces → ¬ addressed placeholder.key) :
    Lacks addressed (sources pieces) := by
  induction pieces with
  | nil =>
      intro body after inside
      simp at inside
  | cons piece rest ih =>
      have others := ih (fun other member => neat other (by simp [member]))
        fun placeholder member => free placeholder (by simp [member])
      have first := neat piece (by simp)
      intro body after behind plain
      rw [Piece.sources_cons] at behind
      cases piece with
      | literal text =>
          refine others body after (suffix_of_no_opening ?_ behind) plain
          intro c member
          exact ne_opening_of_plain (first c member)
      | marker placeholder =>
          have proper : placeholder.Proper := first
          rcases suffix_of_marker proper plain behind with rfl | later
          · intro other read
            rw [proper.reads, Option.some.injEq] at read
            exact read ▸ free placeholder (by simp)
          · exact others body after later plain

theorem Filled.lacks {text : String} (filled : Filled addressed text) :
    Lacks addressed text.toList := by
  obtain ⟨pieces, whole, neat, free⟩ := filled_iff.mp filled
  exact whole ▸ lacks_sources neat free

end Placeholder

end WordTemplate
