import WordTemplate.Proofs.Placeholder.Apart
import WordTemplate.Proofs.Placeholder.Tidy

/-! Masks, which put two other characters in the place of the braces of values. A text in which all that
stands for an opening brace is followed by something else has the same placeholders as the text with the
braces that are meant. -/

namespace WordTemplate

open Piece (sources singles)

def Piece.recode (change : Char → Char) : Piece → Piece
  | literal text => literal (text.map change)
  | marker placeholder => marker placeholder

/-- Two characters that stand for braces, and of which formatting takes as little notice. -/
structure Mask where
  opening : Char
  closing : Char
  neutral_opening : Text.Neutral opening
  neutral_closing : Text.Neutral closing
  plain_opening : Piece.isBrace opening = false
  plain_closing : Piece.isBrace closing = false
  differ : closing ≠ opening

namespace Mask

variable (mask : Mask)

def hide (c : Char) : Char :=
  if c = '{' then mask.opening else if c = '}' then mask.closing else c

def reveal (c : Char) : Char :=
  if c = mask.opening then '{' else if c = mask.closing then '}' else c

/-- Holds of a text that is the same when the mask is taken off. -/
def Free (text : List Char) : Prop :=
  ∀ c ∈ text, c ≠ mask.opening ∧ c ≠ mask.closing

instance (text : List Char) : Decidable (mask.Free text) :=
  List.decidableBAll _ text

theorem disguises_hide : Text.Disguises mask.hide := by
  intro c
  simp only [hide]
  split
  · rename_i same
    exact .inr ⟨same ▸ by decide +kernel, mask.neutral_opening⟩
  · split
    · rename_i same
      exact .inr ⟨same ▸ by decide +kernel, mask.neutral_closing⟩
    · exact .inl rfl

theorem disguises_reveal : Text.Disguises mask.reveal := by
  intro c
  simp only [reveal]
  split
  · rename_i same
    exact .inr ⟨same ▸ mask.neutral_opening, by decide +kernel⟩
  · split
    · rename_i same
      exact .inr ⟨same ▸ mask.neutral_closing, by decide +kernel⟩
    · exact .inl rfl

variable {mask}

theorem Free.subset {text part : List Char} (free : mask.Free text) (inside : part ⊆ text) :
    mask.Free part :=
  fun c member => free c (inside member)

theorem free_append {front back : List Char} :
    mask.Free (front ++ back) ↔ mask.Free front ∧ mask.Free back :=
  List.forall_mem_append

theorem free_of_not_neutral {text : List Char} (letters : ∀ c ∈ text, ¬ Text.Neutral c) :
    mask.Free text := by
  intro c member
  refine ⟨?_, ?_⟩
  · rintro rfl
    exact letters _ member mask.neutral_opening
  · rintro rfl
    exact letters _ member mask.neutral_closing

theorem reveal_of_free {c : Char} (free : c ≠ mask.opening ∧ c ≠ mask.closing) :
    mask.reveal c = c := by
  rw [reveal, if_neg free.1, if_neg free.2]

theorem map_reveal_chars {text : List Char} (free : mask.Free text) : text.map mask.reveal = text :=
  (List.map_congr_left fun c member => reveal_of_free (free c member)).trans (List.map_id text)

theorem map_reveal {text : String} (free : mask.Free text.toList) : text.map mask.reveal = text := by
  rw [← String.toList_inj, String.toList_map, map_reveal_chars free]

theorem free_of_map_reveal {text : String} (same : text.map mask.reveal = text) :
    mask.Free text.toList := by
  have chars : text.toList.map mask.reveal = text.toList.map id := by
    rw [List.map_id, ← String.toList_map, same]
  intro c member
  have fixed : mask.reveal c = c := List.map_inj_left.mp chars c member
  refine ⟨?_, ?_⟩
  · rintro rfl
    have plain := mask.plain_opening
    rw [← fixed, reveal, if_pos rfl] at plain
    exact absurd plain (by decide)
  · rintro rfl
    have plain := mask.plain_closing
    rw [← fixed, reveal, if_neg mask.differ, if_pos rfl] at plain
    exact absurd plain (by decide)

theorem reveal_hide {c : Char} (free : c ≠ mask.opening ∧ c ≠ mask.closing) :
    mask.reveal (mask.hide c) = c := by
  simp only [hide]
  split
  · rename_i same
    rw [reveal, if_pos rfl, same]
  · split
    · rename_i same
      rw [reveal, if_neg mask.differ, if_pos rfl, same]
    · exact reveal_of_free free

theorem map_reveal_hide {text : String} (free : mask.Free text.toList) :
    (text.map mask.hide).map mask.reveal = text := by
  rw [← String.toList_inj, String.toList_map, String.toList_map, List.map_map]
  exact (List.map_congr_left fun c member => reveal_hide (free c member)).trans (List.map_id _)

theorem isBrace_hide (c : Char) : Piece.isBrace (mask.hide c) = false := by
  simp only [hide]
  split
  · exact mask.plain_opening
  · rename_i notOpening
    split
    · exact mask.plain_closing
    · rename_i notClosing
      simp [Piece.isBrace, notOpening, notClosing]

theorem hide_reveal {c : Char} (plain : Piece.isBrace c = false) : mask.hide (mask.reveal c) = c := by
  simp only [reveal]
  split
  · rename_i same
    rw [hide, if_pos rfl, same]
  · split
    · rename_i same
      rw [hide, if_neg (by decide), if_pos rfl, same]
    · simp only [Piece.isBrace, Bool.or_eq_false_iff, decide_eq_false_iff_not] at plain
      rw [hide, if_neg plain.1, if_neg plain.2]

theorem reveal_ne_opening {c : Char} (plain : Piece.isBrace c = false) (other : c ≠ mask.opening) :
    mask.reveal c ≠ '{' := by
  rw [reveal, if_neg other]
  split
  · decide
  · rintro rfl
    exact absurd plain (by decide)

variable (mask)

/-- A piece that is found again when the braces in it are revealed. -/
def Calm : Piece → Prop
  | .literal text => Braceless text ∧ Apart mask.opening text
  | .marker placeholder => placeholder.Proper ∧ mask.Free placeholder.body

def Masked (text : String) : Prop :=
  ∃ pieces, sources pieces = text.toList ∧ ∀ piece ∈ pieces, mask.Calm piece

variable {mask}

theorem Calm.neat {piece : Piece} (calm : mask.Calm piece) : piece.Neat := by
  cases piece with
  | literal text => exact calm.1
  | marker placeholder => exact calm.1

theorem cutMarker?_of_single {c : Char} {rest : List Char} (single : ∀ others, c = '{' → rest ≠ '{' :: others) :
    Piece.cutMarker? (c :: rest) = none := by
  cases cut : Piece.cutMarker? (c :: rest) with
  | none => rfl
  | some parts =>
      obtain ⟨body, after⟩ := parts
      obtain ⟨whole, -⟩ := Piece.cutMarker?_eq_some.mp cut
      simp only [List.cons_append, List.cons.injEq] at whole
      exact absurd whole.2 (single _ whole.1)

/-- No placeholder starts in a literal stretch, even when its braces are revealed. -/
theorem split_literal_reveal {text : List Char} (plain : Braceless text)
    (apart : Apart mask.opening text) (rest : List Char) :
    Piece.split (text.map mask.reveal ++ rest) =
      (text.map fun c => Piece.literal [mask.reveal c]) ++ Piece.split rest := by
  induction text with
  | nil => rfl
  | cons c others ih =>
      obtain ⟨here, plainOthers⟩ := braceless_cons.mp plain
      obtain ⟨followed, apartOthers⟩ := apart_cons.mp apart
      have single : Piece.cutMarker? (mask.reveal c :: (others.map mask.reveal ++ rest)) = none := by
        refine cutMarker?_of_single fun tail isOpening whole => ?_
        by_cases same : c = mask.opening
        · obtain ⟨next, behind, rfl, different⟩ := followed same
          rw [List.map_cons, List.cons_append, List.cons.injEq] at whole
          exact reveal_ne_opening (braceless_cons.mp plainOthers).1 different whole.1
        · exact reveal_ne_opening here same isOpening
      rw [List.map_cons, List.cons_append, Piece.split_literal single, ih plainOthers apartOthers]
      rfl

theorem map_reveal_source {placeholder : Placeholder} (free : mask.Free placeholder.body) :
    placeholder.source.toList.map mask.reveal = placeholder.source.toList := by
  have brace : ∀ c, Piece.isBrace c = true → mask.reveal c = c := by
    intro c isBrace
    refine reveal_of_free ⟨?_, ?_⟩
    · rintro rfl
      rw [mask.plain_opening] at isBrace
      exact absurd isBrace (by decide)
    · rintro rfl
      rw [mask.plain_closing] at isBrace
      exact absurd isBrace (by decide)
  rw [Placeholder.toList_source]
  simp [brace '{' (by decide), brace '}' (by decide), map_reveal_chars free]

/-- Revealing the braces of calm pieces leaves the pieces where they are. -/
theorem split_sources_reveal {pieces : List Piece} (calm : ∀ piece ∈ pieces, mask.Calm piece) :
    Piece.split ((sources pieces).map mask.reveal) =
      (pieces.flatMap singles).map (Piece.recode mask.reveal) := by
  induction pieces with
  | nil => exact Piece.split_nil
  | cons piece rest ih =>
      have first := calm piece (by simp)
      have others := ih fun other member => calm other (by simp [member])
      rw [Piece.sources_cons, List.map_append, List.flatMap_cons, List.map_append, ← others]
      cases piece with
      | literal text =>
          rw [Piece.source, split_literal_reveal first.1 first.2, singles, List.map_map]
          rfl
      | marker placeholder =>
          obtain ⟨proper, free⟩ := first
          have cut := Piece.split_marker proper.plain ((sources rest).map mask.reveal)
          rw [Piece.ofMarker, proper.reads] at cut
          rw [Piece.source, map_reveal_source free, Placeholder.toList_source]
          simpa [singles, Piece.recode] using cut

theorem Masked.tidy {text : String} (masked : mask.Masked text) : Placeholder.Tidy text := by
  obtain ⟨pieces, whole, calm⟩ := masked
  have same : text = String.ofList (sources pieces) := by rw [whole, String.ofList_toList]
  exact same ▸ Placeholder.tidy_ofList_sources fun piece member => (calm piece member).neat

theorem Masked.ofText_reveal {text : String} (masked : mask.Masked text) :
    Piece.ofText (text.map mask.reveal) = (Piece.ofText text).map (Piece.recode mask.reveal) := by
  obtain ⟨pieces, whole, calm⟩ := masked
  rw [Piece.ofText, Piece.ofText, String.toList_map, ← whole, split_sources_reveal calm,
    Piece.split_sources fun piece member => (calm piece member).neat]

theorem Masked.scan_reveal {text : String} (masked : mask.Masked text) :
    Placeholder.scan (text.map mask.reveal) = Placeholder.scan text := by
  rw [Placeholder.scan, Placeholder.scan, masked.ofText_reveal, List.filterMap_map]
  refine List.filterMap_congr fun piece _ => ?_
  cases piece <;> rfl

theorem Masked.eq_of_reveal {first second : String} (masked : mask.Masked first)
    (other : mask.Masked second) (same : first.map mask.reveal = second.map mask.reveal) :
    first = second := by
  have back : ∀ {text : String}, mask.Masked text → text.toList =
      sources ((Piece.ofText (text.map mask.reveal)).map (Piece.recode mask.hide)) := by
    intro text masked
    have pieces : (Piece.ofText (text.map mask.reveal)).map (Piece.recode mask.hide) =
        Piece.ofText text := by
      rw [masked.ofText_reveal, List.map_map]
      refine (List.map_congr_left fun piece member => ?_).trans (List.map_id _)
      have neat := masked.tidy.neat piece member
      cases piece with
      | literal content =>
          have again : (content.map mask.reveal).map mask.hide = content := by
            rw [List.map_map]
            exact (List.map_congr_left fun c inside => hide_reveal (neat c inside)).trans
              (List.map_id _)
          exact congrArg Piece.literal again
      | marker placeholder => rfl
    rw [pieces]
    exact (Piece.sources_split _).symm
  rw [← String.toList_inj, back masked, back other, same]

/-! Putting masked texts together -/

theorem masked_of_apart {text : String} (plain : Braceless text.toList)
    (apart : Apart mask.opening text.toList) : mask.Masked text :=
  ⟨[.literal text.toList], by simp [Piece.source], by simpa using ⟨plain, apart⟩⟩

theorem masked_of_free {text : String} (plain : Braceless text.toList)
    (free : mask.Free text.toList) : mask.Masked text :=
  masked_of_apart plain (apart_of_not_mem fun member => (free _ member).1 rfl)

theorem masked_empty : mask.Masked "" :=
  masked_of_free (by simp [Braceless]) (by simp [Free])

theorem masked_source {placeholder : Placeholder} (proper : placeholder.Proper)
    (free : mask.Free placeholder.body) : mask.Masked placeholder.source :=
  ⟨[.marker placeholder], by simp [Piece.source], by simpa using ⟨proper, free⟩⟩

theorem Masked.append {front back : String} (first : mask.Masked front) (second : mask.Masked back) :
    mask.Masked (front ++ back) := by
  obtain ⟨pieces, whole, calm⟩ := first
  obtain ⟨others, whole', calm'⟩ := second
  refine ⟨pieces ++ others, ?_, ?_⟩
  · rw [Piece.sources_append, whole, whole', String.toList_append]
  · intro piece member
    exact (List.mem_append.mp member).elim (calm piece) (calm' piece)

theorem masked_join {texts : List String} (masked : ∀ text ∈ texts, mask.Masked text) :
    mask.Masked (String.join texts) := by
  induction texts with
  | nil => exact masked_empty
  | cons text rest ih =>
      rw [String.join_cons]
      exact (masked text (by simp)).append (ih fun other member => masked other (by simp [member]))

theorem masked_of_tidy {text : String} (tidy : Placeholder.Tidy text)
    (free : mask.Free text.toList) : mask.Masked text := by
  have whole : sources (Piece.ofText text) = text.toList := Piece.sources_split _
  refine ⟨Piece.ofText text, whole, fun piece member => ?_⟩
  have inside : piece.source ⊆ text.toList := by
    rw [← whole]
    exact fun c listed => List.mem_flatMap.mpr ⟨piece, member, listed⟩
  have neat := tidy.neat piece member
  cases piece with
  | literal content =>
      exact ⟨neat, apart_of_not_mem fun listed => (free _ (inside listed)).1 rfl⟩
  | marker placeholder =>
      refine ⟨neat, free.subset fun c listed => inside ?_⟩
      rw [Piece.source, Placeholder.toList_source]
      simp [listed]

theorem render_singles (replace : Placeholder → String) (pieces : List Piece) :
    Piece.render replace (pieces.flatMap singles) = Piece.render replace pieces := by
  rw [← String.toList_inj, Piece.toList_render, Piece.toList_render, List.flatMap_assoc]
  apply List.flatMap_congr
  intro piece _
  cases piece with
  | literal text => simp [singles, List.flatMap_map, Piece.rendered]
  | marker placeholder => simp [singles]

theorem Masked.of_mem_scan {text : String} (masked : mask.Masked text) {placeholder : Placeholder}
    (member : placeholder ∈ Placeholder.scan text) :
    placeholder.Proper ∧ mask.Free placeholder.body := by
  obtain ⟨pieces, whole, calm⟩ := masked
  have same : text = String.ofList (sources pieces) := by rw [whole, String.ofList_toList]
  rw [same, Piece.scan_sources fun piece member => (calm piece member).neat] at member
  exact calm _ (Piece.mem_filterMap_placeholder?.mp member)

theorem Masked.render {text : String} (masked : mask.Masked text) {replace : Placeholder → String}
    (each : ∀ placeholder ∈ Placeholder.scan text, mask.Masked (replace placeholder)) :
    mask.Masked (Piece.render replace (Piece.ofText text)) := by
  obtain ⟨pieces, whole, calm⟩ := masked
  have neat : ∀ piece ∈ pieces, piece.Neat := fun piece member => (calm piece member).neat
  have same : text = String.ofList (sources pieces) := by rw [whole, String.ofList_toList]
  rw [same, Piece.scan_sources neat] at each
  have written : Piece.render replace (Piece.ofText text) =
      String.join (pieces.map fun piece => String.ofList (piece.rendered replace)) := by
    rw [Piece.ofText, ← whole, Piece.split_sources neat, render_singles, ← String.toList_inj,
      Piece.toList_render, String.toList_join, List.flatMap_map]
    simp only [String.toList_ofList]
  rw [written]
  apply masked_join
  intro part member
  obtain ⟨piece, listed, rfl⟩ := List.mem_map.mp member
  cases piece with
  | literal content =>
      obtain ⟨plain, apart⟩ := calm _ listed
      exact masked_of_apart (by simpa [Piece.rendered] using plain)
        (by simpa [Piece.rendered] using apart)
  | marker placeholder =>
      rw [Piece.rendered, String.ofList_toList]
      exact each placeholder (Piece.mem_filterMap_placeholder?.mpr listed)

/-- What is put in for placeholders can be revealed before or afterwards. -/
theorem Masked.render_reveal {text : String} (masked : mask.Masked text)
    {hidden shown : Placeholder → String}
    (same : ∀ placeholder ∈ Placeholder.scan text,
      shown placeholder = (hidden placeholder).map mask.reveal) :
    Piece.render shown (Piece.ofText (text.map mask.reveal)) =
      (Piece.render hidden (Piece.ofText text)).map mask.reveal := by
  rw [masked.ofText_reveal, ← String.toList_inj, String.toList_map, Piece.toList_render,
    Piece.toList_render, List.flatMap_map, List.map_flatMap]
  apply List.flatMap_congr
  intro piece member
  cases piece with
  | literal content => rfl
  | marker placeholder =>
      have here := same placeholder (Piece.mem_filterMap_placeholder?.mpr member)
      simp [Piece.recode, Piece.rendered, here]

theorem masked_format (placeholder : Placeholder) {value : String} (plain : Braceless value.toList)
    (apart : Apart mask.opening (Text.trimEnd value.toList)) : mask.Masked (placeholder.format value) :=
  masked_of_apart (placeholder.braceless_format plain)
    (placeholder.apart_format mask.neutral_opening apart)

end Mask

end WordTemplate
