import WordTemplate.Proofs.Filling.MaskedInline
import WordTemplate.Proofs.Filling.MaskedLines
import WordTemplate.Proofs.Filling.MaskedRows
import WordTemplate.Proofs.Filling.MaskedStart

/-! Values as inert data. Filling a document with values whose braces are hidden behind other characters, and
revealing the braces afterwards, is the same as filling it with the values themselves, if no value holds two
opening braces side by side or ends in one. -/

namespace WordTemplate

open Markup

namespace Mask.Covers

variable {mask : Mask} {gone : Nat → Prop} {shown hidden : Document} {params : Params}

theorem passes (covers : mask.Covers gone shown hidden) (ready : Filling.Hidden mask params) :
    mask.Covers gone
      (Filling.sweepUnset (Filling.fillSingles (Filling.fillInline (Filling.expandLeftovers
        (Filling.expandRows (Filling.fillSingles shown (params.recode mask.reveal))
          (params.recode mask.reveal)).1 (params.recode mask.reveal)).1 (params.recode mask.reveal))
        (params.recode mask.reveal)) (params.recode mask.reveal))
      (Filling.sweepUnset (Filling.fillSingles (Filling.fillInline (Filling.expandLeftovers
        (Filling.expandRows (Filling.fillSingles hidden params) params).1 params).1 params) params)
        params) := by
  have filled := covers.fillSingles ready
  have expanded := (filled.expandRows ready.keyed).expandLeftovers ready.keyed
  have refilled := (expanded.fillInline ready.toMasked).fillSingles ready
  exact refilled.sweepUnset params

end Mask.Covers

namespace Filling

variable {mask : Mask} {params : Params} {document : Document}

/-- Filling with masked values and revealing the braces in the end is filling with the values revealed. -/
theorem fill_reveal (ready : Hidden mask params) (topped : Wordml.Topped document)
    (fixed : document.FixedBy mask.reveal) (tidy : (prepare document).LiveSlots Placeholder.Tidy) :
    fill document (params.recode mask.reveal) = (fill document params).recode mask.reveal := by
  have start := Mask.covers_self (Wordml.topped_repairRuns (topped_markLists topped))
    (Wordml.fixedBy_repairRuns mask.disguises_reveal (fixedBy_markLists fixed)) tidy
  have covers := start.passes ready
  rw [fill, fill]
  rw [← covers.reveals, splitLines_recode mask.disguises_reveal, stripMarks_recode]

/-- Values are put in as they are and never read as markers. -/
theorem fill_eq_reveal_fill_hide (mask : Mask) (topped : Wordml.Topped document)
    (fresh : document.FixedBy mask.reveal) (tidy : (prepare document).LiveSlots Placeholder.Tidy)
    (keyed : params.Keyed)
    (free : ∀ param ∈ params.all, param.isScalar = true → mask.Free param.value.toList)
    (apart : ∀ param ∈ params.all, param.isScalar = true →
      Apart '{' (Text.trimEnd param.value.toList))
    (images : ∀ param ∈ params.all, param.isResolvedImage = true → SkippedMarkup mask param.value) :
    fill document params = (fill document (params.recode mask.hide)).recode mask.reveal := by
  have masked := Params.masked_recode keyed free apart
  have ready : Hidden mask (params.recode mask.hide) := by
    refine ⟨masked, fun param member resolved => ?_⟩
    rw [Params.all_recode] at member
    obtain ⟨origin, listed, rfl⟩ := List.mem_map.mp member
    rw [Param.isResolvedImage_recode] at resolved
    have image : origin.image?.isSome = true := (Bool.and_eq_true_iff.mp resolved).1
    rw [Param.value_recode, Param.isScalar_of_image? image, if_neg (by decide)]
    exact images origin listed resolved
  rw [← fill_reveal ready topped fresh tidy, Params.recode_hide_recode_reveal free]

/-- Square brackets in the place of braces. -/
def brackets : Mask where
  opening := '['
  closing := ']'
  neutral_opening := by decide +kernel
  neutral_closing := by decide +kernel
  plain_opening := by decide
  plain_closing := by decide
  differ := by decide

def greetingText : String :=
  "<w:document><w:body><w:p><w:r><w:t>\x7b\x7bA\x7d\x7d</w:t></w:r></w:p></w:body></w:document>"

def greeting : Document :=
  Document.ofTree false <|
    .node { tag := "w:document" } [.node { tag := "w:body" } [.node { tag := "w:p" }
      [.node { tag := "w:r" } [.node { tag := "w:t", text := "\x7b\x7bA\x7d\x7d" } []]]]]

theorem fixedBy_greeting : greeting.FixedBy brackets.reveal :=
  Document.fixedBy_of_nodes (by decide +kernel)

/-- Parameters of which one has braces in its value. -/
def bracedParams (value : String) : Params :=
  .ofMembers [("A", .string value), ("B", .string "x")]

theorem fill_eq_reveal_fill_hide_single :
    fill greeting (bracedParams "\x7bB\x7d\x7d") =
        (fill greeting ((bracedParams "\x7bB\x7d\x7d").recode brackets.hide)).recode
          brackets.reveal ∧
      (fill greeting (bracedParams "\x7bB\x7d\x7d")).allText greeting.root = "\x7bB\x7d\x7d" := by
  have parsed : Document.parse greetingText = .ok greeting := by cbv
  have tidy : (prepare greeting).LiveSlots Placeholder.Tidy :=
    Document.slots_of_lt_size (by decide +kernel) (by decide +kernel)
  refine ⟨fill_eq_reveal_fill_hide brackets (Wordml.topped_of_parse parsed) fixedBy_greeting tidy
    (Params.keyed_ofMembers _) ?_ ?_ ?_, by decide +kernel⟩
  · decide +kernel
  · have trimmed : ∀ param ∈ (bracedParams "\x7bB\x7d\x7d").all,
        Text.trimEnd param.value.toList ∈ [['{', 'B', '}', '}'], ['x']] := by decide +kernel
    have apart : ∀ text ∈ [['{', 'B', '}', '}'], ['x']], Apart '{' text := by
      simp [apart_cons, apart_of_not_mem]
    exact fun param listed _ => apart _ (trimmed param listed)
  · have unresolved : ∀ param ∈ (bracedParams "\x7bB\x7d\x7d").all, param.isResolvedImage = false := by
      decide +kernel
    intro param listed resolved
    rw [unresolved param listed] at resolved
    exact absurd resolved (by decide)

/-- A value with a whole marker in it is read again when single placeholders are filled once more. -/
theorem fill_ne_reveal_fill_hide_marker :
    Document.parse greetingText = .ok greeting ∧
      Params.ofJson (.object [("A", .string "\x7b\x7bB\x7d\x7d"), ("B", .string "x")]) =
        .ok (bracedParams "\x7b\x7bB\x7d\x7d") ∧
      greeting.FixedBy brackets.reveal ∧
      (∀ param ∈ (bracedParams "\x7b\x7bB\x7d\x7d").all,
        brackets.Free param.key.toList ∧ brackets.Free param.value.toList) ∧
      (fill greeting (bracedParams "\x7b\x7bB\x7d\x7d")).allText greeting.root = "x" ∧
      ((fill greeting ((bracedParams "\x7b\x7bB\x7d\x7d").recode brackets.hide)).recode
        brackets.reveal).allText greeting.root = "\x7b\x7bB\x7d\x7d" :=
  ⟨by cbv, rfl, fixedBy_greeting, by decide +kernel, by decide +kernel, by decide +kernel⟩

end Filling

end WordTemplate
