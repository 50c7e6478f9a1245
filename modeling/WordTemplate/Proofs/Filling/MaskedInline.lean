import WordTemplate.Proofs.Filling.MaskedSingles

/-! Filling inline placeholders with the braces of values hidden. The joined values are masked, and they
are the joined values of the other side with their braces shown. -/

namespace WordTemplate

open Markup

theorem Mask.masked_intercalate {mask : Mask} {separator : String} (masked : mask.Masked separator)
    {parts : List String} (each : ∀ part ∈ parts, mask.Masked part) :
    mask.Masked (separator.intercalate parts) := by
  induction parts with
  | nil => exact masked_empty
  | cons part rest ih =>
      have first := each part (by simp)
      have others := ih fun other member => each other (by simp [member])
      cases rest with
      | nil => simpa using first
      | cons next rest =>
          rw [String.intercalate_cons_cons]
          exact (first.append masked).append others

namespace Filling

variable {mask : Mask} {params : Params}

theorem masked_position {key : String} (position : Key.isPosition key = true) : mask.Masked key :=
  Mask.masked_of_free (Mask.braceless_of_isPosition position) (Mask.free_of_isPosition position)

theorem reveal_position {key : String} (position : Key.isPosition key = true) :
    key.map mask.reveal = key :=
  Mask.map_reveal (Mask.free_of_isPosition position)

theorem masked_inlineParts (ready : params.Masked mask) (placeholder : Placeholder)
    {found : Numbered} (listed : found.param ∈ params.all) :
    ∀ part ∈ inlineParts placeholder found, mask.Masked part := by
  have value : ∀ param ∈ params.all, param.isScalar = true →
      mask.Masked (placeholder.format param.value) := fun param listed isScalar =>
    Mask.masked_format placeholder (ready.plain param listed isScalar)
      (ready.apart param listed isScalar)
  intro part member
  unfold inlineParts at member
  split at member
  · rename_i isList
    obtain ⟨item, below, given⟩ := List.mem_filterMap.mp member
    split at given
    · cases given
      exact masked_position (Params.isPosition_of_child ready.keyed listed isList below)
    · split at given
      · rename_i isScalar
        cases given
        exact value item (Params.mem_all_of_child listed below) isScalar
      · simp at given
  · split at member
    · rw [List.mem_singleton] at member
      exact member ▸ masked_position (Param.isPosition_toString found.number)
    · split at member
      · rename_i isScalar
        rw [List.mem_singleton] at member
        exact member ▸ value _ listed isScalar
      · simp at member

theorem inlineParts_reveal (ready : params.Masked mask) (placeholder : Placeholder)
    {found : Numbered} (listed : found.param ∈ params.all) :
    inlineParts placeholder (found.recode mask.reveal) =
      (inlineParts placeholder found).map (·.map mask.reveal) := by
  simp only [inlineParts, Numbered.recode, Param.isList_recode, Param.isScalar_recode,
    Param.children_recode]
  split
  · rename_i isList
    rw [List.filterMap_map, List.map_filterMap]
    refine List.filterMap_congr fun item below => ?_
    have fixed : item.key.map mask.reveal = item.key :=
      reveal_position (Params.isPosition_of_child ready.keyed listed isList below)
    simp only [Function.comp_apply, Param.key_recode, Param.isScalar_recode]
    split
    · exact congrArg some fixed.symm
    · split
      · rename_i isScalar
        rw [Param.value_recode, if_pos isScalar, format_reveal]
        rfl
      · rfl
  · split
    · exact congrArg (fun text => [text]) (reveal_position (Param.isPosition_toString _)).symm
    · split
      · rename_i isScalar
        rw [Param.value_recode, if_pos isScalar, format_reveal]
        rfl
      · rfl

theorem inlineValue?_reveal (ready : params.Masked mask) {placeholder : Placeholder}
    (proper : placeholder.Proper) (free : mask.Free placeholder.body) :
    inlineValue? (params.recode mask.reveal) placeholder =
      (inlineValue? params placeholder).map (·.map mask.reveal) := by
  simp only [inlineValue?, Option.bind_eq_bind]
  cases asked : placeholder.separator with
  | none => rfl
  | some separator =>
      have fixed : separator.map mask.reveal = separator :=
        Mask.map_reveal (free.subset (proper.separator_subset asked))
      have all : ∀ found ∈ params.findAll placeholder.key, found.param ∈ params.all :=
        fun found listed => Params.mem_all_of_findAll listed
      simp only [Option.bind_some, Params.findAll_recode]
      cases matched : params.findAll placeholder.key with
      | nil => rfl
      | cons first rest =>
          rw [matched] at all
          have parts : ((first :: rest).map (Numbered.recode mask.reveal)).flatMap
                (inlineParts placeholder) =
              ((first :: rest).flatMap (inlineParts placeholder)).map (·.map mask.reveal) := by
            rw [List.flatMap_map, List.map_flatMap]
            exact List.flatMap_congr fun found listed =>
              inlineParts_reveal ready placeholder (all found listed)
          have joined := map_intercalate mask.reveal separator
            ((first :: rest).flatMap (inlineParts placeholder))
          rw [fixed, ← parts] at joined
          exact congrArg some joined

theorem masked_inlineValue? (ready : params.Masked mask) {placeholder : Placeholder}
    (proper : placeholder.Proper) (free : mask.Free placeholder.body) {value : String}
    (given : inlineValue? params placeholder = some value) : mask.Masked value := by
  obtain ⟨separator, asked, rfl⟩ := exists_parts_of_inlineValue? given
  refine Mask.masked_intercalate ?_ fun part member => ?_
  · exact Mask.masked_of_free (proper.braceless_separator asked)
      (free.subset (proper.separator_subset asked))
  · obtain ⟨found, listed, inside⟩ := List.mem_flatMap.mp member
    exact masked_inlineParts ready placeholder (Params.mem_all_of_findAll listed) part inside

theorem ages_fillInlineText (params : Params) (document : Document) (id : NodeId) :
    Document.Ages document (fillInlineText params document id) := by
  simp only [fillInlineText]
  split
  · exact (ages_setText document id _).trans (ages_preserveSpace _ id)
  · exact .refl document

end Filling

namespace Mask.Covers

open Filling

variable {mask : Mask} {gone : Nat → Prop} {shown hidden : Document} {params : Params}

theorem fillInlineText (covers : mask.Covers gone shown hidden) (ready : params.Masked mask)
    {id : NodeId} (kept : ¬ gone id) (isText : hidden.tag id = Wordml.text) :
    mask.Covers gone (fillInlineText (params.recode mask.reveal) shown id)
      (fillInlineText params hidden id) := by
  have masked := covers.text kept isText
  have sameAny : ((Placeholder.scan (hidden.text id)).any fun placeholder =>
        (inlineValue? (params.recode mask.reveal) placeholder).isSome) =
      (Placeholder.scan (hidden.text id)).any fun placeholder =>
        (inlineValue? params placeholder).isSome := by
    rw [Bool.eq_iff_iff, List.any_eq_true, List.any_eq_true]
    refine exists_congr fun placeholder => and_congr_right fun member => ?_
    obtain ⟨proper, free⟩ := masked.of_mem_scan member
    rw [inlineValue?_reveal ready proper free, Option.isSome_map]
  have sameText : Piece.render (fun placeholder =>
        (inlineValue? (params.recode mask.reveal) placeholder).getD placeholder.source)
        (Piece.ofText ((hidden.text id).map mask.reveal)) =
      (Piece.render (fun placeholder =>
        (inlineValue? params placeholder).getD placeholder.source)
        (Piece.ofText (hidden.text id))).map mask.reveal := by
    refine masked.render_reveal fun placeholder member => ?_
    obtain ⟨proper, free⟩ := masked.of_mem_scan member
    rw [inlineValue?_reveal ready proper free]
    cases inlineValue? params placeholder with
    | none => exact (source_reveal free).symm
    | some value => rfl
  simp only [Filling.fillInlineText, covers.text_reveal, masked.scan_reveal, sameAny, sameText]
  split
  · refine (covers.setText id (masked.render fun placeholder member => ?_)).preserveSpace id
    obtain ⟨proper, free⟩ := masked.of_mem_scan member
    cases given : inlineValue? params placeholder with
    | none => exact Mask.masked_source proper free
    | some value => exact masked_inlineValue? ready proper free given
  · exact covers

theorem inlineFirings (covers : mask.Covers gone shown hidden) (ready : params.Masked mask)
    {id : NodeId} (masked : mask.Masked (hidden.text id)) :
    inlineFirings shown (params.recode mask.reveal) id =
      (inlineFirings hidden params id).map (Firing.recode mask.reveal) := by
  have sameParent : shown.parent? id = hidden.parent? id := by
    rw [← covers.reveals, Document.parent?_recode]
  rw [Filling.inlineFirings, Filling.inlineFirings, covers.scan_text masked, List.map_filterMap]
  refine List.filterMap_congr fun placeholder member => ?_
  obtain ⟨proper, free⟩ := masked.of_mem_scan member
  rw [inlineValue?_reveal ready proper free, sameParent]
  cases inlineValue? params placeholder with
  | none => rfl
  | some value =>
      cases trigger : placeholder.trigger? with
      | none => rfl
      | some trigger => rfl

theorem fillInlineTexts (covers : mask.Covers gone shown hidden) (ready : params.Masked mask)
    {ids : List NodeId} (kept : ∀ id ∈ ids, ¬ gone id)
    (texts : ∀ id ∈ ids, hidden.tag id = Wordml.text) :
    mask.Covers gone (ids.foldl (Filling.fillInlineText (params.recode mask.reveal)) shown)
      (ids.foldl (Filling.fillInlineText params) hidden) := by
  induction ids generalizing shown hidden with
  | nil => exact covers
  | cons id rest ih =>
      refine ih (covers.fillInlineText ready (kept id (by simp)) (texts id (by simp)))
        (fun other member => kept other (by simp [member])) fun other member => ?_
      exact (ages_fillInlineText params hidden id).isText (texts other (by simp [member]))

theorem fillInline (covers : mask.Covers gone shown hidden) (ready : params.Masked mask) :
    mask.Covers gone (fillInline shown (params.recode mask.reveal)) (fillInline hidden params) := by
  have found : shown.findAll shown.root [Wordml.text] = hidden.findAll hidden.root [Wordml.text] := by
    rw [← covers.reveals, Document.root_recode, Document.findAll_recode]
  have firings : (hidden.findAll hidden.root [Wordml.text]).flatMap
      (Filling.inlineFirings shown (params.recode mask.reveal)) =
        ((hidden.findAll hidden.root [Wordml.text]).flatMap
          (Filling.inlineFirings hidden params)).map (Firing.recode mask.reveal) := by
    rw [List.map_flatMap]
    exact List.flatMap_congr fun id member =>
      covers.inlineFirings ready (covers.text_of_mem_findAll member)
  have filled := covers.fillInlineTexts ready
    (fun id (member : id ∈ hidden.findAll hidden.root [Wordml.text]) =>
      covers.kept_of_mem_findAll member) fun id member => by
        simpa [Document.isAny] using (List.mem_filter.mp member).2
  rw [Filling.fillInline, Filling.fillInline, found, firings]
  exact filled.evaluateAll _

end Mask.Covers

end WordTemplate
