import WordTemplate.Proofs.Filling.MaskedInserts

/-! Filling single placeholders and inline placeholders with the braces of values hidden: the passes keep
the documents alike, and every text and value masked. -/

namespace WordTemplate

open Markup

theorem map_join (change : Char → Char) (texts : List String) :
    String.join (texts.map (·.map change)) = (String.join texts).map change := by
  rw [← String.toList_inj]
  simp [String.toList_join, List.flatMap_map, List.map_flatMap]

theorem map_intercalate (change : Char → Char) (separator : String) (parts : List String) :
    (separator.map change).intercalate (parts.map (·.map change)) =
      (separator.intercalate parts).map change := by
  induction parts with
  | nil => exact (String.map_eq_empty.mpr rfl).symm
  | cons part rest ih =>
      cases rest with
      | nil => simp
      | cons next others =>
          rw [List.map_cons, List.map_cons, String.intercalate_cons_cons, ← List.map_cons, ih,
            String.intercalate_cons_cons]
          simp only [← String.toList_inj, String.toList_append, String.toList_map, List.map_append]

namespace Filling

variable {mask : Mask} {params : Params}

theorem isMarkup_recode (change : Char → Char) (inserts : List Insert) :
    (inserts.map (Insert.recode change)).any Insert.isMarkup = inserts.any Insert.isMarkup := by
  rw [List.any_map]
  congr 1
  funext insert
  cases insert <;> rfl

theorem contents_recode (change : Char → Char) {inserts : List Insert}
    (noMarkup : ¬ inserts.any Insert.isMarkup = true) :
    String.join ((inserts.map (Insert.recode change)).map Insert.content) =
      (String.join (inserts.map Insert.content)).map change := by
  rw [← map_join, List.map_map, List.map_map]
  congr 1
  refine List.map_congr_left fun insert member => ?_
  cases insert with
  | text content => rfl
  | markup content => exact absurd (List.any_eq_true.mpr ⟨_, member, rfl⟩) noMarkup

theorem masked_contents (ready : Hidden mask params) {content : String}
    (masked : mask.Masked content)
    (noMarkup : ¬ ((Piece.ofText content).map (insertOf params)).any Insert.isMarkup = true) :
    mask.Masked (String.join (((Piece.ofText content).map (insertOf params)).map Insert.content)) := by
  rw [join_contents]
  refine masked.render fun placeholder member => ?_
  obtain ⟨proper, free⟩ := masked.of_mem_scan member
  have here := masked_insertOf ready proper free
  cases given : insertOf params (.marker placeholder) with
  | text value =>
      rw [given] at here
      exact here
  | markup value =>
      have listed := List.mem_map_of_mem (f := insertOf params) (Piece.mem_scan_iff.mp member)
      rw [given] at listed
      exact absurd (List.any_eq_true.mpr ⟨_, listed, rfl⟩) noMarkup

theorem masked_fillValue (ready : Hidden mask params) {value : String} (masked : mask.Masked value) :
    mask.Masked (fillValue params value) := by
  refine masked.render fun placeholder member => ?_
  obtain ⟨proper, free⟩ := masked.of_mem_scan member
  cases found : insert? params placeholder with
  | none => exact Mask.masked_source proper free
  | some given =>
      obtain ⟨insert, content⟩ := given
      cases insert with
      | text text => exact masked_insert? ready proper free found
      | markup text => exact Mask.masked_source proper free

theorem fillValue_reveal (ready : Hidden mask params) {value : String} (masked : mask.Masked value) :
    fillValue (params.recode mask.reveal) (value.map mask.reveal) =
      (fillValue params value).map mask.reveal := by
  refine masked.render_reveal fun placeholder member => ?_
  obtain ⟨proper, free⟩ := masked.of_mem_scan member
  simp only [insert?_reveal ready proper free]
  cases found : insert? params placeholder with
  | none => exact (source_reveal free).symm
  | some given =>
      obtain ⟨insert, content⟩ := given
      cases insert with
      | text text => rfl
      | markup text => exact (source_reveal free).symm

end Filling

namespace Mask.Covers

open Filling

variable {mask : Mask} {gone : Nat → Prop} {shown hidden : Document} {params : Params}

theorem text_reveal (covers : mask.Covers gone shown hidden) (id : NodeId) :
    shown.text id = (hidden.text id).map mask.reveal := by
  rw [← covers.reveals, Document.text_recode]

theorem fillText (covers : mask.Covers gone shown hidden) (ready : Hidden mask params) {id : NodeId}
    (kept : ¬ gone id) (isText : hidden.tag id = Wordml.text) :
    mask.Covers gone (fillText shown (params.recode mask.reveal) id) (fillText hidden params id) := by
  have masked := covers.text kept isText
  simp only [Filling.fillText, covers.text_reveal, masked.scan_reveal,
    any_insert?_reveal ready masked, insertOf_reveal ready masked, isMarkup_recode]
  split
  · split
    · rw [joinTexts_recode]
      exact (covers.spliceAfter kept (masked_joinTexts ready masked)).delete id
    · rename_i noMarkup
      rw [contents_recode _ noMarkup]
      exact (covers.setText id (masked_contents ready masked noMarkup)).preserveSpace id
  · exact covers

theorem fillAttributes (covers : mask.Covers gone shown hidden) (ready : Hidden mask params)
    {id : NodeId} (kept : ¬ gone id) :
    mask.Covers gone (fillAttributes shown (params.recode mask.reveal) id)
      (fillAttributes hidden params id) :=
  covers.mapValues kept (masked_fillValue ready) (fillValue_reveal ready)

theorem textFirings (covers : mask.Covers gone shown hidden) (ready : Hidden mask params)
    {id : NodeId} (kept : ¬ gone id) (isText : hidden.tag id = Wordml.text) :
    textFirings shown (params.recode mask.reveal) id =
      (textFirings hidden params id).map (Firing.recode mask.reveal) := by
  have masked := covers.text kept isText
  have sameParent : shown.parent? id = hidden.parent? id := by
    rw [← covers.reveals, Document.parent?_recode]
  rw [Filling.textFirings, Filling.textFirings, covers.scan_text masked, List.map_filterMap]
  refine List.filterMap_congr fun placeholder member => ?_
  obtain ⟨proper, free⟩ := masked.of_mem_scan member
  rw [insert?_reveal ready proper free, sameParent]
  cases insert? params placeholder with
  | none => rfl
  | some given =>
      cases trigger : placeholder.trigger? with
      | none => rfl
      | some trigger => rfl

theorem fillSingles (covers : mask.Covers gone shown hidden) (ready : Hidden mask params) :
    mask.Covers gone (fillSingles shown (params.recode mask.reveal)) (fillSingles hidden params) := by
  have visits : Visits mask gone (fun firings others => firings = others.map (Firing.recode mask.reveal))
      (fillNode (params.recode mask.reveal)) (fillNode params) := by
    intro shown hidden own other id covers agrees live
    have kept := covers.severed.kept_of_isLive live
    have filled := covers.fillAttributes ready kept
    have sameTag : (Filling.fillAttributes shown (params.recode mask.reveal) id).tag id =
        (Filling.fillAttributes hidden params id).tag id := by
      rw [← filled.reveals, Document.tag_recode]
    simp only [fillNode, sameTag]
    split
    · rename_i isText
      refine ⟨filled.fillText ready kept isText, ?_, rfl⟩
      rw [filled.textFirings ready kept isText, agrees, List.map_append]
    · exact ⟨filled, agrees, rfl⟩
  have sameRoot : ∀ {first second : Document}, mask.Covers gone first second →
      first.root = second.root := by
    intro first second covers
    rw [← covers.reveals, Document.root_recode]
  have filled := covers.fillAttributes ready covers.root
  have none : ([] : List Firing) = [].map (Firing.recode mask.reveal) := rfl
  obtain ⟨walked, firings⟩ := filled.walk visits none
    (Filling.fillAttributes hidden params hidden.root).root
  rw [Filling.fillSingles, Filling.fillSingles, sameRoot covers]
  simp only [sameRoot filled, firings]
  exact walked.evaluateAll _

end Mask.Covers

end WordTemplate
