import WordTemplate.Proofs.Filling.TextSingles

/-! What one node becomes when its placeholders are filled. The placeholders of a text are substituted
where they stand, all at once; the markup of an image cuts the text into stretches. -/

namespace WordTemplate

namespace Markup.Element

theorem attribute?_setAttribute (element : Element) (key value : String) :
    (element.setAttribute key value).attribute? key = some value := by
  simp only [setAttribute, attribute?]
  generalize element.attributes = attributes
  induction attributes with
  | nil => simp [setAttribute.set]
  | cons entry rest ih =>
      rw [setAttribute.set]
      split
      · simp
      · rename_i other
        simpa [other] using ih

end Markup.Element

namespace Filling

open Markup

/-- What a placeholder becomes: the value of a scalar, the key of a parameter that is no list, the markup
of an image if there is one, or else its own marker. -/
def substitute (params : Params) (placeholder : Placeholder) : Insert :=
  match params.get? placeholder.key with
  | none => .text placeholder.source
  | some param =>
    if param.isList then .text placeholder.source
    else if placeholder.asksKey then .text (placeholder.format param.key)
    else if param.isScalar then .text (placeholder.format param.value)
    else if param.isResolvedImage then .markup param.value
    else if param.image?.isSome then .text ""
    else .text placeholder.source

/-- The literal stretches of a text and what its placeholders become, in order. -/
def substituteAll (params : Params) (text : String) : List Insert :=
  (Piece.ofText text).map fun
    | .literal characters => .text (String.ofList characters)
    | .marker placeholder => substitute params placeholder

/-- The texts between markups, each as a whole, behind a text that is still open. Empty ones are left
out. -/
def stretches (text : String) : List Insert → List Insert
  | [] => if text.isEmpty then [] else [.text text]
  | .text content :: rest => stretches (text ++ content) rest
  | .markup content :: rest =>
    (if text.isEmpty then [] else [.text text]) ++ .markup content :: stretches "" rest

/-- Whether a text becomes more than text. -/
def becomesMarkup (params : Params) (text : String) : Bool :=
  (substituteAll params text).any Insert.isMarkup

def isFilled (params : Params) (text : String) : Bool :=
  (Placeholder.scan text).any fun placeholder => (insert? params placeholder).isSome

def fillElement (params : Params) (element : Element) : Element :=
  let valued := { element with
    attributes := element.attributes.map fun entry => { entry with value := fillValue params entry.value } }
  if element.tag = Wordml.text ∧ isFilled params element.text = true then
    let content := String.join ((substituteAll params element.text).map Insert.content)
    let written := { valued with text := content }
    if Wordml.hasOuterBlank content.toList then written.setAttribute Wordml.spaceKey "preserve" else written
  else valued

variable {params : Params} {document : Document}

theorem insertOf_marker (params : Params) (placeholder : Placeholder) :
    insertOf params (.marker placeholder) = substitute params placeholder := by
  rw [insertOf, substitute]
  cases found : params.get? placeholder.key with
  | none => simp [insert?, found]
  | some param =>
      cases kind : param.kind
      all_goals
        cases asks : placeholder.asksKey
        all_goals simp [insert?, found, asks, kind, Param.isList, Param.isScalar, Param.isResolvedImage,
          Param.image?]
      by_cases empty : param.value = ""
      all_goals simp [empty]

theorem map_insertOf (params : Params) (text : String) :
    (Piece.ofText text).map (insertOf params) = substituteAll params text := by
  refine List.map_congr_left fun piece _ => ?_
  cases piece with
  | literal characters => rfl
  | marker placeholder => exact insertOf_marker params placeholder

theorem isFilled_of_becomesMarkup {text : String} (markup : becomesMarkup params text = true) :
    isFilled params text = true := by
  rw [becomesMarkup, ← map_insertOf, List.any_map, List.any_eq_true] at markup
  obtain ⟨piece, member, isMarkup⟩ := markup
  cases piece with
  | literal characters => simp [insertOf, Insert.isMarkup] at isMarkup
  | marker placeholder =>
      refine List.any_eq_true.mpr ⟨placeholder, Piece.mem_scan_iff.mpr member, ?_⟩
      cases found : insert? params placeholder with
      | none => simp [insertOf, found, Insert.isMarkup] at isMarkup
      | some _ => rfl

theorem fillText_eq_substituteAll (document : Document) (params : Params) (id : NodeId) :
    fillText document params id =
      if isFilled params (document.text id) then
        if becomesMarkup params (document.text id) then
          (spliceAfter document id (joinTexts (substituteAll params (document.text id)))).delete id
        else
          Wordml.preserveSpace (document.setText id
            (String.join ((substituteAll params (document.text id)).map Insert.content))) id
      else document := by
  simp only [fillText, map_insertOf]
  rfl

/-- The contents of a text that nothing is put in for make up the text. -/
theorem join_substituteAll_of_not_isFilled {text : String} (unfilled : isFilled params text = false) :
    String.join ((substituteAll params text).map Insert.content) = text := by
  rw [← map_insertOf, join_contents]
  refine Placeholder.render_ofText fun placeholder member => ?_
  have none := List.any_eq_false.mp unfilled placeholder member
  rw [Bool.not_eq_true, Option.isSome_eq_false_iff, Option.isNone_iff_eq_none] at none
  rw [insertOf, none]
  rfl

section Stretches

theorem trees_open (text : String) :
    (if text.isEmpty then [] else [Insert.text text]).flatMap Insert.trees = (Insert.text text).trees := by
  by_cases empty : text.isEmpty = true
  all_goals simp [Insert.trees, empty]

theorem trees_joinTexts_empty (inserts : List Insert) :
    (joinTexts (.text "" :: inserts)).flatMap Insert.trees = (joinTexts inserts).flatMap Insert.trees := by
  rw [joinTexts]
  cases joinTexts inserts with
  | nil => rfl
  | cons next others =>
      cases next with
      | text next => simp
      | markup next => rfl

theorem trees_joinTexts_text (text : String) (inserts : List Insert) :
    (joinTexts (.text text :: inserts)).flatMap Insert.trees =
      (stretches text inserts).flatMap Insert.trees := by
  -- The text is what has been joined so far, so that each further text is joined to it.
  induction inserts generalizing text with
  | nil =>
      rw [stretches, trees_open]
      simp [joinTexts]
  | cons insert rest ih =>
      cases insert with
      | text content =>
          rw [stretches, ← ih (text ++ content)]
          simp only [joinTexts]
          cases joinTexts rest with
          | nil => rfl
          | cons next others =>
              cases next with
              | text next => simp only [String.append_assoc]
              | markup next => rfl
      | markup content =>
          rw [stretches, List.flatMap_append, trees_open, List.flatMap_cons, ← ih "", trees_joinTexts_empty]
          simp [joinTexts]

theorem trees_joinTexts (inserts : List Insert) :
    (joinTexts inserts).flatMap Insert.trees = (stretches "" inserts).flatMap Insert.trees := by
  rw [← trees_joinTexts_empty, trees_joinTexts_text]

end Stretches

section Visit

open Outline (idsAll)

variable (params)

theorem size_fillAttributes (document : Document) (params : Params) (id : NodeId) :
    (fillAttributes document params id).size = document.size :=
  Document.size_modify ..

theorem toElement_fillAttributes {id : Nat} (bound : id < document.size) :
    ((fillAttributes document params id).node id).toElement =
      { (document.node id).toElement with
        attributes := (document.node id).attributes.map fun entry =>
          { entry with value := fillValue params entry.value } } := by
  rw [fillAttributes, Document.setAttributes, Document.node_modify, if_pos ⟨rfl, bound⟩]

theorem toElement_fillNode_of_ne (firings : List Firing) {id other : Nat} (old : other < document.size)
    (elsewhere : other ≠ id) :
    ((fillNode params document firings id).1.node other).toElement = (document.node other).toElement := by
  have valued : ((fillAttributes document params id).node other).toElement =
      (document.node other).toElement :=
    congrArg Node.toElement (node_fillAttributes_of_ne document params elsewhere)
  rw [← valued, fillNode]
  split
  · simp only [fillText]
    split
    · split
      · have bound : other < (fillAttributes document params id).size := by
          rwa [size_fillAttributes]
        exact ((extends_spliceAfter _ id _).trans (Document.extends_delete _ id)).toElement other bound
      · rw [node_preserveSpace_of_ne _ elsewhere, node_setText_of_ne _ elsewhere]
    · rfl
  · rfl

theorem size_le_fillNode (document : Document) (params : Params) (firings : List Firing) (id : NodeId) :
    document.size ≤ (fillNode params document firings id).1.size := by
  rw [← size_fillAttributes document params id, fillNode]
  split
  · simp only [fillText]
    split
    · split
      · exact ((extends_spliceAfter _ id _).trans (Document.extends_delete _ id)).size_le
      · exact ((ages_setText _ id _).trans (ages_preserveSpace _ id)).size_le
    · exact Nat.le_refl _
  · exact Nat.le_refl _

theorem firings_fillNode (firings : List Firing) {id : NodeId}
    (untriggered : document.tag id = Wordml.text → Untriggered (document.text id)) :
    (fillNode params document firings id).2.1 = firings := by
  have tag := (rewritten_fillAttributes document params id).removes.tag id
  rw [fillNode]
  split
  · rename_i isText
    have none : textFirings (fillAttributes document params id) params id = [] := by
      rw [textFirings, text_fillAttributes, List.filterMap_eq_nil_iff]
      intro placeholder member
      simp [untriggered (tag.symm.trans isText) placeholder member]
    simp only [none, List.append_nil]
  · rfl

variable (firings : List Firing)

/-- A visit that puts in no markup leaves the node where it is, filled. -/
theorem fillNode_of_no_markup {id : NodeId} (live : document.isLive id = true)
    (noMarkup : document.tag id = Wordml.text → becomesMarkup params (document.text id) = false) :
    Document.SameLinks document (fillNode params document firings id).1 ∧
      ((fillNode params document firings id).1.node id).toElement =
        fillElement params (document.node id).toElement := by
  have links := sameLinks_fillAttributes document params id
  have bound : id < (fillAttributes document params id).size :=
    Document.lt_size_of_isLive ((links.isLive id).trans live)
  have valued := toElement_fillAttributes params (Document.lt_size_of_isLive live)
  have tag := (rewritten_fillAttributes document params id).removes.tag id
  by_cases isText : document.tag id = Wordml.text
  · rw [fillNode]
    simp only [tag, isText, if_true, fillText_eq_substituteAll, text_fillAttributes, noMarkup isText]
    cases filled : isFilled params (document.text id) with
    | false =>
        have unfilled : ¬ (document.tag id = Wordml.text ∧ isFilled params (document.text id) = true) := by
          simp [filled]
        exact ⟨links, valued.trans (if_neg unfilled).symm⟩
    | true =>
        let content := String.join ((substituteAll params (document.text id)).map Insert.content)
        have written : (((fillAttributes document params id).setText id content).node id).toElement =
            { ((fillAttributes document params id).node id).toElement with text := content } :=
          congrArg Node.toElement (node_setText _ bound content)
        have both : document.tag id = Wordml.text ∧ isFilled params (document.text id) = true :=
          ⟨isText, filled⟩
        refine ⟨links.trans (.trans ?_ (sameLinks_preserveSpace _ id)), ?_⟩
        · exact Document.sameLinks_modify _ id (fun _ => rfl) (fun _ => rfl) fun _ => rfl
        · refine (toElement_preserveSpace _ (by rwa [Document.setText, Document.size_modify])).trans ?_
          rw [Document.text, written, valued]
          exact (if_pos both).symm
  · have other : ¬ (document.tag id = Wordml.text ∧ isFilled params (document.text id) = true) :=
      fun both => isText both.1
    rw [fillNode]
    simp only [tag, isText, if_false]
    exact ⟨links, valued.trans (if_neg other).symm⟩

/-- A visit that puts in markup leaves the nodes of the stretches in the place of the text. -/
theorem fillNode_of_markup {outer : Context} {before after : List Outline} {parent : NodeId}
    {outline : Outline}
    (holds : document.Holds ((Context.under outer before after parent).fill [outline]))
    (isText : document.tag outline.id = Wordml.text)
    (markup : becomesMarkup params (document.text outline.id) = true) :
    (fillNode params document firings outline.id).1.isLive outline.id = false ∧
      ∃ trees, (fillNode params document firings outline.id).1.Holds
          ((Context.under outer before after parent).fill trees) ∧
        Outline.toTrees (fillNode params document firings outline.id).1 trees =
          (stretches "" (substituteAll params (document.text outline.id))).flatMap Insert.trees ∧
        ∀ id : Nat, id ∈ idsAll trees → document.size ≤ id := by
  have links := sameLinks_fillAttributes document params outline.id
  have tag := ((rewritten_fillAttributes document params outline.id).removes.tag outline.id).trans isText
  have replaced : (fillNode params document firings outline.id).1 =
      (spliceAfter (fillAttributes document params outline.id) outline.id
        (joinTexts (substituteAll params (document.text outline.id)))).delete outline.id := by
    rw [fillNode]
    simp only [tag, if_true, fillText_eq_substituteAll, text_fillAttributes, markup,
      isFilled_of_becomesMarkup markup]
  rw [replaced, ← size_fillAttributes document params outline.id]
  generalize fillAttributes document params outline.id = base at links
  obtain ⟨trees, placed, content, new⟩ : ∃ trees : List Outline,
      (spliceAfter base outline.id (joinTexts (substituteAll params (document.text outline.id)))).Holds
          ((Context.under outer before after parent).fill ([] ++ outline :: trees)) ∧ _ :=
    exists_spliced (holds.congr links)
  have atText : (spliceAfter base outline.id
      (joinTexts (substituteAll params (document.text outline.id)))).Holds
        ((Context.under outer before (trees ++ after) parent).fill [outline]) := by
    simpa [Context.fill] using placed
  refine ⟨?_, trees, by simpa [Context.fill] using atText.delete, ?_, new⟩
  · rw [Document.isLive_delete atText, if_pos outline.id_mem_ids]
  · rw [← trees_joinTexts, ← content]
    exact Outline.toTrees_congr fun id _ => Document.toElement_delete atText id

end Visit

end Filling

end WordTemplate
