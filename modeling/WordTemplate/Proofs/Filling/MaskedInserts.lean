import WordTemplate.Proofs.Filling.MaskedTriggers
import WordTemplate.Proofs.Filling.Splices

/-! What takes the place of single placeholders with the braces of values hidden. It is masked, and it is
what is put in on the other side with its braces shown. -/

namespace WordTemplate

open Markup

namespace Filling

/-- Markup that shows no brace when it is read, and nothing that stands for one. -/
structure SkippedMarkup (mask : Mask) (content : String) : Prop where
  plain : PlainMarkup content
  free : mask.Free content.toList
  fixed : ∀ fragment, Document.parseFragment content = .ok fragment →
    fragment.FixedBy mask.reveal

/-- Parameters that bring nothing but masked texts into a document. -/
structure Hidden (mask : Mask) (params : Params) : Prop extends params.Masked mask where
  images : ∀ param ∈ params.all, param.isResolvedImage = true → SkippedMarkup mask param.value

def Insert.recode (change : Char → Char) : Insert → Insert
  | text content => text (content.map change)
  | markup content => markup content

/-- An insert that is found again when the braces are revealed. -/
def Insert.Masked (mask : Mask) : Insert → Prop
  | text content => mask.Masked content
  | markup content => SkippedMarkup mask content

variable {mask : Mask} {params : Params}

theorem SkippedMarkup.slots {content : String} (skipped : SkippedMarkup mask content)
    {fragment : Document} (parsed : Document.parseFragment content = .ok fragment) :
    fragment.AllSlots mask.Masked := by
  intro id listed inside
  have plain := skipped.plain fragment parsed id listed inside
  have fixed := skipped.fixed fragment parsed
  refine ⟨fun isText => ?_, fun entry member => ?_⟩
  · exact Mask.masked_of_free (plain.text isText) (Mask.free_of_map_reveal (fixed.text id))
  · exact Mask.masked_of_free (plain.value entry member) (Mask.free_of_map_reveal (fixed.value member))

theorem masked_key (ready : params.Masked mask) {placeholder : Placeholder}
    (proper : placeholder.Proper) (free : mask.Free placeholder.body) {param : Param}
    (looked : params.get? placeholder.key = some param) :
    Braceless param.key.toList ∧ mask.Free param.key.toList := by
  have inside : param.key.toList ⊆ placeholder.body := by
    refine List.Subset.trans (Params.key_subset_of_get? ready.keyed looked) fun c member => ?_
    simp [Placeholder.body, member]
  exact ⟨Braceless.subset proper.plain inside, free.subset inside⟩

theorem masked_format_of_free (placeholder : Placeholder) {key : String}
    (plain : Braceless key.toList) (free : mask.Free key.toList) :
    mask.Masked (placeholder.format key) := by
  refine Mask.masked_format placeholder plain (apart_of_not_mem fun member => ?_)
  obtain ⟨blanks, whole, -⟩ := Text.exists_trimEnd key.toList
  have listed : mask.opening ∈ key.toList := by
    rw [whole]
    exact List.mem_append_left _ member
  exact (free _ listed).1 rfl

theorem format_reveal (placeholder : Placeholder) (value : String) :
    placeholder.format (value.map mask.reveal) = (placeholder.format value).map mask.reveal :=
  placeholder.format_map mask.disguises_reveal value

theorem masked_insert? (ready : Hidden mask params) {placeholder : Placeholder}
    (proper : placeholder.Proper) (free : mask.Free placeholder.body) {insert : Insert}
    {value : String} (found : insert? params placeholder = some (insert, value)) :
    insert.Masked mask := by
  obtain ⟨param, looked, gives⟩ := exists_gives_of_insert? found
  have listed := Params.mem_all_of_get? looked
  cases gives with
  | key =>
      obtain ⟨plain, keyFree⟩ := masked_key ready.toMasked proper free looked
      exact masked_format_of_free placeholder plain keyFree
  | scalar isScalar =>
      exact Mask.masked_format placeholder (ready.plain param listed isScalar)
        (ready.apart param listed isScalar)
  | image resolved _ => exact ready.images param listed resolved
  | unresolved => exact Mask.masked_empty

/-- Revealing the values reveals what is put in. -/
theorem insert?_reveal (ready : Hidden mask params) {placeholder : Placeholder}
    (proper : placeholder.Proper) (free : mask.Free placeholder.body) :
    insert? (params.recode mask.reveal) placeholder = (insert? params placeholder).map
      fun given => (given.1.recode mask.reveal, given.2.map mask.reveal) := by
  simp only [insert?, Params.get?_recode]
  cases looked : params.get? placeholder.key with
  | none => rfl
  | some param =>
      have listed := Params.mem_all_of_get? looked
      simp only [Option.map_some, Option.bind_eq_bind, Option.bind_some, Param.isList_recode,
        Param.key_recode, Param.kind_recode, Param.isResolvedImage_recode]
      split
      · split
        · rfl
        · have fixed := Mask.map_reveal (masked_key ready.toMasked proper free looked).2
          have formatted : placeholder.format (param.key.map mask.reveal) =
              (placeholder.format param.key).map mask.reveal := format_reveal placeholder param.key
          rw [fixed] at formatted
          simp only [Option.map_some, Insert.recode, ← formatted, fixed]
      · cases kind : param.kind with
        | scalar =>
            have isScalar : param.isScalar = true := by rw [Param.isScalar, kind]; rfl
            simp only [Param.value_recode, if_pos isScalar, format_reveal, Option.map_some,
              Insert.recode]
        | object => rfl
        | list => rfl
        | image image =>
            have notScalar : ¬ param.isScalar = true := by rw [Param.isScalar, kind]; simp
            have empty : ("" : String).map mask.reveal = "" := String.map_eq_empty.mpr rfl
            simp only [Param.value_recode, if_neg notScalar]
            split
            · rename_i resolved
              have fixed := Mask.map_reveal (ready.images param listed resolved).free
              simp only [Option.map_some, Insert.recode, fixed]
            · rename_i unresolved
              have bare : param.value = "" := by
                simpa [Param.isResolvedImage, Param.image?, kind] using unresolved
              simp only [Option.map_some, Insert.recode, bare, empty]

theorem any_insert?_reveal (ready : Hidden mask params) {content : String}
    (masked : mask.Masked content) :
    ((Placeholder.scan content).any fun placeholder =>
      (insert? (params.recode mask.reveal) placeholder).isSome) =
    (Placeholder.scan content).any fun placeholder => (insert? params placeholder).isSome := by
  rw [Bool.eq_iff_iff, List.any_eq_true, List.any_eq_true]
  refine exists_congr fun placeholder => and_congr_right fun member => ?_
  obtain ⟨proper, free⟩ := masked.of_mem_scan member
  rw [insert?_reveal ready proper free, Option.isSome_map]

theorem source_reveal {placeholder : Placeholder} (free : mask.Free placeholder.body) :
    placeholder.source.map mask.reveal = placeholder.source := by
  rw [← String.toList_inj, String.toList_map, Mask.map_reveal_source free]

/-! Inserts of a text -/

theorem insertOf_reveal (ready : Hidden mask params) {content : String}
    (masked : mask.Masked content) :
    (Piece.ofText (content.map mask.reveal)).map (insertOf (params.recode mask.reveal)) =
      ((Piece.ofText content).map (insertOf params)).map (Insert.recode mask.reveal) := by
  rw [masked.ofText_reveal, List.map_map, List.map_map]
  refine List.map_congr_left fun piece member => ?_
  cases piece with
  | literal text =>
      have same : String.ofList (text.map mask.reveal) = (String.ofList text).map mask.reveal := by
        rw [← String.toList_inj]
        simp
      exact congrArg Insert.text same
  | marker placeholder =>
      obtain ⟨proper, free⟩ := masked.of_mem_scan (Piece.mem_scan_iff.mpr member)
      simp only [Function.comp_apply, Piece.recode, insertOf, insert?_reveal ready proper free]
      cases insert? params placeholder with
      | none => exact congrArg Insert.text (source_reveal free).symm
      | some given => rfl

theorem masked_insertOf (ready : Hidden mask params) {placeholder : Placeholder}
    (proper : placeholder.Proper) (free : mask.Free placeholder.body) :
    (insertOf params (.marker placeholder)).Masked mask := by
  rw [insertOf]
  cases found : insert? params placeholder with
  | none => exact Mask.masked_source proper free
  | some given => exact masked_insert? ready proper free (by rw [found])

theorem joinTexts_recode (change : Char → Char) (inserts : List Insert) :
    joinTexts (inserts.map (Insert.recode change)) =
      (joinTexts inserts).map (Insert.recode change) := by
  induction inserts with
  | nil => rfl
  | cons first rest ih =>
      cases first with
      | markup content =>
          rw [List.map_cons, Insert.recode, joinTexts, joinTexts, ih, List.map_cons, Insert.recode]
      | text content =>
          rw [List.map_cons, Insert.recode, joinTexts, joinTexts, ih]
          cases joinTexts rest with
          | nil => rfl
          | cons second others =>
              cases second with
              | markup _ => rfl
              | text next =>
                  have joined : content.map change ++ next.map change = (content ++ next).map change := by
                    rw [← String.toList_inj]
                    simp
                  exact congrArg (fun text => Insert.text text :: _) joined

/-- Neighbouring texts come together behind the first one in the same way, whatever it is. -/
theorem exists_joinTexts_text (rest : List Insert) :
    ∃ behind others, ∀ content, joinTexts (.text content :: rest) = .text (content ++ behind) :: others := by
  cases joined : joinTexts rest with
  | nil => exact ⟨"", [], fun content => by simp [joinTexts, joined]⟩
  | cons second others =>
      cases second with
      | markup next =>
          exact ⟨"", .markup next :: others, fun content => by simp [joinTexts, joined]⟩
      | text next => exact ⟨next, others, fun content => by simp [joinTexts, joined]⟩

theorem joinTexts_singles {text : List Char} (some : text ≠ []) (rest : List Insert) :
    joinTexts ((text.map fun c => Insert.text (String.ofList [c])) ++ rest) =
      joinTexts (.text (String.ofList text) :: rest) := by
  obtain ⟨behind, others, joined⟩ := exists_joinTexts_text rest
  induction text with
  | nil => exact absurd rfl some
  | cons c inner ih =>
      cases inner with
      | nil => rfl
      | cons d more =>
          rw [List.map_cons, List.cons_append, joinTexts, ih (by simp), joined, joined]
          have whole : String.ofList [c] ++ (String.ofList (d :: more) ++ behind) =
              String.ofList (c :: d :: more) ++ behind := by
            rw [← String.toList_inj]
            simp
          exact congrArg (fun text => Insert.text text :: others) whole

theorem masked_joinTexts (ready : Hidden mask params) {content : String} (masked : mask.Masked content) :
    ∀ insert ∈ joinTexts ((Piece.ofText content).map (insertOf params)),
      insert.Masked mask := by
  obtain ⟨pieces, whole, calm⟩ := masked
  rw [Piece.ofText, ← whole, Piece.split_sources fun piece member => (calm piece member).neat]
  clear whole
  have append : ∀ front back, (Insert.text front).Masked mask → (Insert.text back).Masked mask →
      (Insert.text (front ++ back)).Masked mask := fun _ _ => Mask.Masked.append
  induction pieces with
  | nil => simp [joinTexts]
  | cons piece rest ih =>
      have others := ih fun other member => calm other (by simp [member])
      have first := calm piece (by simp)
      rw [List.flatMap_cons, List.map_append]
      cases piece with
      | literal text =>
          by_cases empty : text = []
          · subst empty
            exact others
          · have singles : ((Piece.literal text).singles).map (insertOf params) =
                text.map fun c => Insert.text (String.ofList [c]) := by
              rw [Piece.singles, List.map_map]
              rfl
            rw [singles, joinTexts_singles empty]
            refine joinTexts_cons append ?_ others
            exact Mask.masked_of_apart (by simpa using first.1) (by simpa using first.2)
      | marker placeholder =>
          exact joinTexts_cons append (masked_insertOf ready first.1 first.2) others

end Filling

theorem Markup.Document.size_le_of_mem_graftAll {document source : Document} {ids : List NodeId}
    {id : Nat} (member : id ∈ (document.graftAll source ids).2) : document.size ≤ id := by
  induction ids generalizing document with
  | nil => simp [graftAll] at member
  | cons first rest ih =>
      rcases List.mem_cons.mp member with here | later
      · exact Nat.le_of_eq here.symm
      · exact Nat.le_trans (ages_graft document source first).size_le (ih later)

namespace Mask.Covers

open Filling

variable {mask : Mask} {gone : Nat → Prop} {shown hidden : Document} {params : Params}

theorem graftAll (covers : mask.Covers gone shown hidden) {source : Document}
    (slots : source.AllSlots mask.Masked) (fixed : source.recode mask.reveal = source)
    (ids : List NodeId) :
    mask.Covers gone (shown.graftAll source ids).1 (hidden.graftAll source ids).1 ∧
      (shown.graftAll source ids).2 = (hidden.graftAll source ids).2 ∧
      ∀ id ∈ (hidden.graftAll source ids).2, ¬ gone id := by
  have grafted : (hidden.recode mask.reveal).graftAll (source.recode mask.reveal) ids = _ :=
    Document.graftAll_recode hidden source ids
  rw [fixed, covers.reveals] at grafted
  refine ⟨?_, by rw [grafted], ?_⟩
  · exact covers.step (Document.ages_graftAll hidden source ids) (by rw [grafted])
      (covers.severed.graftAll slots ids)
  · exact fun id member => covers.kept_of_size_le (Document.size_le_of_mem_graftAll member)

theorem insertNodes (covers : mask.Covers gone shown hidden) {insert : Insert}
    (masked : insert.Masked mask) :
    mask.Covers gone (insertNodes shown (insert.recode mask.reveal)).1 (insertNodes hidden insert).1 ∧
      (insertNodes shown (insert.recode mask.reveal)).2 = (insertNodes hidden insert).2 ∧
      ∀ id ∈ (insertNodes hidden insert).2, ¬ gone id := by
  cases insert with
  | text content =>
      rw [Insert.recode, Filling.insertNodes, Filling.insertNodes, isEmpty_map]
      split
      · exact ⟨covers, rfl, by simp⟩
      · have created := covers.createElement Wordml.text
        have sameId : (shown.createElement Wordml.text).2 = hidden.size := by
          rw [← covers.reveals, Document.createElement_recode]
          rfl
        refine ⟨?_, congrArg (fun id => [id]) sameId, ?_⟩
        · have filled := (created.setText hidden.size masked).preserveSpace hidden.size
          simp only [sameId]
          exact filled
        · intro id member
          rw [List.mem_singleton] at member
          exact member ▸ covers.kept_of_size_le (Nat.le_refl _)
  | markup content =>
      rw [Insert.recode, Filling.insertNodes, Filling.insertNodes]
      cases parsed : Document.parseFragment content with
      | error problem => exact ⟨covers, rfl, by simp⟩
      | ok fragment =>
          have skipped : SkippedMarkup mask content := masked
          exact covers.graftAll (skipped.slots parsed) (skipped.fixed fragment parsed) _

theorem placeAfter (covers : mask.Covers gone shown hidden) {anchor : NodeId} {ids : List NodeId}
    (anchorKept : ¬ gone anchor) (kept : ∀ id ∈ ids, ¬ gone id) :
    mask.Covers gone (placeAfter shown anchor ids).1 (placeAfter hidden anchor ids).1 ∧
      (placeAfter shown anchor ids).2 = (placeAfter hidden anchor ids).2 ∧
      ¬ gone (placeAfter hidden anchor ids).2 := by
  induction ids generalizing shown hidden anchor with
  | nil => exact ⟨covers, rfl, anchorKept⟩
  | cons id rest ih =>
      have here := kept id (by simp)
      exact ih (covers.insertAfter anchorKept here) here fun other member => kept other (by simp [member])

theorem spliceAfter (covers : mask.Covers gone shown hidden) {anchor : NodeId}
    (anchorKept : ¬ gone anchor) {inserts : List Insert}
    (masked : ∀ insert ∈ inserts, insert.Masked mask) :
    mask.Covers gone (spliceAfter shown anchor (inserts.map (Insert.recode mask.reveal)))
      (spliceAfter hidden anchor inserts) := by
  induction inserts generalizing shown hidden anchor with
  | nil => exact covers
  | cons insert rest ih =>
      obtain ⟨created, sameIds, kept⟩ := covers.insertNodes (masked insert (by simp))
      obtain ⟨placed, sameAnchor, anchorKept⟩ := created.placeAfter anchorKept kept
      rw [List.map_cons, Filling.spliceAfter, Filling.spliceAfter]
      simp only [sameIds, sameAnchor]
      exact ih placed anchorKept fun other member => masked other (by simp [member])

end Mask.Covers

end WordTemplate
