import WordTemplate.Proofs.Package.Parts
import WordTemplate.Proofs.Placeholder.Bridges
import WordTemplate.Proofs.Wordml.Paragraphs

/-! The placeholders that are left in a template. They are looked for in all paragraphs of all parts at
once, so one may be found that begins in a paragraph and ends in a later one. -/

namespace WordTemplate.Template

open Markup (Document NodeId)
open Wordml (paragraph paragraphsFrom readings repairRuns)

/-- The placeholders of a paragraph that is read by itself. -/
def paragraphMarkers (document : Document) (id : NodeId) : List String :=
  (Placeholder.scan (String.join (readings document id))).map (·.source)

def partMarkers (template : Template) (paragraphs : Document → List NodeId) (name : String) :
    List String :=
  ((template.package.document? name).map fun document =>
    (paragraphs (repairRuns document)).flatMap (paragraphMarkers (repairRuns document))).getD []

def markersOf (template : Template) (paragraphs : Document → List NodeId) : List String :=
  template.contentParts.flatMap (template.partMarkers paragraphs)

/-- The paragraphs of a document. -/
def allParagraphs (document : Document) : List NodeId :=
  paragraphsFrom document document.root

/-- The root, if it is a paragraph. -/
def rootParagraph (document : Document) : List NodeId :=
  if document.tag document.root = paragraph then [document.root] else []

def innerParagraphs (document : Document) : List NodeId :=
  document.findAll document.root [paragraph]

/-- The lines of all content parts, from which the plain text is put together. -/
def textLines (template : Template) : List String :=
  template.contentParts.flatMap fun name =>
    ((template.package.document? name).map lines).getD []

theorem plaintext_eq (template : Template) :
    template.plaintext = "\n".intercalate template.textLines := rfl

theorem flatMap_scan_filter (texts : List String) :
    (texts.filter fun text => !text.isEmpty).flatMap Placeholder.scan = texts.flatMap Placeholder.scan := by
  induction texts with
  | nil => rfl
  | cons text rest ih =>
      rw [List.filter_cons]
      split
      · rw [List.flatMap_cons, List.flatMap_cons, ih]
      · rename_i blank
        have none : text = "" := by simpa using blank
        rw [List.flatMap_cons, ih, none]
        simp [Placeholder.scan, Piece.ofText, Piece.split_nil]

/-- The lines hold the placeholders of the paragraphs below the roots. -/
theorem flatMap_scan_textLines (template : Template) :
    (template.textLines.flatMap Placeholder.scan).map (·.source) =
      template.markersOf innerParagraphs := by
  rw [textLines, markersOf, List.flatMap_assoc, List.map_flatMap]
  refine List.flatMap_congr fun name _ => ?_
  rw [partMarkers]
  cases template.package.document? name with
  | none => rfl
  | some document =>
      simp only [Option.map_some, Option.getD_some]
      rw [lines, flatMap_scan_filter, List.flatMap_map, List.map_flatMap]
      rfl

theorem partMarkers_allParagraphs (template : Template) (name : String) :
    template.partMarkers allParagraphs name =
      template.partMarkers rootParagraph name ++ template.partMarkers innerParagraphs name := by
  rw [partMarkers, partMarkers, partMarkers]
  cases template.package.document? name with
  | none => rfl
  | some document => exact List.flatMap_append

theorem flatMap_append_eq_iff {α β : Type} (ids : List α) (first second : α → List β) :
    ids.flatMap (fun id => first id ++ second id) = ids.flatMap second ↔ ids.flatMap first = [] := by
  have sizes : (ids.flatMap fun id => first id ++ second id).length =
      (ids.flatMap first).length + (ids.flatMap second).length := by
    induction ids with
    | nil => rfl
    | cons id rest ih =>
        simp only [List.flatMap_cons, List.length_append, ih]
        omega
  constructor
  · intro same
    rw [same, Nat.right_eq_add] at sizes
    exact List.length_eq_zero_iff.mp sizes
  · intro none
    rw [List.flatMap_eq_nil_iff] at none
    exact List.flatMap_congr fun id member => by rw [none id member, List.nil_append]

/-- No placeholder of a paragraph below a root is missed. They are all that is found exactly when none
begins in one line and ends in a later one, and they are those of all paragraphs exactly when no root that
is a paragraph holds one itself. -/
theorem placeholders_eq_iff (template : Template) :
    (template.markersOf innerParagraphs).Sublist template.placeholders ∧
      (template.placeholders = template.markersOf innerParagraphs ↔
        ∀ line rest, line :: rest <:+ template.textLines →
          ¬ Piece.Bridges line.toList ("\n".intercalate rest).toList) ∧
      (template.markersOf allParagraphs = template.markersOf innerParagraphs ↔
        template.markersOf rootParagraph = []) := by
  have listed := (Placeholder.sublist_scan_intercalate template.textLines).map Placeholder.source
  rw [flatMap_scan_textLines] at listed
  refine ⟨listed, ?_, ?_⟩
  · rw [← Placeholder.length_scan_intercalate_iff]
    have sizes : (template.textLines.flatMap Placeholder.scan).length =
        (template.markersOf innerParagraphs).length := by
      rw [← flatMap_scan_textLines, List.length_map]
    rw [sizes]
    constructor
    · intro same
      rw [← same, placeholders, List.length_map, plaintext_eq]
    · intro same
      refine (listed.eq_of_length ?_).symm
      rw [List.length_map, same]
  · have parts : template.markersOf allParagraphs = template.contentParts.flatMap fun name =>
        template.partMarkers rootParagraph name ++ template.partMarkers innerParagraphs name :=
      List.flatMap_congr fun name _ => template.partMarkers_allParagraphs name
    rw [parts]
    exact flatMap_append_eq_iff ..

def tornText : String :=
  "<w:document><w:body><w:p><w:r><w:t>\x7b\x7bName </w:t></w:r></w:p><w:p><w:r><w:t>\x7d\x7d</w:t></w:r></w:p></w:body></w:document>"

def tornDocument : Document :=
  let line (content : String) : Markup.Tree :=
    .node { tag := "w:p" } [.node { tag := "w:r" } [.node { tag := "w:t", text := content } []]]
  .ofTree false <| .node { tag := "w:document" }
    [.node { tag := "w:body" } [line "\x7b\x7bName ", line "\x7d\x7d"]]

def tornTemplate : Template :=
  ⟨.ofParts [(Package.mainDocument, tornText.toUTF8)], defaultPatterns⟩

/-- It is found, though neither paragraph holds one. -/
theorem placeholders_torn :
    openPackage tornTemplate.package defaultPatterns = .ok tornTemplate ∧
      tornTemplate.placeholders = ["\x7b\x7bName \n\x7d\x7d"] ∧
      tornTemplate.markersOf allParagraphs = [] := by
  have parsed : Document.parse tornText = .ok tornDocument := by cbv
  have present : tornTemplate.package.get? Package.mainDocument = some tornText.toUTF8 := rfl
  have read := Package.document?_of_text present parsed
  have content : tornTemplate.contentParts = [Package.mainDocument] := by decide +kernel
  have shown : tornTemplate.plaintext = "\x7b\x7bName \n\x7d\x7d" := by
    rw [plaintext_eq, textLines, content, List.flatMap_singleton, read]
    decide +kernel
  refine ⟨if_pos (congrArg Option.isSome present), ?_, ?_⟩
  · rw [placeholders, shown]
    decide +kernel
  · rw [markersOf, content, List.flatMap_singleton, partMarkers, read]
    decide +kernel

end WordTemplate.Template
