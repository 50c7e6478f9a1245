import WordTemplate.Proofs.Filling.Finish
import WordTemplate.Proofs.Package.Images
import WordTemplate.Proofs.Package.Parts

/-! Placeholders that a template leaves behind. A part that is filled keeps none that addresses a scalar;
a part without marker in its text is not filled, and keeps those that stand in its values. -/

namespace WordTemplate

theorem Placeholder.Lacks.mono {first second : String → Prop} {text : List Char}
    (lacks : Lacks second text) (weaker : ∀ key, first key → second key) : Lacks first text :=
  fun body after behind plain placeholder read addressed =>
    lacks body after behind plain placeholder read (weaker _ addressed)

namespace Markup.Document

/-- The texts that a document is written with. -/
def writtenTexts (document : Document) : List String :=
  (document.written.filter fun element => element.tag = Wordml.text).map Element.text

/-- The values that a document is written with. -/
def writtenValues (document : Document) : List String :=
  document.written.flatMap fun element => element.attributes.map Attribute.value

theorem written_slots_iff {document : Document} {holds : String → Prop} :
    (∀ element ∈ document.written, element.Slots holds) ↔
      (∀ text ∈ document.writtenTexts, holds text) ∧ ∀ value ∈ document.writtenValues, holds value := by
  constructor
  · intro slots
    constructor
    · intro text member
      obtain ⟨element, listed, rfl⟩ := List.mem_map.mp member
      obtain ⟨inside, isText⟩ := List.mem_filter.mp listed
      exact (slots element inside).text (by simpa using isText)
    · intro value member
      obtain ⟨element, inside, listed⟩ := List.mem_flatMap.mp member
      obtain ⟨entry, given, rfl⟩ := List.mem_map.mp listed
      exact (slots element inside).value entry given
  · rintro ⟨texts, values⟩ element inside
    refine ⟨fun isText => texts _ ?_, fun entry given => values _ ?_⟩
    · exact List.mem_map_of_mem (List.mem_filter.mpr ⟨inside, by simpa using isText⟩)
    · exact List.mem_flatMap.mpr ⟨element, inside, List.mem_map_of_mem given⟩

end Markup.Document

namespace Template

open Markup (Document Tree)
open Filling (Addressed Plain)
open Placeholder (Tidy Lacks)

variable {params : Params} {sources : ImageSources}

/-- Whether a placeholder in one of the texts addresses a scalar. -/
def Unfilled (params : Params) (texts : List String) : Prop :=
  ∃ text ∈ texts, ∃ placeholder ∈ Placeholder.scan text, Addressed params placeholder.key

theorem not_unfilled {texts : List String}
    (lacks : ∀ text ∈ texts, Lacks (Addressed params) text.toList) : ¬ Unfilled params texts := by
  rintro ⟨text, listed, placeholder, member, addressed⟩
  exact (lacks text listed).scan placeholder member addressed

/-- The parameters that a part is filled with, with the images that it shows. -/
def shownParams (sources : ImageSources) (params : Params) (gallery : Gallery) (name text : String) :
    Params :=
  if params.hasImages then (gallery.resolveImages sources params name text).2 else params

theorem get?_fillPart_self {gallery : Gallery} {name : String} {document : Document}
    (read : gallery.package.document? name = some document) :
    (fillPart sources params gallery name).1.package.get? name =
      if Wordml.holdsMarkerStart (document.allText document.root) then
        some (Filling.fill document (shownParams sources params gallery name
          (document.allText document.root))).write.toUTF8
      else gallery.package.get? name := by
  simp only [fillPart, read]
  split
  · simp only [Package.setDocument, Package.get?_set, if_true, shownParams]
    split <;> rfl
  · rfl

theorem markup_of_isContent {patterns : List String} {name : String}
    (content : isContent patterns name = true) : ".xml".toList <:+ name.toList := by
  simp only [isContent, Bool.and_eq_true, List.isSuffixOf_iff_suffix] at content
  exact content.1

theorem mem_names_of_get? {package : Package} {name : String} {content : ByteArray}
    (present : package.get? name = some content) : name ∈ package.names := by
  obtain ⟨front, behind, same, -⟩ := List.lookup_eq_some_iff.mp present
  rw [Package.names, Named.names, same]
  simp

/-- Filling a part with plain parameters leaves nothing in it to be filled. -/
theorem not_unfilled_fill (sources : ImageSources) (plain : Plain params) (gallery : Gallery) (name text : String)
    {declared : Bool} {tree : Tree} (tidy : ∀ element ∈ tree.elements, element.Slots Tidy)
    (notText : (Document.ofTree declared tree).tag (Document.ofTree declared tree).root ≠
      Wordml.text) :
    let shown := Filling.fill (.ofTree declared tree) (shownParams sources params gallery name text)
  ¬ Unfilled params shown.writtenTexts ∧ ¬ Unfilled params shown.writtenValues := by
  intro shown
  have ready : Plain (shownParams sources params gallery name text) := by
    rw [shownParams]
    split
    · exact Gallery.plain_resolveImages plain text
    · exact plain
  have kept : ∀ key, Addressed params key →
      Addressed (shownParams sources params gallery name text) key := by
    intro key addressed
    rw [shownParams]
    split
    · exact Gallery.addressed_resolveImages addressed text
    · exact addressed
  have slots : (Document.ofTree declared tree).AllSlots Tidy := by
    intro id _ _
    rcases Document.toElement_ofTree declared tree id with listed | absent
    · exact tidy _ listed
    · rw [absent]
      exact Document.slots_absent
  have lacks := Filling.lacks_fill ready (Document.rooted_ofTree declared tree) slots notText
  obtain ⟨texts, values⟩ := Document.written_slots_iff.mp lacks
  refine ⟨not_unfilled ?_, not_unfilled ?_⟩
  · exact fun text member => (texts text member).mono kept
  · exact fun value member => (values value member).mono kept

theorem not_unfilled_of_no_marker {declared : Bool} {tree : Tree}
    (none : Wordml.holdsMarkerStart ((Document.ofTree declared tree).allText
      (Document.ofTree declared tree).root) = false) :
    ¬ Unfilled params (Document.ofTree declared tree).writtenTexts := by
  apply not_unfilled
  intro text member
  refine Placeholder.lacks_of_no_opening fun inside => ?_
  obtain ⟨element, listed, rfl⟩ := List.mem_map.mp member
  rw [Document.written_ofTree] at listed
  have shown : ['{', '{'] <:+: ((Document.ofTree declared tree).allText
      (Document.ofTree declared tree).root).toList := by
    rw [Document.allText_ofTree, String.toList_join, List.flatMap_def]
    refine inside.trans (List.infix_of_mem_flatten ?_)
    exact List.mem_map_of_mem (List.mem_map_of_mem (List.mem_filter.mp listed).1)
  rw [← Text.occursIn_iff] at shown
  rw [Wordml.holdsMarkerStart, shown] at none
  exact absurd none (by decide)

theorem eq_of_openPackage {package : Package} {patterns : List String} {template : Template}
    (opened : openPackage package patterns = .ok template) : template = ⟨package, patterns⟩ := by
  unfold openPackage at opened
  split at opened
  · cases opened
    rfl
  · simp at opened

theorem nodup_contentParts {parts : List (String × ByteArray)} {patterns : List String}
    {template : Template} (opened : openPackage (.ofParts parts) patterns = .ok template) :
    template.contentParts.Nodup := by
  rw [eq_of_openPackage opened]
  exact List.Nodup.filter _ (Named.sorted_ofList parts).nodup

/-- A content part is filled from what it holds at the beginning, if a marker starts in its texts. -/
theorem get?_apply {parts : List (String × ByteArray)} {patterns : List String} {template : Template}
    (opened : openPackage (.ofParts parts) patterns = .ok template) (sources : ImageSources)
    {name : String} (content : isContent patterns name = true)
    (noTypes : params.hasImages = true → name ≠ Package.contentTypes) {document : Document}
    (read : template.package.document? name = some document) :
    ∃ gallery : Gallery, (template.apply sources params).1.package.get? name =
      if Wordml.holdsMarkerStart (document.allText document.root) then
        some (Filling.fill document (shownParams sources params gallery name
          (document.allText document.root))).write.toUTF8
      else template.package.get? name := by
  obtain ⟨bytes, declared, tree, present, rfl⟩ := Package.exists_of_document? read
  have listed : name ∈ template.contentParts := by
    rw [contentParts, List.mem_filter, eq_of_openPackage opened]
    rw [eq_of_openPackage opened] at present
    exact ⟨mem_names_of_get? present, content⟩
  obtain ⟨before, same, applied⟩ := get?_fillParts ⟨template.package, []⟩ sources params
    (markup_of_isContent content) noTypes present listed (nodup_contentParts opened)
  have again : before.package.document? name = some (.ofTree declared tree) := by
    rw [← read]
    simp only [Package.document?, same, present]
  rw [get?_fillPart_self again, same, ← present] at applied
  exact ⟨before, applied⟩

section Tooltip

/-- A link with a placeholder as its tooltip. -/
def tooltip (content : String) : Document :=
  let link : Markup.Element :=
    { tag := "w:hyperlink", attributes := [⟨"w:tooltip", "\x7b\x7bName\x7d\x7d"⟩] }
  .ofTree false (.node { tag := "w:document" } [.node link [.node { tag := "w:t", text := content } []]])

def tooltipText : String :=
  "<w:document><w:hyperlink w:tooltip=\"\x7b\x7bName\x7d\x7d\"><w:t>\x7b\x7bName\x7d\x7d</w:t></w:hyperlink></w:document>"

def bareTooltipText : String :=
  "<w:document><w:hyperlink w:tooltip=\"\x7b\x7bName\x7d\x7d\"><w:t>Link</w:t></w:hyperlink></w:document>"

def tooltipTemplate (text : String) : Template :=
  ⟨.ofParts [(Package.mainDocument, text.toUTF8)], defaultPatterns⟩

def tooltipJson : Json :=
  .object [("Name", .string "Ada")]

def tooltipParams : Params :=
  .ofMembers [("Name", .string "Ada")]

theorem braceless_tooltipParams : tooltipParams.Braceless := by
  constructor <;> decide +kernel

theorem get?_tooltipTemplate (text : String) :
    (tooltipTemplate text).package.get? Package.mainDocument = some text.toUTF8 :=
  rfl

theorem open_tooltipTemplate (text : String) :
    openPackage (tooltipTemplate text).package defaultPatterns = .ok (tooltipTemplate text) := by
  have main : (tooltipTemplate text).package.contains Package.mainDocument = true :=
    congrArg Option.isSome (get?_tooltipTemplate text)
  exact if_pos main

end Tooltip

end Template

end WordTemplate
