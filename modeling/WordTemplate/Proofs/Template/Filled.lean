import WordTemplate.Proofs.Package.Frame
import WordTemplate.Proofs.Template.Unfilled

/-! What a template changes in its package. The content parts in which a marker starts are filled, each from
what it holds at the beginning. All else stays, but for what the images of these parts bring with them. -/

namespace WordTemplate

namespace Template

open Markup (Document)
open Package (Frame)

variable {gallery : Gallery} {sources : ImageSources} {params : Params} {name : String}
  {document : Document}

/-- The document of a part, if a marker starts in its text. -/
def marked? (package : Package) (name : String) : Option Document :=
  (package.document? name).filter fun document =>
    Wordml.holdsMarkerStart (document.allText document.root)

def filledParts (template : Template) : List String :=
  template.contentParts.filter fun name => (marked? template.package name).isSome

theorem marked?_congr {package other : Package} (same : package.get? name = other.get? name) :
    marked? package name = marked? other name := by
  simp only [marked?, Package.document?, same]

theorem marked?_eq_some {package : Package} : marked? package name = some document ↔
    package.document? name = some document ∧
      Wordml.holdsMarkerStart (document.allText document.root) = true := by
  rw [marked?, Option.filter_eq_some_iff]

theorem fillPart_of_marked?_eq_none (sources : ImageSources) (params : Params)
    (unmarked : marked? gallery.package name = none) :
    fillPart sources params gallery name = (gallery, false) := by
  unfold fillPart
  split
  · rfl
  · rename_i document read
    simp only
    split
    · rename_i gate
      rw [marked?_eq_some.mpr ⟨read, gate⟩] at unmarked
      cases unmarked
    · rfl

/-- Filling a part changes the part and, if there are images, what they change for it. -/
def Touches (params : Params) (part name : String) : Prop :=
  name = part ∨ params.hasImages = true ∧ Gallery.Touches part name

def Brings (params : Params) (part name : String) : Prop :=
  params.hasImages = true ∧ Gallery.Brings part name

theorem fillPart_of_marked?_eq_some (sources : ImageSources) (params : Params)
    (marked : marked? gallery.package name = some document) :
    (fillPart sources params gallery name).2 = true ∧
      Frame (Touches params name) (Brings params name) gallery.package
        (fillPart sources params gallery name).1.package := by
  obtain ⟨read, gate⟩ := marked?_eq_some.mp marked
  have present := Package.mem_names_of_document? read
  simp only [fillPart, read, gate, if_true, true_and]
  split
  · rename_i images
    have frame : Frame (Touches params name) (Brings params name) gallery.package
        (gallery.resolveImages sources params name (document.allText document.root)).1.package :=
      (gallery.frame_resolveImages sources params name (document.allText document.root)).mono
        (fun _ touched => .inr ⟨images, touched⟩) fun _ brought => ⟨images, brought⟩
    exact frame.trans <|
      Frame.set _ (fun _ => .inl rfl) fun absent => absurd (frame.kept name present) absent
  · exact Frame.set _ (fun _ => .inl rfl) fun absent => absurd present absent

/-- Parts are filled one after the other, each as it was at the start, since filling one leaves the others
as they are. -/
theorem frame_fillParts {start : Package} {names : List String} (distinct : names.Nodup)
    (markup : ∀ name ∈ names, ".xml".toList <:+ name.toList)
    (noTypes : params.hasImages = true → Package.contentTypes ∉ names)
    (asStart : ∀ name ∈ names, ∃ content, start.get? name = some content ∧
      gallery.package.get? name = some content) :
    let filled := names.filter fun name => (marked? start name).isSome
    (fillParts sources params gallery names).2 = filled.length ∧
      Frame (fun name => ∃ part ∈ filled, Touches params part name)
        (fun name => ∃ part ∈ filled, Brings params part name) gallery.package
        (fillParts sources params gallery names).1.package := by
  induction names generalizing gallery with
  | nil => exact ⟨rfl, Frame.refl _⟩
  | cons name rest ih =>
      obtain ⟨outside, others⟩ := List.nodup_cons.mp distinct
      obtain ⟨content, before, now⟩ := asStart name (List.mem_cons_self ..)
      have same : marked? gallery.package name = marked? start name :=
        marked?_congr (now.trans before.symm)
      have later : ∀ other ∈ rest, ∃ content, start.get? other = some content ∧
          (fillPart sources params gallery name).1.package.get? other = some content := by
        intro other member
        obtain ⟨content, before, now⟩ := asStart other (List.mem_cons_of_mem _ member)
        refine ⟨content, before, get?_fillPart (markup other (List.mem_cons_of_mem _ member)) ?_ now ?_⟩
        · rintro images rfl
          exact noTypes images (List.mem_cons_of_mem _ member)
        · rintro rfl
          exact outside member
      obtain ⟨count, frame⟩ := ih others (fun other member => markup other (List.mem_cons_of_mem _ member))
        (fun images member => noTypes images (List.mem_cons_of_mem _ member)) later
      intro filled
      rw [fillParts]
      cases marked : marked? start name with
      | none =>
          have skips : filled = rest.filter fun name => (marked? start name).isSome := by
            simp [filled, marked]
          rw [fillPart_of_marked?_eq_none sources params (same.trans marked)] at frame count ⊢
          rw [skips]
          exact ⟨count, frame⟩
      | some document =>
          have listed : filled = name :: rest.filter fun name => (marked? start name).isSome := by
            simp [filled, marked]
          obtain ⟨fills, first⟩ := fillPart_of_marked?_eq_some sources params (same.trans marked)
          simp only [listed, fills, if_true, List.length_cons, count, true_and]
          refine Frame.trans (first.mono ?_ ?_) (frame.mono ?_ ?_)
          · exact fun _ touched => ⟨name, List.mem_cons_self .., touched⟩
          · exact fun _ brought => ⟨name, List.mem_cons_self .., brought⟩
          · rintro _ ⟨part, member, touched⟩
            exact ⟨part, List.mem_cons_of_mem _ member, touched⟩
          · rintro _ ⟨part, member, brought⟩
            exact ⟨part, List.mem_cons_of_mem _ member, brought⟩

theorem mem_filledParts {template : Template} : name ∈ template.filledParts ↔
    isContent template.patterns name = true ∧
      ∃ document, template.package.document? name = some document ∧
        Wordml.holdsMarkerStart (document.allText document.root) = true := by
  rw [filledParts, contentParts, List.mem_filter, List.mem_filter, Option.isSome_iff_exists]
  simp only [marked?_eq_some]
  constructor
  · rintro ⟨⟨-, content⟩, document, read, gate⟩
    exact ⟨content, document, read, gate⟩
  · rintro ⟨content, document, read, gate⟩
    exact ⟨⟨Package.mem_names_of_document? read, content⟩, document, read, gate⟩

theorem frame_filledParts {parts : List (String × ByteArray)} {patterns : List String}
    {template : Template} (opened : openPackage (.ofParts parts) patterns = .ok template)
    (sources : ImageSources)
    (noTypes : params.hasImages = true → isContent patterns Package.contentTypes = false) :
    (template.apply sources params).2 = template.filledParts.length ∧
      Frame (fun name => ∃ part ∈ template.filledParts, Touches params part name)
        (fun name => ∃ part ∈ template.filledParts, Brings params part name) template.package
        (template.apply sources params).1.package := by
  have content : ∀ name ∈ template.contentParts,
      name ∈ template.package.names ∧ isContent patterns name = true := by
    intro name member
    rw [contentParts, List.mem_filter] at member
    rwa [eq_of_openPackage opened] at member ⊢
  have asStart : ∀ name ∈ template.contentParts, ∃ bytes,
      template.package.get? name = some bytes ∧
        (⟨template.package, []⟩ : Gallery).package.get? name = some bytes := by
    intro name member
    obtain ⟨bytes, present⟩ :=
      Option.isSome_iff_exists.mp (Package.mem_names_iff.mp (content name member).1)
    exact ⟨bytes, present, present⟩
  refine frame_fillParts (nodup_contentParts opened) ?_ ?_ asStart
  · exact fun name member => markup_of_isContent (content name member).2
  · intro images member
    have selected := (content Package.contentTypes member).2
    rw [noTypes images] at selected
    cases selected

/-- Every part that is filled gets what its own content is filled to. -/
theorem get?_of_mem_filledParts {parts : List (String × ByteArray)} {patterns : List String}
    {template : Template} (opened : openPackage (.ofParts parts) patterns = .ok template)
    (sources : ImageSources)
    (noTypes : params.hasImages = true → isContent patterns Package.contentTypes = false)
    (member : name ∈ template.filledParts) :
    ∃ document gallery, template.package.document? name = some document ∧
      (template.apply sources params).1.package.get? name =
        some (Filling.fill document (shownParams sources params gallery name
          (document.allText document.root))).write.toUTF8 := by
  obtain ⟨content, document, read, gate⟩ := mem_filledParts.mp member
  rw [eq_of_openPackage opened] at content
  have notTypes : params.hasImages = true → name ≠ Package.contentTypes := by
    rintro images rfl
    rw [noTypes images] at content
    cases content
  obtain ⟨gallery, applied⟩ := get?_apply opened sources content notTypes read
  rw [if_pos gate] at applied
  exact ⟨document, gallery, read, applied⟩

/-- What becomes of a package when its template is filled. The parts that are filled are counted and each
gets what its own content is filled to; no part is removed. Without images nothing else changes. With images,
new parts are media and relationships of filled parts, and these relationships and the content types are all
that changes besides. -/
theorem frame_apply {parts : List (String × ByteArray)} {patterns : List String}
    {template : Template} (opened : openPackage (.ofParts parts) patterns = .ok template)
    (sources : ImageSources) (params : Params)
    (noTypes : params.hasImages = true → isContent patterns Package.contentTypes = false) :
    let after := (template.apply sources params).1.package
    (template.apply sources params).2 = template.filledParts.length ∧
      (∀ name ∈ template.package.names, name ∈ after.names) ∧
      (∀ name ∈ template.filledParts, ∃ document gallery,
        template.package.document? name = some document ∧
          after.get? name = some (Filling.fill document (shownParams sources params gallery name
            (document.allText document.root))).write.toUTF8) ∧
      (params.hasImages = false →
        (∀ name ∈ after.names, name ∈ template.package.names) ∧
          (∀ name ∈ template.package.names, name ∉ template.filledParts →
            after.get? name = template.package.get? name) ∧
          ∀ name ∈ template.filledParts, ∃ document,
            template.package.document? name = some document ∧
              after.get? name = some (Filling.fill document params).write.toUTF8) ∧
      (params.hasImages = true →
        (∀ name ∈ after.names, name ∉ template.package.names →
          (∃ source number, name = Gallery.mediaName (Gallery.suffixOf source) number) ∨
            ∃ part ∈ template.filledParts, name = Package.relationsPart part) ∧
          ∀ name ∈ template.package.names, name ∉ template.filledParts →
            name ≠ Package.contentTypes →
            (∀ part ∈ template.filledParts, name ≠ Package.relationsPart part) →
            after.get? name = template.package.get? name) := by
  intro after
  obtain ⟨count, frame⟩ := frame_filledParts opened sources noTypes
  refine ⟨count, frame.kept, fun name member => get?_of_mem_filledParts opened sources noTypes member,
    fun noImages => ⟨?_, ?_, ?_⟩, fun images => ⟨?_, ?_⟩⟩
  · intro name member
    by_contra absent
    obtain ⟨part, -, images, -⟩ := frame.new name member absent
    rw [noImages] at images
    cases images
  · intro name present aside
    refine frame.same name present ?_
    rintro ⟨part, member, rfl | ⟨images, -⟩⟩
    · exact aside member
    · rw [noImages] at images
      cases images
  · intro name member
    obtain ⟨document, gallery, read, applied⟩ :=
      get?_of_mem_filledParts opened sources noTypes member
    rw [shownParams, if_neg (by rw [noImages]; decide)] at applied
    exact ⟨document, read, applied⟩
  · intro name member absent
    obtain ⟨part, listed, -, media | relations⟩ := frame.new name member absent
    · exact .inl media
    · exact .inr ⟨part, listed, relations⟩
  · intro name present aside notTypes notRelations
    refine frame.same name present ?_
    rintro ⟨part, member, rfl | ⟨-, types | relations⟩⟩
    · exact aside member
    · exact notTypes types
    · exact notRelations part member relations

section Letter

/-- A letter with a logo that it does not show, and with styles. -/
def letterTemplate : Template :=
  ⟨.ofParts [(Package.contentTypes, "<Types />".toUTF8), (Package.mainDocument, tooltipText.toUTF8),
    ("word/styles.xml", "<w:styles />".toUTF8)], defaultPatterns⟩

def letterParams : Params :=
  .ofMembers [("Logo", .object [(Image.tag, .object [("path", .string "logo.png")])]),
    ("Name", .string "Ada")]

theorem filledParts_letterTemplate : letterTemplate.filledParts = [Package.mainDocument] := by
  have content : letterTemplate.contentParts = [Package.mainDocument] := by decide +kernel
  have parsed : Document.parse tooltipText = .ok (tooltip "\x7b\x7bName\x7d\x7d") := by cbv
  have present : letterTemplate.package.get? Package.mainDocument = some tooltipText.toUTF8 := by
    simp only [letterTemplate, Package.get?, Package.ofParts]
    rfl
  have marked : marked? letterTemplate.package Package.mainDocument =
      some (tooltip "\x7b\x7bName\x7d\x7d") :=
    marked?_eq_some.mpr ⟨Package.document?_of_text present parsed, by decide +kernel⟩
  rw [filledParts, content, List.filter_cons, marked]
  rfl

/-- The letter is filled, and its styles stay as they are. -/
theorem frame_apply_letter :
    (letterTemplate.apply ⟨fun _ => none, fun _ => .error 404⟩ letterParams).2 = 1 ∧
      (letterTemplate.apply ⟨fun _ => none, fun _ => .error 404⟩ letterParams).1.package.get?
        "word/styles.xml" = letterTemplate.package.get? "word/styles.xml" := by
  have opened : openPackage letterTemplate.package defaultPatterns = .ok letterTemplate :=
    if_pos (by decide +kernel)
  obtain ⟨count, -, -, -, images⟩ := frame_apply opened ⟨fun _ => none, fun _ => .error 404⟩
    letterParams fun _ => by decide +kernel
  rw [filledParts_letterTemplate] at count images
  refine ⟨count, (images (by decide +kernel)).2 _ (by decide +kernel) (by decide) (by decide) ?_⟩
  decide +kernel

end Letter

end Template

end WordTemplate
