import WordTemplate.Proofs.Package.Registries
import WordTemplate.Proofs.Package.Targets

/-! What a request for an image adds to a gallery, and what it keeps: the relationships of all parts in their
order, and for each source that was used the one media part with its content, whose type is listed. -/

namespace WordTemplate

open Markup (Tree)
open Package (contentTypes relationsPart relationship numberedId highestNumber maxNumber)

/-- Where the content of an image comes from. -/
inductive Image.Source
  | file (path : String)
  | address (url : String)

def Image.Source.name : Image.Source → String
  | file path => path
  | address url => url

/-- A path wins over an address. -/
def Image.source? (image : Image) : Option Image.Source :=
  match image.path, image.url with
  | some path, _ => some (.file path)
  | none, some url => some (.address url)
  | none, none => none

def ImageSources.content? (sources : ImageSources) : Image.Source → Option ByteArray
  | .file path => sources.file? path
  | .address url => (sources.download url).toOption

namespace Gallery

variable {gallery next : Gallery} {sources : ImageSources} {image : Image} {part : String}

/-- The media part of a source that was used before, or else a new one. -/
theorem mediaPart_eq (gallery : Gallery) (sources : ImageSources) (image : Image) :
    (∃ source, image.source? = some source ∧
      ((∃ media, gallery.media.lookup source.name = some media ∧
          gallery.mediaPart sources image = .ok (gallery, media)) ∨
        gallery.media.lookup source.name = none ∧
          ((∃ content, sources.content? source = some content ∧
              gallery.mediaPart sources image = .ok (gallery.store source.name content)) ∨
            sources.content? source = none ∧
              ∃ problem, gallery.mediaPart sources image = .error problem))) ∨
      image.source? = none ∧ ∃ problem, gallery.mediaPart sources image = .error problem := by
  obtain ⟨path, url, width, height⟩ := image
  cases path with
  | some path =>
      refine .inl ⟨.file path, rfl, ?_⟩
      cases known : gallery.media.lookup path with
      | some media => exact .inl ⟨media, known, by simp [mediaPart, known]⟩
      | none =>
          refine .inr ⟨known, ?_⟩
          cases read : sources.file? path with
          | some content => exact .inl ⟨content, read, by simp [mediaPart, known, read]; rfl⟩
          | none => exact .inr ⟨read, .unreadable path, by simp [mediaPart, known, read]⟩
  | none =>
      cases url with
      | some url =>
          refine .inl ⟨.address url, rfl, ?_⟩
          cases known : gallery.media.lookup url with
          | some media => exact .inl ⟨media, known, by simp [mediaPart, known]⟩
          | none =>
              refine .inr ⟨known, ?_⟩
              cases read : sources.download url with
              | ok content =>
                  refine .inl ⟨content, ?_, by simp [mediaPart, known, read]; rfl⟩
                  rw [ImageSources.content?, read]
                  rfl
              | error status =>
                  refine .inr ⟨?_, .download status url, by simp [mediaPart, known, read]⟩
                  rw [ImageSources.content?, read]
                  rfl
      | none => exact .inr ⟨rfl, .missingSource, rfl⟩

/-- A part that entries are added to. -/
def IsRegistry (name : String) : Prop :=
  name = contentTypes ∨ ∃ part, name = relationsPart part

theorem relationsPart_ne_contentTypes (part : String) : relationsPart part ≠ contentTypes :=
  (Package.ne_relationsPart (by decide) part).symm

theorem not_isRegistry_mediaName (source : String) (number : Nat) :
    ¬ IsRegistry (mediaName (suffixOf source) number) := by
  rintro (types | ⟨part, relations⟩)
  · exact mediaName_ne_contentTypes _ _ types
  · exact mediaName_ne_relationsPart (slash_not_mem_suffixOf source) _ _ relations

/-- Relationships to which others were added, with other ids than those that were there. -/
def Continues (before after : List Tree) : Prop :=
  ∃ added, after = before ++ added ∧ ∀ new ∈ added, ∀ old ∈ before,
    new.element.attribute? "Id" ≠ old.element.attribute? "Id"

theorem Continues.refl (entries : List Tree) : Continues entries entries :=
  ⟨[], by simp, by simp⟩

theorem Continues.trans {first second third : List Tree} (left : Continues first second)
    (right : Continues second third) : Continues first third := by
  obtain ⟨added, rfl, new⟩ := left
  obtain ⟨more, rfl, newer⟩ := right
  refine ⟨added ++ more, List.append_assoc .., fun entry member old listed => ?_⟩
  rcases List.mem_append.mp member with here | later
  · exact new entry here old listed
  · exact newer entry later old (List.mem_append_left _ listed)

structure Grows (before after : Gallery) : Prop where
  related : ∀ part, Continues (before.package.entries (relationsPart part))
    (after.package.entries (relationsPart part))
  types : before.package.entries contentTypes <+: after.package.entries contentTypes
  frame : Package.Frame IsRegistry (· ≠ contentTypes) before.package after.package
  media : ∀ name part, before.media.lookup name = some part → after.media.lookup name = some part

theorem Grows.refl (gallery : Gallery) : Grows gallery gallery :=
  ⟨fun _ => .refl _, List.prefix_refl _, .refl _, fun _ _ found => found⟩

theorem Grows.trans {first second third : Gallery} (left : Grows first second)
    (right : Grows second third) : Grows first third where
  related part := (left.related part).trans (right.related part)
  types := left.types.trans right.types
  frame := left.frame.trans right.frame
  media name part found := right.media name part (left.media name part found)

theorem Grows.contentTypes_mem {before after : Gallery} (grows : Grows before after)
    (present : contentTypes ∈ after.package.names) : contentTypes ∈ before.package.names := by
  by_contra absent
  exact grows.frame.new _ present absent rfl

/-- A media part with the content of a source, whose file extension has a content type. -/
structure Stores (sources : ImageSources) (gallery : Gallery) (source : Image.Source) (media : String) :
    Prop where
  named : ∃ number, media = mediaName (suffixOf source.name) number
  content : ∃ content, sources.content? source = some content ∧
    gallery.package.get? media = some content
  typed : contentTypes ∈ gallery.package.names →
    Package.Lists (gallery.package.entries contentTypes) (suffixOf source.name)

theorem Stores.mem_names {source : Image.Source} {media : String}
    (stores : Stores sources gallery source media) : media ∈ gallery.package.names := by
  obtain ⟨content, -, present⟩ := stores.content
  exact Package.mem_names_iff.mpr (by rw [present]; rfl)

theorem Stores.mono {source : Image.Source} {media : String} (stores : Stores sources gallery source media)
    (grows : Grows gallery next) : Stores sources next source media where
  named := stores.named
  content := by
    obtain ⟨content, read, present⟩ := stores.content
    obtain ⟨number, named⟩ := stores.named
    refine ⟨content, read, (grows.frame.same media stores.mem_names ?_).trans present⟩
    exact named ▸ not_isRegistry_mediaName _ _
  typed present := by
    obtain ⟨entry, listed, known, has, same⟩ := stores.typed (grows.contentTypes_mem present)
    exact ⟨entry, grows.types.subset listed, known, has, same⟩

/-- Which media parts a gallery knows: one for each source that was used, and different ones for
different sources. -/
structure Booked (sources : ImageSources) (used : Image.Source → Prop) (gallery : Gallery) : Prop where
  legible : ∀ name, IsRegistry name → gallery.package.Legible name
  media : ∀ name part, gallery.media.lookup name = some part →
    ∃ source, used source ∧ source.name = name ∧ Stores sources gallery source part
  distinct : ∀ first second part, gallery.media.lookup first = some part →
    gallery.media.lookup second = some part → first = second

variable {used : Image.Source → Prop} {source : Image.Source} {content : ByteArray}

theorem frame_registries {before after : Package}
    (frame : Package.Frame (Touches part) (Brings part) before after) :
    Package.Frame IsRegistry (· ≠ contentTypes) before after := by
  refine frame.mono (fun name touched => touched.imp_right fun same => ⟨part, same⟩) ?_
  rintro name (⟨source, number, rfl⟩ | rfl)
  · exact mediaName_ne_contentTypes _ _
  · exact relationsPart_ne_contentTypes part

theorem lookup_store (gallery : Gallery) (name other : String) (content : ByteArray) :
    (gallery.store name content).1.media.lookup other =
      if other = name then some (gallery.store name content).2 else gallery.media.lookup other := by
  simp only [store, List.lookup_cons]
  by_cases same : other = name
  · simp [same]
  · have apart : (other == name) = false := by simpa using same
    simp [same, apart]

section Storing

theorem ne_freshName_of_isRegistry {name : String} (registry : IsRegistry name) :
    name ≠ freshName gallery.package (suffixOf source.name) := by
  obtain ⟨⟨number, named⟩, -⟩ := freshName_spec gallery.package (suffixOf source.name)
  rintro rfl
  rw [named] at registry
  exact not_isRegistry_mediaName _ _ registry

theorem get?_set_of_isRegistry {name : String} (registry : IsRegistry name) :
    (gallery.package.set (freshName gallery.package (suffixOf source.name)) content).get? name =
      gallery.package.get? name := by
  rw [Package.get?_set, if_neg (ne_freshName_of_isRegistry registry)]

theorem get?_relationsPart_store (part : String) :
    (gallery.store source.name content).1.package.get? (relationsPart part) =
      gallery.package.get? (relationsPart part) :=
  (Package.get?_registerImages (relationsPart_ne_contentTypes part) _).trans
    (get?_set_of_isRegistry (.inr ⟨part, rfl⟩))

theorem contentTypes_store (booked : Booked sources used gallery) :
    gallery.package.entries contentTypes <+:
        (gallery.store source.name content).1.package.entries contentTypes ∧
      (gallery.store source.name content).1.package.Legible contentTypes ∧
      (contentTypes ∈ gallery.package.names →
        Package.Lists ((gallery.store source.name content).1.package.entries contentTypes)
          (suffixOf source.name)) := by
  have placed := @get?_set_of_isRegistry gallery source content contentTypes (.inl rfl)
  obtain ⟨types, legible, typed⟩ := Package.registerImages_spec
    ((booked.legible _ (.inl rfl)).congr placed) (suffixOf source.name)
  rw [Package.entries_congr placed] at types
  rw [Package.mem_names_iff, placed, ← Package.mem_names_iff] at typed
  exact ⟨types, legible, typed⟩

theorem grows_store (booked : Booked sources used gallery)
    (new : gallery.media.lookup source.name = none) :
    Grows gallery (gallery.store source.name content).1 := by
  refine ⟨fun part => ?_, (contentTypes_store booked).1,
    frame_registries (frame_store "" source.name content), fun name media found => ?_⟩
  · rw [Package.entries_congr (get?_relationsPart_store part)]
    exact .refl _
  · rw [lookup_store, if_neg]
    · exact found
    · rintro rfl
      rw [new] at found
      cases found

theorem stores_store (booked : Booked sources used gallery)
    (new : gallery.media.lookup source.name = none) (read : sources.content? source = some content) :
    Stores sources (gallery.store source.name content).1 source
      (gallery.store source.name content).2 := by
  obtain ⟨⟨number, named⟩, -⟩ := freshName_spec gallery.package (suffixOf source.name)
  have fresh : (gallery.store source.name content).2 =
    freshName gallery.package (suffixOf source.name) := rfl
  refine ⟨⟨number, named⟩, ⟨content, read, ?_⟩, fun present =>
    (contentTypes_store booked).2.2 ((grows_store booked new).contentTypes_mem present)⟩
  refine (Package.get?_registerImages ?_ _).trans ?_
  · rw [fresh, named]
    exact mediaName_ne_contentTypes _ _
  · rw [Package.get?_set, if_pos fresh]

/-- The name of a new media part was not given to a source before. -/
theorem lookup_ne_store (booked : Booked sources used gallery) (name : String) :
    gallery.media.lookup name ≠ some (gallery.store source.name content).2 := by
  intro found
  obtain ⟨other, -, -, stores⟩ := booked.media _ _ found
  exact (freshName_spec gallery.package (suffixOf source.name)).2 stores.mem_names

theorem store_spec (booked : Booked sources used gallery) (isUsed : used source)
    (new : gallery.media.lookup source.name = none) (read : sources.content? source = some content) :
    Booked sources used (gallery.store source.name content).1 ∧
      Grows gallery (gallery.store source.name content).1 ∧
      ∀ part, (gallery.store source.name content).1.package.entries (relationsPart part) =
        gallery.package.entries (relationsPart part) := by
  have grows : Grows gallery (gallery.store source.name content).1 := grows_store booked new
  refine ⟨⟨?_, ?_, ?_⟩, grows, fun part => Package.entries_congr (get?_relationsPart_store part)⟩
  · rintro name (rfl | ⟨part, rfl⟩)
    · exact (contentTypes_store booked).2.1
    · exact (booked.legible _ (.inr ⟨part, rfl⟩)).congr (get?_relationsPart_store part)
  · intro name media found
    rw [lookup_store] at found
    split at found
    · rename_i same
      cases found
      exact ⟨source, isUsed, same.symm, stores_store booked new read⟩
    · obtain ⟨other, otherUsed, otherNamed, stores⟩ := booked.media name media found
      exact ⟨other, otherUsed, otherNamed, stores.mono grows⟩
  · intro first second media found again
    rw [lookup_store] at found again
    split at found <;> split at again
    · rename_i here there
      rw [here, there]
    · exact absurd (again.trans found.symm) (lookup_ne_store booked second)
    · exact absurd (found.trans again.symm) (lookup_ne_store booked first)
    · exact booked.distinct first second media found again

end Storing

theorem mediaPart_spec (booked : Booked sources used gallery)
    (isUsed : ∀ source, image.source? = some source → used source) {media : String}
    (stored : gallery.mediaPart sources image = .ok (next, media)) :
    ∃ source, image.source? = some source ∧ Booked sources used next ∧ Grows gallery next ∧
      (∀ part, next.package.entries (relationsPart part) =
        gallery.package.entries (relationsPart part)) ∧
      next.media.lookup source.name = some media := by
  rcases mediaPart_eq gallery sources image with
    ⟨source, given, ⟨known, found, kept⟩ | ⟨new, ⟨content, read, added⟩ | ⟨-, problem, failed⟩⟩⟩ |
      ⟨-, problem, failed⟩
  · rw [stored, Except.ok.injEq, Prod.mk.injEq] at kept
    obtain ⟨rfl, rfl⟩ := kept
    exact ⟨source, given, booked, .refl _, fun _ => rfl, found⟩
  · rw [stored, Except.ok.injEq] at added
    obtain ⟨books, grows, related⟩ := store_spec booked (isUsed source given) new read
    rw [← added] at books grows related
    refine ⟨source, given, books, grows, related, ?_⟩
    have found := lookup_store gallery source.name source.name content
    rwa [if_pos rfl, ← added] at found
  · rw [stored] at failed
    cases failed
  · rw [stored] at failed
    cases failed

/-- A relationship to a media part is the last one of its part, and no other part changes. -/
theorem relate_spec (booked : Booked sources used gallery) (part target : String) :
    let id := numberedId (highestNumber (gallery.package.entries (relationsPart part)) + 1)
    let next : Gallery := { gallery with package := (gallery.package.relateImage part target).1 }
    highestNumber (gallery.package.entries (relationsPart part)) < maxNumber →
    (gallery.package.relateImage part target).2 = id ∧ Booked sources used next ∧ Grows gallery next ∧
      next.package.entries (relationsPart part) =
        gallery.package.entries (relationsPart part) ++ [.node (relationship id target) []] ∧
      ∀ other, relationsPart other ≠ relationsPart part →
        next.package.entries (relationsPart other) = gallery.package.entries (relationsPart other) := by
  intro id next room
  obtain ⟨number, entries, legible⟩ :=
    Package.relateImage_spec (booked.legible _ (.inr ⟨part, rfl⟩)) target
  have others : ∀ name, name ≠ relationsPart part →
      next.package.get? name = gallery.package.get? name :=
    fun name other => Package.get?_relateImage_of_ne other target
  have grows : Grows gallery next := by
    refine ⟨fun other => ?_, ?_, ?_, fun _ _ found => found⟩
    · by_cases same : relationsPart other = relationsPart part
      · rw [same]
        refine ⟨_, entries, fun new member old listed => ?_⟩
        rw [List.mem_singleton.mp member]
        exact (Package.numberedId_fresh room old listed).symm
      · rw [Package.entries_congr (others _ same)]
        exact .refl _
    · exact (Package.entries_congr (others _ (relationsPart_ne_contentTypes part).symm)) ▸
        List.prefix_refl _
    · exact frame_registries (Package.frame_relateImage (.inr rfl) (.inr rfl) target)
  refine ⟨number, ⟨fun name registry => ?_, fun name media found => ?_, booked.distinct⟩, grows, entries,
    fun other apart => Package.entries_congr (others _ apart)⟩
  · by_cases same : name = relationsPart part
    · exact same ▸ legible
    · exact (booked.legible name registry).congr (others name same)
  · obtain ⟨source, isUsed, named, stores⟩ := booked.media name media found
    exact ⟨source, isUsed, named, stores.mono grows⟩

structure Shown (gallery next : Gallery) (image : Image) (part markup : String) (media id : String) : Prop where
  markup : markup = Gallery.markup id image
  fresh : ∀ entry ∈ gallery.package.entries (relationsPart part),
    entry.element.attribute? "Id" ≠ some id
  related : next.package.entries (relationsPart part) =
    gallery.package.entries (relationsPart part) ++
      [.node (relationship id (Package.relativeTarget part media)) []]

/-- An image is shown with the media part of its source. -/
theorem resolve_spec (booked : Booked sources used gallery)
    (isUsed : ∀ source, image.source? = some source → used source)
    (room : ∀ part, highestNumber (gallery.package.entries (relationsPart part)) < maxNumber)
    {markup : String} (resolved : gallery.resolve sources image part = .ok (next, markup)) :
    Booked sources used next ∧ Grows gallery next ∧
      (∀ other, highestNumber (next.package.entries (relationsPart other)) ≤
        highestNumber (gallery.package.entries (relationsPart other)) + 1) ∧
      ∃ source media id, image.source? = some source ∧
        next.media.lookup source.name = some media ∧
          Shown gallery next image part markup media id := by
  obtain ⟨middle, media, stored, rfl, rfl⟩ := exists_mediaPart_of_resolve resolved
  obtain ⟨source, given, books, grows, same, found⟩ := mediaPart_spec booked isUsed stored
  have free := room part
  rw [← same part] at free
  obtain ⟨number, related, more, entries, others⟩ :=
    relate_spec books part (Package.relativeTarget part media) free
  refine ⟨related, grows.trans more, fun other => ?_, source, media,
    numberedId (highestNumber (middle.package.entries (relationsPart part)) + 1), given, found,
    ?_, ?_, ?_⟩
  · rw [← same other]
    by_cases here : relationsPart other = relationsPart part
    · rw [here, entries, Package.highestNumber_append free rfl]
    · rw [others other here]
      exact Nat.le_succ _
  · rw [number]
  · rw [← same part]
    exact Package.numberedId_fresh free
  · rw [entries, same part]

end Gallery

end WordTemplate
