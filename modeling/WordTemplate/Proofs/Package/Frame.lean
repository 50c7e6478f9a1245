import Mathlib.Data.List.Nodup
import Mathlib.Data.List.Perm.Subperm
import WordTemplate.Proofs.Package.Parts
import WordTemplate.Proofs.Params.Records

/-! What bringing in images changes in a package. A media part gets a name that no part has, the content types
and the relationships of the part that shows the image are written anew, and no part is removed. -/

namespace WordTemplate

namespace Named

variable {α : Type}

theorem mem_names_iff {name : String} {values : Named α} :
    name ∈ values.names ↔ (values.get? name).isSome = true := by
  induction values with
  | nil => simp [names, get?]
  | cons entry rest ih =>
      obtain ⟨first, present⟩ := entry
      rw [names, get?] at ih
      rw [names, get?, List.map_cons, List.mem_cons, ih, List.lookup_cons]
      by_cases here : name = first
      · simp [here]
      · have : (name == first) = false := by simpa using here
        simp [here, this]

end Named

namespace Package

variable {package before middle after : Package} {name : String} {touched added : String → Prop}

theorem mem_names_iff : name ∈ package.names ↔ (package.get? name).isSome = true :=
  Named.mem_names_iff

theorem mem_names_of_document? {document : Markup.Document}
    (read : package.document? name = some document) : name ∈ package.names := by
  simp only [document?, Option.bind_eq_bind, Option.bind_eq_some_iff] at read
  obtain ⟨content, present, -⟩ := read
  exact mem_names_iff.mpr (by rw [present]; rfl)

/-- One package becomes another by changes of the parts in `touched` and by new parts in `added`. -/
structure Frame (touched added : String → Prop) (before after : Package) : Prop where
  kept : ∀ name ∈ before.names, name ∈ after.names
  same : ∀ name ∈ before.names, ¬ touched name → after.get? name = before.get? name
  new : ∀ name ∈ after.names, name ∉ before.names → added name

namespace Frame

theorem refl (package : Package) : Frame touched added package package :=
  ⟨fun _ member => member, fun _ _ _ => rfl, fun _ member absent => absurd member absent⟩

theorem trans (first : Frame touched added before middle) (second : Frame touched added middle after) :
    Frame touched added before after where
  kept name member := second.kept name (first.kept name member)
  same name member aside :=
    (second.same name (first.kept name member) aside).trans (first.same name member aside)
  new name member absent := by
    by_cases between : name ∈ middle.names
    · exact first.new name between absent
    · exact second.new name member between

theorem mono {touched' added' : String → Prop} (frame : Frame touched added before after)
    (touches : ∀ name, touched name → touched' name) (adds : ∀ name, added name → added' name) :
    Frame touched' added' before after where
  kept := frame.kept
  same name member aside := frame.same name member fun inside => aside (touches name inside)
  new name member absent := adds name (frame.new name member absent)

theorem set (content : ByteArray) (touches : name ∈ package.names → touched name)
    (adds : name ∉ package.names → added name) :
    Frame touched added package (package.set name content) where
  kept other member := by
    rw [mem_names_iff, get?_set]
    split
    · rfl
    · exact mem_names_iff.mp member
  same other member aside := by
    rw [get?_set, if_neg]
    rintro rfl
    exact aside (touches member)
  new other member absent := by
    rw [mem_names_iff, get?_set] at member
    split at member
    · rename_i here
      exact here ▸ adds (here ▸ absent)
    · exact absurd (mem_names_iff.mpr member) absent

end Frame

theorem frame_registerImages (types : touched contentTypes) (suffix : String) :
    Frame touched added package (package.registerImages suffix) := by
  unfold registerImages
  split
  · exact Frame.refl package
  · rename_i read
    simp only
    split
    · exact Frame.refl package
    · exact Frame.set _ (fun _ => types) fun absent => absurd (mem_names_of_document? read) absent

theorem frame_relateImage {part : String} (touches : touched (relationsPart part))
    (adds : added (relationsPart part)) (target : String) :
    Frame touched added package (package.relateImage part target).1 := by
  simp only [relateImage, setDocument]
  exact Frame.set _ (fun _ => touches) fun _ => adds

end Package

namespace Gallery

open Package (Frame)

variable {gallery next : Gallery} {sources : ImageSources} {image : Image} {part : String}

theorem toList_mediaName (suffix : String) (number : Nat) :
    (mediaName suffix number).toList =
      "word/media/image".toList ++ (toString number).toList ++ ".".toList ++ suffix.toList := by
  delta mediaName
  rw [String.toList_append, String.toList_append, String.toList_append]

theorem mediaName_inj {suffix : String} {first second : Nat} :
    mediaName suffix first = mediaName suffix second ↔ first = second := by
  rw [← String.toList_inj, toList_mediaName, toList_mediaName, List.append_cancel_right_eq,
    List.append_cancel_right_eq, List.append_cancel_left_eq, String.toList_inj, toString_inj]

/-- Of as many names as there are parts and one more, one is free. -/
theorem freshName_spec (package : Package) (suffix : String) :
    (∃ number, freshName package suffix = mediaName suffix number) ∧
      freshName package suffix ∉ package.names := by
  have distinct : ((List.range (package.size + 1)).map fun index => mediaName suffix (index + 1)).Nodup := by
    refine List.Nodup.map (fun first second same => ?_) List.nodup_range
    exact Nat.succ.inj (mediaName_inj.mp same)
  rw [freshName]
  cases found : ((List.range (package.size + 1)).map fun index =>
      mediaName suffix (index + 1)).find? fun name => !package.contains name with
  | none =>
      have taken : ((List.range (package.size + 1)).map fun index => mediaName suffix (index + 1)) ⊆
          package.names := by
        intro name member
        have present := List.find?_eq_none.mp found name member
        rw [Package.mem_names_iff]
        rwa [Bool.not_eq_true', Bool.not_eq_false] at present
      have short := (List.Nodup.subperm distinct taken).length_le
      simp only [List.length_map, List.length_range, Package.size, Package.names, Named.names] at short
      omega
  | some name =>
      obtain ⟨index, -, named⟩ := List.mem_map.mp (List.mem_of_find?_eq_some found)
      refine ⟨⟨index + 1, named.symm⟩, ?_⟩
      have free := List.find?_some found
      rw [Package.mem_names_iff]
      simpa [Package.contains, Named.contains, Package.get?] using free

/-- The parts that the images of a part change. -/
def Touches (part name : String) : Prop :=
  name = Package.contentTypes ∨ name = Package.relationsPart part

def Brings (part name : String) : Prop :=
  (∃ source number, name = mediaName (suffixOf source) number) ∨ name = Package.relationsPart part

theorem frame_store (part source : String) (content : ByteArray) :
    Frame (Touches part) (Brings part) gallery.package (gallery.store source content).1.package := by
  obtain ⟨⟨number, named⟩, free⟩ := freshName_spec gallery.package (suffixOf source)
  refine Frame.trans (Frame.set content (fun member => absurd member free) fun _ => ?_)
    (Package.frame_registerImages (.inl rfl) _)
  exact .inl ⟨source, number, named⟩

theorem frame_mediaPart {media : String} (stored : gallery.mediaPart sources image = .ok (next, media))
    (part : String) : Frame (Touches part) (Brings part) gallery.package next.package := by
  unfold mediaPart at stored
  split at stored
  case h_3 => simp at stored
  all_goals
    split at stored
    · cases stored
      exact Frame.refl _
    · split at stored
      · cases stored
        exact frame_store part _ _
      · simp at stored

theorem frame_resolve {markup : String} (resolved : gallery.resolve sources image part = .ok (next, markup)) :
    Frame (Touches part) (Brings part) gallery.package next.package := by
  obtain ⟨stored, media, given, rfl, -⟩ := exists_mediaPart_of_resolve resolved
  exact (frame_mediaPart given part).trans (Package.frame_relateImage (.inr rfl) (.inr rfl) _)

theorem frame_resolveImages (gallery : Gallery) (sources : ImageSources) (params : Params)
    (part text : String) : Frame (Touches part) (Brings part) gallery.package
      (gallery.resolveImages sources params part text).1.package := by
  simp only [resolveImages]
  split
  · exact Frame.refl _
  · refine Param.traverseAll_fst
      (fun state : Gallery => Frame (Touches part) (Brings part) gallery.package state.package) ?_
      (Frame.refl _)
    intro state param frame
    refine frame.trans ?_
    unfold resolveParam
    split
    · split
      · split
        · rename_i resolved
          exact frame_resolve resolved
        · exact Frame.refl _
      · exact Frame.refl _
    · exact Frame.refl _

end Gallery

end WordTemplate
