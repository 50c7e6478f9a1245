import WordTemplate.Proofs.Filling.Inserts
import WordTemplate.Proofs.Package.Parts

/-! What images become. Their markup holds no brace, and bringing them in keeps all scalars. -/

namespace WordTemplate

namespace Param

theorem unresolved_make {place : Place} {name value : String} {kind : Kind} {children : List Param}
    (here : (make place name value kind children).isResolvedImage = false)
    (below : ∀ found ∈ withAllOf children, found.isResolvedImage = false) :
    ∀ found ∈ (make place name value kind children).withAll, found.isResolvedImage = false := by
  intro found member
  rw [withAll_eq, List.mem_cons] at member
  rcases member with rfl | inside
  · exact here
  · exact below found inside

mutual

theorem unresolved_build {place : Place} {name : String} {json : Json} {param found : Param}
    (built : build place name json = some param) (member : found ∈ param.withAll) :
    found.isResolvedImage = false := by
  cases json with
  | null => simp [build] at built
  | array items =>
      cases built
      exact unresolved_make rfl (fun _ inside => unresolved_buildItems inside) found member
  | object members =>
      rw [build] at built
      split at built
      · cases built
        exact unresolved_make rfl (by simp [withAllOf]) found member
      · cases built
        exact unresolved_make rfl (fun _ inside => unresolved_buildMembers inside) found member
  | _ =>
      cases built
      exact unresolved_make rfl (by simp [withAllOf]) found member

theorem unresolved_buildItems {place : Place} {position : Nat} {items : List Json} {found : Param}
    (member : found ∈ withAllOf (buildItems place position items)) : found.isResolvedImage = false := by
  cases items with
  | nil => simp [buildItems, withAllOf] at member
  | cons item rest =>
      rcases mem_withAllOf_buildItems member with ⟨param, built, inside⟩ | later
      · exact unresolved_build built inside
      · exact unresolved_buildItems later

theorem unresolved_buildMembers {place : Place} {members : List (String × Json)} {found : Param}
    (member : found ∈ withAllOf (buildMembers place members)) : found.isResolvedImage = false := by
  cases members with
  | nil => simp [buildMembers, withAllOf] at member
  | cons entry rest =>
      rcases mem_withAllOf_buildMembers member with ⟨param, built, inside⟩ | later
      · exact unresolved_build built inside
      · exact unresolved_buildMembers later

end

end Param

namespace Gallery

open Markup (Document)
open Filling (Plain PlainMarkup Addressed)

/-- Characters that stand for themselves in markup, none of them a brace. -/
def Verbatim (text : List Char) : Prop :=
  ∀ c ∈ text, Piece.isBrace c = false ∧ c ≠ '&'

instance (text : List Char) : Decidable (Verbatim text) :=
  List.decidableBAll _ text

theorem verbatim_append {front back : List Char} :
    Verbatim (front ++ back) ↔ Verbatim front ∧ Verbatim back :=
  List.forall_mem_append

theorem verbatim_toString (number : Nat) : Verbatim (toString number).toList := by
  rw [Nat.toString_eq_ofList_toDigits, String.toList_ofList]
  intro c member
  have digit := Nat.isDigit_of_mem_toDigits (by decide) (by decide) member
  refine ⟨isBrace_of_isDigit digit, ?_⟩
  rintro rfl
  exact absurd digit (by decide)

theorem plainMarkup_of_verbatim {content : String} (verbatim : Verbatim content.toList) :
    PlainMarkup content := by
  intro fragment parsed
  simp only [Document.parseFragment, bind, Except.bind] at parsed
  split at parsed
  · simp at parsed
  · rename_i source read
    cases parsed
    have whole : Verbatim ("<" ++ Document.fragmentTag ++ ">" ++ content ++ "</" ++
        Document.fragmentTag ++ ">").toList := by
      simp only [String.toList_append, verbatim_append]
      refine ⟨⟨⟨⟨⟨⟨?_, ?_⟩, ?_⟩, verbatim⟩, ?_⟩, ?_⟩, ?_⟩ <;> decide +kernel
    have within := Markup.Source.within_read (by simp) whole read
    intro id _ _
    rcases Document.toElement_ofTree false source.root id with listed | absent
    · have element := within _ listed
      exact ⟨fun _ c member => (element.text c member).1,
        fun entry listed c member => (element.value entry listed c member).1⟩
    · rw [absent]
      exact Document.slots_absent

theorem plainMarkup_markup (number : Nat) (image : Image) :
    PlainMarkup (markup ("rId" ++ toString number) image) := by
  refine plainMarkup_of_verbatim ?_
  delta markup
  simp only [String.toList_append, verbatim_append]
  refine ⟨⟨⟨⟨⟨⟨?_, verbatim_toString _⟩, ?_⟩, verbatim_toString _⟩, ?_⟩, ?_, verbatim_toString _⟩, ?_⟩
  all_goals decide +kernel

variable {gallery : Gallery} {sources : ImageSources} {params : Params} {part : String}

theorem plainMarkup_of_resolve {image : Image} {next : Gallery} {content : String}
    (resolved : gallery.resolve sources image part = .ok (next, content)) : PlainMarkup content := by
  obtain ⟨stored, media, -, -, rfl⟩ := exists_mediaPart_of_resolve resolved
  exact plainMarkup_markup _ image

/-- What an image parameter becomes: an image with plain markup, or an empty scalar. Other parameters
and images that no placeholder refers to stay as they are. -/
theorem resolveParam_cases (sources : ImageSources) (part : String) (keys : List String)
    (gallery : Gallery) (param : Param) :
    (resolveParam sources part keys gallery param).2 = (param.kind, param.value) ∨
      param.image?.isSome = true ∧
        ((resolveParam sources part keys gallery param).2 = (.scalar, "") ∨
          ∃ image content, PlainMarkup content ∧
            (resolveParam sources part keys gallery param).2 = (.image image, content)) := by
  unfold resolveParam
  split
  · rename_i image isImage
    split
    · right
      refine ⟨by simp [Param.image?, isImage], ?_⟩
      split
      · rename_i resolved
        exact .inr ⟨image, _, plainMarkup_of_resolve resolved, rfl⟩
      · exact .inl rfl
    · exact .inl rfl
  · exact .inl rfl

theorem plain_ofJson {json : Json} (built : Params.ofJson json = .ok params)
    (braceless : params.Braceless) : Plain params := by
  refine ⟨Params.keyed_ofJson built, braceless, ?_⟩
  intro param member resolved
  cases json with
  | object members =>
      cases built
      rw [Param.unresolved_buildMembers member] at resolved
      exact absurd resolved (by decide)
  | _ => simp [Params.ofJson] at built

/-- Parameters stay plain when images are brought in. -/
theorem plain_resolveImages (plain : Plain params) (text : String) :
    Plain (gallery.resolveImages sources params part text).2 := by
  simp only [resolveImages]
  split
  · exact plain
  · refine ⟨?_, ⟨?_, ?_⟩, ?_⟩
    · refine Param.keyedAll_traverseAll ?_ plain.keyed
      intro gallery param isList
      rcases resolveParam_cases sources part _ gallery param with
        same | ⟨-, scalar | ⟨image, content, -, shown⟩⟩
      · rwa [same] at isList
      · simp [scalar] at isList
      · simp [shown] at isList
    · intro found member
      obtain ⟨_, origin, listed, key, -⟩ := Param.mem_withAll_traverseAll member
      exact key ▸ plain.braceless.key origin listed
    · intro found member isScalar
      obtain ⟨inner, origin, listed, -, changed⟩ := Param.mem_withAll_traverseAll member
      rcases resolveParam_cases sources part _ inner origin with
        same | ⟨-, scalar | ⟨image, content, -, shown⟩⟩
      · rw [same, Prod.mk.injEq] at changed
        rw [changed.2]
        refine plain.braceless.value origin listed ?_
        rwa [Param.isScalar, ← changed.1]
      · rw [scalar, Prod.mk.injEq] at changed
        rw [changed.2]
        exact braceless_nil
      · rw [shown, Prod.mk.injEq] at changed
        simp [Param.isScalar, changed.1] at isScalar
    · intro found member resolved
      obtain ⟨inner, origin, listed, -, changed⟩ := Param.mem_withAll_traverseAll member
      rcases resolveParam_cases sources part _ inner origin with
        same | ⟨-, scalar | ⟨image, content, readable, shown⟩⟩
      · rw [same, Prod.mk.injEq] at changed
        rw [changed.2]
        refine plain.images origin listed ?_
        rwa [Param.isResolvedImage, Param.image?, ← changed.1, ← changed.2]
      · rw [scalar, Prod.mk.injEq] at changed
        simp [Param.isResolvedImage, Param.image?, changed.1] at resolved
      · rw [shown, Prod.mk.injEq] at changed
        rw [changed.2]
        exact readable

theorem addressed_resolveImages {key : String} (addressed : Addressed params key) (text : String) :
    Addressed (gallery.resolveImages sources params part text).2 key := by
  obtain ⟨param, looked, isScalar⟩ := addressed
  simp only [resolveImages]
  split
  · exact ⟨param, looked, isScalar⟩
  · obtain ⟨inner, changed⟩ := Param.getAmong?_traverseAll
      (resolveParam sources part (referenced params text)) gallery looked
    refine ⟨_, changed, ?_⟩
    have kind : param.kind = .scalar := by simpa [Param.isScalar] using isScalar
    rw [Param.isScalar, Param.traverse_eq]
    rcases resolveParam_cases sources part (referenced params text) inner param with same | ⟨image, -⟩
    · simp [same, kind]
    · simp [Param.image?, kind] at image

end Gallery

end WordTemplate
