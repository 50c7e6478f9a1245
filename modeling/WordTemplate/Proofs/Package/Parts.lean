import WordTemplate.Proofs.Markup.Layout
import WordTemplate.Proofs.Params.Values
import WordTemplate.Template

/-! Which parts of a package stay as they are. Images only touch the content types, the relationships and
media parts that are new; filling a part touches no other content part. -/

namespace WordTemplate

namespace Named

variable {α : Type}

theorem mem_names_insert {name other : String} {value : α} {values : Named α}
    (member : other ∈ (insert name value values).names) : other = name ∨ other ∈ values.names := by
  induction values with
  | nil => exact .inl (List.mem_singleton.mp member)
  | cons entry rest ih =>
      obtain ⟨first, present⟩ := entry
      simp only [insert] at member
      split at member
      · rename_i same
        subst same
        exact (List.mem_cons.mp member).imp_right (List.mem_cons_of_mem _)
      · split at member
        · exact List.mem_cons.mp member
        · rcases List.mem_cons.mp member with here | later
          · exact .inr (here ▸ List.mem_cons_self ..)
          · exact (ih later).imp_right (List.mem_cons_of_mem _)

def Sorted (values : Named α) : Prop :=
  values.names.Pairwise (· < ·)

theorem sorted_insert {name : String} {value : α} {values : Named α} (sorted : values.Sorted) :
    (insert name value values).Sorted := by
  induction values with
  | nil => exact List.pairwise_singleton ..
  | cons entry rest ih =>
      obtain ⟨first, present⟩ := entry
      obtain ⟨before, others⟩ := List.pairwise_cons.mp sorted
      simp only [insert]
      split
      · rename_i same
        subst same
        exact sorted
      · rename_i other
        split
        · rename_i above
          refine List.pairwise_cons.mpr ⟨?_, sorted⟩
          intro later member
          rcases List.mem_cons.mp member with here | below
          · exact here ▸ above
          · exact String.lt_trans above (before later below)
        · rename_i notAbove
          refine List.pairwise_cons.mpr ⟨?_, ih others⟩
          intro later member
          rcases mem_names_insert member with here | below
          · subst here
            exact Std.lt_of_le_of_ne (String.not_lt.mp notAbove) fun same => other same.symm
          · exact before later below

theorem sorted_ofList (values : List (String × α)) : (ofList values).Sorted := by
  rw [ofList]
  exact List.foldlRecOn values _ List.Pairwise.nil fun _ sorted _ _ => sorted_insert sorted

theorem Sorted.nodup {values : Named α} (sorted : values.Sorted) : values.names.Nodup := by
  refine List.Pairwise.imp (S := (· ≠ ·)) ?_ sorted
  rintro first _ before rfl
  exact String.lt_irrefl first before

end Named

namespace Package

variable {package : Package} {name : String}

theorem document?_of_text {text : String} {document : Markup.Document}
    (present : package.get? name = some text.toUTF8) (parsed : Markup.Document.parse text = .ok document) :
    package.document? name = some document := by
  have decoded : String.fromUTF8? text.toUTF8 = some text := dif_pos text.isValidUTF8
  rw [Package.document?, present]
  simp only [Option.bind_eq_bind, Option.bind_some]
  rw [decoded]
  simp [parsed, Except.toOption]

theorem exists_of_document? {document : Markup.Document}
    (read : package.document? name = some document) :
    ∃ content declared tree, package.get? name = some content ∧ document = .ofTree declared tree := by
  simp only [Package.document?, Option.bind_eq_bind, Option.bind_eq_some_iff] at read
  obtain ⟨content, present, text, -, parsed⟩ := read
  cases given : Markup.Document.parse text with
  | error problem => simp [given, Except.toOption] at parsed
  | ok other =>
      simp only [given, Except.toOption, Option.some.injEq] at parsed
      obtain ⟨declared, tree, built⟩ := Markup.Document.exists_ofTree_of_parse given
      exact ⟨content, declared, tree, present, parsed ▸ built⟩

/-- A name that no relationships and no image type are stored under. -/
structure Aside (name : String) : Prop where
  markup : ".xml".toList <:+ name.toList
  notTypes : name ≠ contentTypes

theorem get?_registerImages (aside : name ≠ contentTypes) (suffix : String) :
    (package.registerImages suffix).get? name = package.get? name := by
  unfold registerImages
  split
  · rfl
  · simp only
    split
    · rfl
    · rw [setDocument, get?_set, if_neg aside]

theorem relationsPart_suffix (part : String) : ".rels".toList <:+ (relationsPart part).toList := by
  rw [relationsPart]
  split
  all_goals
    rw [String.toList_append]
    exact List.suffix_append _ _

theorem ne_relationsPart (markup : ".xml".toList <:+ name.toList) (part : String) :
    name ≠ relationsPart part := by
  rintro rfl
  have last := relationsPart_suffix part
  obtain ⟨front, whole⟩ := markup
  obtain ⟨other, whole'⟩ := last
  have same := congrArg List.getLast? (whole.trans whole'.symm)
  rw [List.getLast?_append_of_ne_nil _ (by decide), List.getLast?_append_of_ne_nil _ (by decide)] at same
  exact absurd same (by decide)

theorem get?_relateImage (markup : ".xml".toList <:+ name.toList) (part target : String) :
    (package.relateImage part target).1.get? name = package.get? name := by
  simp only [relateImage, setDocument, get?_set]
  exact if_neg (ne_relationsPart markup part)

end Package

namespace Gallery

open Package (Aside)

variable {gallery : Gallery} {sources : ImageSources} {name : String} {content : ByteArray}

theorem ne_freshName (present : gallery.package.get? name = some content)
    (markup : ".xml".toList <:+ name.toList) (suffix : String) :
    name ≠ freshName gallery.package suffix := by
  rintro rfl
  rw [freshName] at present markup
  cases found : ((List.range (gallery.package.size + 1)).map fun index =>
      mediaName suffix (index + 1)).find? fun name => !gallery.package.contains name with
  | none =>
      simp only [found, Option.getD_none] at markup
      exact absurd markup (by decide)
  | some fresh =>
      have free := List.find?_some found
      simp only [found, Option.getD_some] at present
      simp only [Package.contains, Named.contains, Bool.not_eq_true', Option.isSome_eq_false_iff] at free
      rw [Package.get?] at present
      simp [present] at free

theorem get?_store (aside : Aside name) (present : gallery.package.get? name = some content)
    (source : String) (image : ByteArray) :
    (gallery.store source image).1.package.get? name = some content := by
  simp only [store, Package.get?_registerImages aside.notTypes, Package.get?_set]
  rw [if_neg (ne_freshName present aside.markup _), present]

theorem get?_mediaPart (aside : Aside name) (present : gallery.package.get? name = some content)
    {image : Image} {next : Gallery} {part : String}
    (stored : gallery.mediaPart sources image = .ok (next, part)) :
    next.package.get? name = some content := by
  unfold mediaPart at stored
  split at stored
  case h_3 => simp at stored
  all_goals
    split at stored
    · cases stored
      exact present
    · split at stored
      · cases stored
        exact get?_store aside present _ _
      · simp at stored

theorem exists_mediaPart_of_resolve {image : Image} {part content : String} {next : Gallery}
    (resolved : gallery.resolve sources image part = .ok (next, content)) :
    ∃ stored media, gallery.mediaPart sources image = .ok (stored, media) ∧
      next = { stored with
        package := (stored.package.relateImage part (Package.relativeTarget part media)).1 } ∧
      content = markup (stored.package.relateImage part (Package.relativeTarget part media)).2 image := by
  simp only [resolve, bind, Except.bind] at resolved
  cases stored : gallery.mediaPart sources image with
  | error problem =>
      rw [stored] at resolved
      cases resolved
  | ok answer =>
      rw [stored] at resolved
      cases resolved
      exact ⟨answer.1, answer.2, rfl, rfl, rfl⟩

theorem get?_resolve (aside : Aside name) (present : gallery.package.get? name = some content)
    {image : Image} {part markup : String} {next : Gallery}
    (resolved : gallery.resolve sources image part = .ok (next, markup)) :
    next.package.get? name = some content := by
  obtain ⟨stored, media, given, rfl, -⟩ := exists_mediaPart_of_resolve resolved
  exact (Package.get?_relateImage aside.markup _ _).trans (get?_mediaPart aside present given)

theorem get?_resolveParam (aside : Aside name) (present : gallery.package.get? name = some content)
    (part : String) (keys : List String) (param : Param) :
    (resolveParam sources part keys gallery param).1.package.get? name = some content := by
  unfold resolveParam
  split
  · split
    · split
      · rename_i resolved
        exact get?_resolve aside present resolved
      · exact present
    · exact present
  · exact present

theorem get?_resolveImages (aside : Aside name) (present : gallery.package.get? name = some content)
    (params : Params) (part text : String) :
    (gallery.resolveImages sources params part text).1.package.get? name = some content := by
  simp only [resolveImages]
  split
  · exact present
  · refine Param.traverseAll_fst (fun gallery : Gallery => gallery.package.get? name = some content) ?_
      present
    exact fun _ param present => get?_resolveParam aside present part _ param

end Gallery

namespace Template

open Package (Aside)

variable {gallery : Gallery} {sources : ImageSources} {params : Params} {name : String}
  {content : ByteArray}

theorem get?_fillPart (markup : ".xml".toList <:+ name.toList)
    (noTypes : params.hasImages = true → name ≠ Package.contentTypes)
    (present : gallery.package.get? name = some content) {other : String} (elsewhere : name ≠ other) :
    (fillPart sources params gallery other).1.package.get? name = some content := by
  unfold fillPart
  split
  · exact present
  · simp only
    split
    · rw [Package.setDocument, Package.get?_set, if_neg elsewhere]
      split
      · rename_i images
        exact Gallery.get?_resolveImages ⟨markup, noTypes images⟩ present params _ _
      · exact present
    · exact present

theorem get?_fillParts_of_not_mem (markup : ".xml".toList <:+ name.toList)
    (noTypes : params.hasImages = true → name ≠ Package.contentTypes)
    (present : gallery.package.get? name = some content) {names : List String}
    (elsewhere : name ∉ names) :
    (fillParts sources params gallery names).1.package.get? name = some content := by
  induction names generalizing gallery with
  | nil => exact present
  | cons other rest ih =>
      simp only [List.mem_cons, not_or] at elsewhere
      rw [fillParts]
      exact ih (get?_fillPart markup noTypes present elsewhere.1) elsewhere.2

theorem exists_get?_fillPart (sources : ImageSources) (params : Params)
    (present : gallery.package.get? name = some content) :
    ∃ filled, (fillPart sources params gallery name).1.package.get? name = some filled := by
  unfold fillPart
  split
  · exact ⟨content, present⟩
  · simp only
    split
    · exact ⟨_, by rw [Package.setDocument, Package.get?_set, if_pos rfl]⟩
    · exact ⟨content, present⟩

/-- A part is filled once, and is as it was at the beginning when its turn comes. -/
theorem get?_fillParts (gallery : Gallery) (sources : ImageSources) (params : Params)
    (markup : ".xml".toList <:+ name.toList)
    (noTypes : params.hasImages = true → name ≠ Package.contentTypes)
    (present : gallery.package.get? name = some content) {names : List String}
    (listed : name ∈ names) (distinct : names.Nodup) :
    ∃ before : Gallery, before.package.get? name = some content ∧
      (fillParts sources params gallery names).1.package.get? name =
        (fillPart sources params before name).1.package.get? name := by
  induction names generalizing gallery with
  | nil => simp at listed
  | cons other rest ih =>
      obtain ⟨outside, others⟩ := List.nodup_cons.mp distinct
      rw [fillParts]
      by_cases here : name = other
      · subst here
        obtain ⟨filled, stays⟩ := exists_get?_fillPart sources params present
        exact ⟨gallery, present, (get?_fillParts_of_not_mem markup noTypes stays outside).trans stays.symm⟩
      · exact ih _ (get?_fillPart markup noTypes present here)
          ((List.mem_cons.mp listed).resolve_left here) others

end Template

end WordTemplate
