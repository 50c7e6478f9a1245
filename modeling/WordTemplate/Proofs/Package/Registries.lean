import WordTemplate.Proofs.Markup.Entries
import WordTemplate.Proofs.Package.Frame

/-! The registries of a package as lists of entries. A relationship or a content type that is added stands
behind those that were there, all of which are found again when the part is read; the id of a new relationship
is the id of no other. -/

namespace WordTemplate

open Markup (Document Element Tree)

namespace Package

def numberedId (number : Nat) : String :=
  "rId" ++ toString number

theorem idNumber?_numberedId {number : Nat} (bound : number ≤ maxNumber) :
    idNumber? (numberedId number) = some number := by
  have spelled : (numberedId number).toList = 'r' :: 'I' :: 'd' :: (toString number).toList := by
    rw [numberedId, String.toList_append]
    rfl
  have plain : ∀ digits, (toString number).toList ≠ '+' :: digits := by
    intro digits same
    rw [Nat.toString_eq_ofList_toDigits, String.toList_ofList] at same
    have digit : ('+' : Char).isDigit = true := Nat.isDigit_of_mem_toDigits (by decide) (by decide)
      (same ▸ List.mem_cons_self ..)
    exact absurd digit (by decide)
  have read : (Text.number? 10 (toString number).toList).filter (fun number => number ≤ maxNumber) =
      some number := by
    rw [Text.number?_toString]
    simp [bound]
  rw [idNumber?, spelled]
  simpa only [plain] using read

def idNumbers (entries : List Tree) : List Nat :=
  entries.filterMap fun entry => (entry.element.attribute? "Id").bind idNumber?

def highestNumber (entries : List Tree) : Nat :=
  (idNumbers entries).foldl max 0

theorem le_highestNumber {entries : List Tree} {number : Nat} (used : number ∈ idNumbers entries) :
    number ≤ highestNumber entries := by
  rw [highestNumber, List.foldl_max]
  exact Nat.le_trans (List.le_max?_getD_of_mem used) (Nat.le_max_right ..)

theorem numberedId_fresh {entries : List Tree} (room : highestNumber entries < maxNumber) :
    ∀ entry ∈ entries, entry.element.attribute? "Id" ≠ some (numberedId (highestNumber entries + 1)) := by
  intro entry member same
  have used : highestNumber entries + 1 ∈ idNumbers entries := by
    refine List.mem_filterMap.mpr ⟨entry, member, ?_⟩
    rw [same, Option.bind_some, idNumber?_numberedId room]
  have := le_highestNumber used
  omega

theorem highestNumber_append {entries : List Tree} {entry : Tree}
    (room : highestNumber entries < maxNumber)
    (next : entry.element.attribute? "Id" = some (numberedId (highestNumber entries + 1))) :
    highestNumber (entries ++ [entry]) = highestNumber entries + 1 := by
  have read : (entry.element.attribute? "Id").bind idNumber? = some (highestNumber entries + 1) := by
    rw [next, Option.bind_some, idNumber?_numberedId room]
  have above : max (highestNumber entries) (highestNumber entries + 1) = highestNumber entries + 1 := by
    omega
  rw [highestNumber, idNumbers, List.filterMap_append, List.foldl_append, List.filterMap_cons, read]
  exact above

end Package

namespace Markup.Document

def entries (document : Document) : List Tree :=
  (document.liveTree document.root).children

@[simp]
theorem entries_ofTree (declared : Bool) (tree : Tree) : (ofTree declared tree).entries = tree.children := by
  rw [entries, liveTree_ofTree]

theorem map_children_ofTree (declared : Bool) (tree : Tree) :
    ((ofTree declared tree).children (ofTree declared tree).root).map
        (fun id => ((ofTree declared tree).node id).toElement) =
      tree.children.map Tree.element := by
  obtain ⟨element, children⟩ := tree
  have has := (holds_ofTree declared (.node element children)).has
    ⟨0, none, (Tree.outlines 1 children).map Outline.id⟩ (by simp [Outline.linksAll, Outline.links, Tree.outline])
  have shown := toTree_ofTree declared (.node element children)
  rw [Tree.outline, Outline.toTree, Tree.node.injEq, Outline.toTrees_eq] at shown
  rw [show (ofTree declared (.node element children)).root = 0 from rfl, has.children, List.map_map,
    show (Tree.node element children).children = children from rfl]
  conv_rhs => rw [← shown.2]
  rw [List.map_map]
  refine List.map_congr_left fun outline _ => ?_
  cases outline
  rfl

end Markup.Document

namespace Package

variable {package : Package} {name : String}

def entries (package : Package) (name : String) : List Tree :=
  ((package.document? name).map Document.entries).getD []

/-- A part that is missing, or that holds a document which can be written and read again. -/
def Legible (package : Package) (name : String) : Prop :=
  name ∈ package.names → ∃ document, package.document? name = some document ∧
    (document.liveTree document.root).Writable

theorem Legible.cases (legible : package.Legible name) :
    package.document? name = none ∧ name ∉ package.names ∨
      ∃ declared tree, package.document? name = some (.ofTree declared tree) ∧ tree.Writable := by
  by_cases present : name ∈ package.names
  · obtain ⟨document, read, writable⟩ := legible present
    obtain ⟨-, declared, tree, -, rfl⟩ := exists_of_document? read
    rw [Document.liveTree_ofTree] at writable
    exact .inr ⟨declared, tree, read, writable⟩
  · refine .inl ⟨?_, present⟩
    rw [mem_names_iff, Option.not_isSome_iff_eq_none] at present
    rw [document?, present]
    rfl

theorem entries_setDocument (package : Package) (name : String) (declared : Bool) {tree : Tree}
    (writable : tree.Writable) {entry : Element} (proper : entry.Writable) :
    (package.setDocument name ((Document.ofTree declared tree).appendEntry entry)).entries name =
        tree.children ++ [.node entry []] ∧
      (package.setDocument name ((Document.ofTree declared tree).appendEntry entry)).Legible name := by
  have present : (package.setDocument name ((Document.ofTree declared tree).appendEntry entry)).get? name =
      some ((Document.ofTree declared tree).appendEntry entry).write.toUTF8 := by
    rw [setDocument, get?_set, if_pos rfl]
  have read := document?_of_text present (Document.parse_write_appendEntry writable proper declared)
  constructor
  · rw [entries, read, Option.map_some, Option.getD_some, Document.entries_ofTree, Tree.children_reread]
    rfl
  · intro _
    refine ⟨_, read, ?_⟩
    rw [Document.liveTree_ofTree]
    exact Tree.writable_appendEntry writable proper

theorem entries_congr {other : Package} (same : other.get? name = package.get? name) :
    other.entries name = package.entries name := by
  simp only [entries, document?, same]

theorem Legible.congr {other : Package} (legible : package.Legible name)
    (same : other.get? name = package.get? name) : other.Legible name := by
  intro present
  rw [mem_names_iff, same, ← mem_names_iff] at present
  have read : other.document? name = package.document? name := by
    simp only [document?, same]
  rw [read]
  exact legible present

/-! Relationships -/

def relationship (id target : String) : Element :=
  { tag := "Relationship", attributes := [⟨"Id", id⟩, ⟨"Type", imageRelation⟩, ⟨"Target", target⟩] }

theorem writable_relationship (id target : String) : (relationship id target).Writable :=
  Element.writable_of_names "Relationship" ["Id", "Type", "Target"] ⟨rfl, rfl⟩ (by decide)

theorem relateImage_eq (package : Package) (part target : String) :
    package.relateImage part target =
      let relations := (package.document? (relationsPart part)).getD emptyRelations
      let id := numberedId (freshNumber relations)
      (package.setDocument (relationsPart part) (relations.appendEntry (relationship id target)), id) := by
  have built (document : Document) (id : String) :
      (((document.createElement "Relationship").1.setAttribute document.size "Id" id).setAttribute
        document.size "Type" imageRelation).setAttribute document.size "Target" target =
          (document.push [{ toElement := relationship id target }]).1 := by
    rw [Document.createElement, Document.setAttribute_push, Document.setAttribute_push,
      Document.setAttribute_push]
    rfl
  simp only [relateImage, Document.createElement_snd]
  rw [built]
  rfl

def emptyTree : Tree :=
  .node { tag := "Relationships", attributes := [⟨"xmlns", relationsSpace⟩] } []

theorem emptyRelations_eq : emptyRelations = .ofTree false emptyTree := rfl

theorem writable_emptyTree : emptyTree.Writable :=
  .node (Element.writable_of_names "Relationships" ["xmlns"] ⟨rfl, rfl⟩ (by decide)) (by simp) (by simp)

theorem freshNumber_ofTree (declared : Bool) (tree : Tree) :
    freshNumber (.ofTree declared tree) = highestNumber tree.children + 1 := by
  have same := congrArg (List.filterMap fun element : Element => (element.attribute? "Id").bind idNumber?)
    (Document.map_children_ofTree declared tree)
  rw [List.filterMap_map, List.filterMap_map] at same
  rw [freshNumber, highestNumber, idNumbers]
  exact congrArg (fun used => used.foldl max 0 + 1) same

theorem entries_of_not_mem (absent : name ∉ package.names) : package.entries name = [] := by
  rw [mem_names_iff, Option.not_isSome_iff_eq_none] at absent
  rw [entries, document?, absent]
  rfl

theorem relateImage_spec {part : String} (legible : package.Legible (relationsPart part))
    (target : String) :
    let id := numberedId (highestNumber (package.entries (relationsPart part)) + 1)
    (package.relateImage part target).2 = id ∧
      (package.relateImage part target).1.entries (relationsPart part) =
        package.entries (relationsPart part) ++ [.node (relationship id target) []] ∧
      (package.relateImage part target).1.Legible (relationsPart part) := by
  intro id
  have found : ∃ declared tree, tree.Writable ∧
      (package.document? (relationsPart part)).getD emptyRelations = .ofTree declared tree ∧
        package.entries (relationsPart part) = tree.children := by
    rcases legible.cases with ⟨unread, absent⟩ | ⟨declared, tree, read, writable⟩
    · refine ⟨false, emptyTree, writable_emptyTree, ?_, entries_of_not_mem absent⟩
      rw [unread, Option.getD_none, emptyRelations_eq]
    · refine ⟨declared, tree, writable, ?_, ?_⟩
      · rw [read, Option.getD_some]
      · rw [entries, read, Option.map_some, Option.getD_some, Document.entries_ofTree]
  obtain ⟨declared, tree, writable, opened, same⟩ := found
  have number : numberedId (freshNumber (.ofTree declared tree)) = id := by
    rw [freshNumber_ofTree, ← same]
  rw [relateImage_eq]
  simp only [opened, number]
  rw [same]
  exact ⟨trivial, entries_setDocument _ _ declared writable (writable_relationship id target)⟩

theorem get?_relateImage_of_ne {part : String} (other : name ≠ relationsPart part) (target : String) :
    (package.relateImage part target).1.get? name = package.get? name := by
  rw [relateImage_eq]
  simp only [setDocument]
  rw [get?_set, if_neg other]

/-! Content types -/

/-- Whether there is an entry for a file extension, in upper or lower case. -/
def Lists (entries : List Tree) (suffix : String) : Prop :=
  ∃ entry ∈ entries, ∃ known, entry.element.attribute? "Extension" = some known ∧
    lowerAscii known = lowerAscii suffix

theorem isRegistered_ofTree (declared : Bool) (tree : Tree) (suffix : String) :
    isRegistered (.ofTree declared tree) suffix = true ↔ Lists tree.children suffix := by
  have same := congrArg (List.any · fun element : Element =>
      (element.attribute? "Extension").any fun known => lowerAscii known = lowerAscii suffix)
    (Document.map_children_ofTree declared tree)
  rw [List.any_map, List.any_map] at same
  rw [isRegistered, Lists]
  refine (congrArg (· = true) same).to_iff.trans ?_
  simp [List.any_eq_true, Option.any_eq_true]

def imageDefault (suffix : String) : Element :=
  { tag := "Default", attributes := [⟨"Extension", suffix⟩, ⟨"ContentType", imageType suffix⟩] }

theorem writable_imageDefault (suffix : String) : (imageDefault suffix).Writable :=
  Element.writable_of_names "Default" ["Extension", "ContentType"] ⟨rfl, rfl⟩ (by decide)

theorem registerImages_eq (package : Package) (suffix : String) :
    package.registerImages suffix =
      match package.document? contentTypes with
      | none => package
      | some types =>
        if isRegistered types suffix then package
        else package.setDocument contentTypes (types.appendEntry (imageDefault suffix)) := by
  have built (document : Document) :
      ((document.createElement "Default").1.setAttribute document.size "Extension" suffix).setAttribute
        document.size "ContentType" (imageType suffix) =
          (document.push [{ toElement := imageDefault suffix }]).1 := by
    rw [Document.createElement, Document.setAttribute_push, Document.setAttribute_push]
    rfl
  simp only [registerImages, Document.createElement_snd, built]
  rfl

theorem registerImages_spec (legible : package.Legible contentTypes) (suffix : String) :
    package.entries contentTypes <+: (package.registerImages suffix).entries contentTypes ∧
      (package.registerImages suffix).Legible contentTypes ∧
      (contentTypes ∈ package.names → Lists ((package.registerImages suffix).entries contentTypes) suffix) := by
  rw [registerImages_eq]
  rcases legible.cases with ⟨unread, absent⟩ | ⟨declared, tree, read, writable⟩
  · rw [unread]
    exact ⟨List.prefix_refl _, legible, fun present => absurd present absent⟩
  · have here : package.entries contentTypes = tree.children := by
      rw [entries, read, Option.map_some, Option.getD_some, Document.entries_ofTree]
    rw [read]
    simp only
    split
    · rename_i registered
      rw [here]
      exact ⟨List.prefix_refl _, legible, fun _ => (isRegistered_ofTree declared tree suffix).mp registered⟩
    · obtain ⟨listed, kept⟩ := package.entries_setDocument contentTypes declared writable
        (writable_imageDefault suffix)
      rw [listed, here]
      refine ⟨List.prefix_append .., kept, fun _ => ?_⟩
      exact ⟨_, List.mem_append_right _ (List.mem_singleton_self _), suffix, rfl, rfl⟩

end Package

end WordTemplate
