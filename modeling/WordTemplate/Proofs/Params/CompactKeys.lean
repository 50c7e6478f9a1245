import WordTemplate.Proofs.Params.Addresses

/-! Compact keys. The way that leads to a parameter spells both of its keys: all its steps spell the
absolute key, and its steps to members alone the compact one. A key without its positions is told from
the segments that look like positions, and that is the compact key unless a member is named like one. -/

namespace WordTemplate

namespace Key

variable {segments others : List String}

theorem AreSegments.subset (are : AreSegments segments) (inside : others ⊆ segments) :
    AreSegments others :=
  fun segment member => are segment (inside member)

theorem AreSegments.ofSegments_inj (are : AreSegments segments) (also : AreSegments others) :
    ofSegments segments = ofSegments others ↔ segments = others := by
  refine ⟨fun same => ?_, congrArg ofSegments⟩
  by_cases none : segments = []
  · by_contra apart
    have some : others ≠ [] := fun empty => apart (none.trans empty.symm)
    exact also.ofSegments_ne_empty some (by rw [← same, none]; rfl)
  · by_cases empty : others = []
    · exact absurd (by rw [same, empty]; rfl) (are.ofSegments_ne_empty none)
    · rw [← are.segments none, same, also.segments empty]

theorem compact_ofSegments (are : AreSegments segments) (some : segments ≠ []) :
    compact (ofSegments segments) = ofSegments (segments.filter fun segment => !isPosition segment) := by
  rw [compact, are.segments some]

end Key

namespace Json

/-- A step into a value: to an item of an array, counted from one, or to a member of an object. -/
inductive Step
  | item (position : Nat)
  | member (name : String)
deriving DecidableEq, Repr

/-- The segment of a key that stands for a step. -/
def Step.segment : Step → String
  | item position => toString position
  | member name => name

/-- The name of the member that a step leads to. -/
def Step.name? : Step → Option String
  | item _ => none
  | member name => some name

@[simp]
theorem Step.names_item (position : Nat) (way : List Step) :
    (Step.item position :: way).filterMap Step.name? = way.filterMap Step.name? := rfl

@[simp]
theorem Step.names_member (name : String) (way : List Step) :
    (Step.member name :: way).filterMap Step.name? = name :: way.filterMap Step.name? := rfl

/-- The way leads from a value to one inside of it. No way leads into an image. -/
inductive Reaches : Json → List Step → Json → Prop
  | here (value : Json) : Reaches value [] value
  | item {items : List Json} {index : Nat} {value found : Json} {way : List Step}
      (there : items[index]? = some value) (further : Reaches value way found) :
      Reaches (.array items) (.item (index + 1) :: way) found
  | member {members : List (String × Json)} {name : String} {value found : Json} {way : List Step}
      (noImage : Image.ofMembers? members = none) (listed : (name, value) ∈ members)
      (further : Reaches value way found) : Reaches (.object members) (.member name :: way) found

/-- The way leads from the members of the whole data to a value below them. -/
inductive ReachesBelow (members : List (String × Json)) : List Step → Json → Prop
  | member {name : String} {value found : Json} {way : List Step} (listed : (name, value) ∈ members)
      (further : Reaches value way found) : ReachesBelow members (.member name :: way) found

mutual

/-- The names of members at every depth. -/
def memberNames : Json → List String
  | .array items => memberNamesOfItems items
  | .object members => memberNamesOfMembers members
  | _ => []

def memberNamesOfItems : List Json → List String
  | [] => []
  | item :: rest => item.memberNames ++ memberNamesOfItems rest

def memberNamesOfMembers : List (String × Json) → List String
  | [] => []
  | (name, value) :: rest => name :: value.memberNames ++ memberNamesOfMembers rest

end

/-- Without what looks like a position, a way is spelled by its members. -/
theorem filter_segment (way : List Step) :
    ((way.map Step.segment).filter fun segment => !Key.isPosition segment) =
      (way.filterMap Step.name?).filter fun name => !Key.isPosition name := by
  induction way with
  | nil => rfl
  | cons step rest ih =>
      cases step with
      | item position =>
          have dropped : Key.isPosition (Step.segment (.item position)) = true :=
            Param.isPosition_toString position
          simp [dropped, ih]
      | member name =>
          have kept : Step.segment (.member name) = name := rfl
          simp [kept, List.filter_cons, ih]

theorem names_subset_segments (way : List Step) :
    way.filterMap Step.name? ⊆ way.map Step.segment := by
  intro name member
  obtain ⟨step, listed, named⟩ := List.mem_filterMap.mp member
  cases step with
  | item position => simp [Step.name?] at named
  | member other =>
      obtain rfl := Option.some.inj named
      exact List.mem_map.mpr ⟨_, listed, rfl⟩

end Json

namespace Param

open Json (Step)

structure Spelled (absoluteKey compactKey : String) (way : List Step) : Prop where
  absolute : absoluteKey = Key.ofSegments (way.map Step.segment)
  compact : compactKey = Key.ofSegments (way.filterMap Step.name?)
  are : Key.AreSegments (way.map Step.segment)

theorem Spelled.names {absoluteKey compactKey : String} {way : List Step}
    (spelled : Spelled absoluteKey compactKey way) :
    Key.AreSegments (way.filterMap Step.name?) :=
  spelled.are.subset (Json.names_subset_segments way)

/-- The positions that are cut out by their look are all that the compact key leaves out, exactly if no
member on the way is named like a position. -/
theorem Spelled.compact_eq_iff {absoluteKey compactKey : String} {way : List Step}
    (spelled : Spelled absoluteKey compactKey way) (some : way ≠ []) :
    Key.compact absoluteKey = compactKey ↔
      ∀ name ∈ way.filterMap Step.name?, Key.isPosition name = false := by
  have kept := spelled.names.subset (List.filter_sublist (p := fun name => !Key.isPosition name)).subset
  rw [spelled.absolute, spelled.compact, Key.compact_ofSegments spelled.are (by simpa using some),
    Json.filter_segment, kept.ofSegments_inj spelled.names, List.filter_eq_self]
  simp

section Build

variable {place : Place} {way : List Step} {step : Step}

/-- A step that can be taken at a place: to an item in a list, to a member elsewhere. -/
structure Place.Takes (place : Place) (step : Step) : Prop where
  fits : place.inList = step.name?.isNone
  isName : IsName step.segment

theorem Place.takes_item (inList : place.inList = true) (position : Nat) :
    place.Takes (.item position) :=
  ⟨inList, isName_toString position⟩

theorem Place.takes_member (inObject : place.inList = false) {name : String} (isName : IsName name) :
    place.Takes (.member name) :=
  ⟨inObject, isName⟩

theorem spelled_make (spelled : Spelled place.absoluteKey place.compactKey way)
    (takes : place.Takes step) (value : String) (kind : Kind) (children : List Param) :
    Spelled (make place step.segment value kind children).absoluteKey
      (make place step.segment value kind children).compactKey (way ++ [step]) := by
  obtain ⟨fits, isName⟩ := takes
  have absolute : Key.join place.absoluteKey step.segment =
      Key.ofSegments ((way ++ [step]).map Step.segment) := by
    rw [spelled.absolute, spelled.are.join, List.map_append, List.map_singleton]
  refine ⟨?_, ?_, ?_⟩
  · rw [make, isName.trimmed, String.ofList_toList, absolute]
  · cases step with
    | item position =>
        have inList : place.inList = true := fits
        simp [make, inList, spelled.compact]
    | member name =>
        have inObject : place.inList = false := fits
        have trimmed : Text.trimEnd name.toList = name.toList := isName.trimmed
        simp [make, inObject, Step.segment, trimmed, spelled.compact, spelled.names.join]
  · rw [List.map_append, List.map_singleton]
    exact spelled.are.concat isName.filled isName.plain

theorem spelled_build {json : Json} {param : Param}
    (spelled : Spelled place.absoluteKey place.compactKey way) (takes : place.Takes step)
    (built : build place step.segment json = some param) :
    Spelled param.absoluteKey param.compactKey (way ++ [step]) := by
  cases json with
  | null => simp [build] at built
  | object members =>
      rw [build] at built
      split at built
      · cases built
        exact spelled_make spelled takes _ _ _
      · cases built
        exact spelled_make spelled takes _ _ _
  | _ =>
      cases built
      exact spelled_make spelled takes _ _ _

end Build

mutual

/-- A way leads to the value that a parameter stands for, and spells the keys of the parameter. -/
theorem exists_way_of_mem {place : Place} {way : List Step} {step : Step} {json : Json}
    {param found : Param} (spelled : Spelled place.absoluteKey place.compactKey way)
    (takes : place.Takes step) (named : ∀ name ∈ json.memberNames, IsName name)
    (built : build place step.segment json = some param) (member : found ∈ param.withAll) :
    ∃ further value, json.Reaches further value ∧ found.StandsFor value ∧
      Spelled found.absoluteKey found.compactKey (way ++ step :: further) := by
  rw [withAll_eq, List.mem_cons] at member
  rcases member with rfl | below
  · exact ⟨[], json, .here json, standsFor_build built, spelled_build spelled takes built⟩
  · cases json with
    | null => simp [build] at built
    | array items =>
        cases built
        obtain ⟨index, item, further, value, there, reaches, standsFor, goes⟩ :=
          exists_way_of_memItems (spelled_make spelled takes "" .list []) rfl named below
        refine ⟨.item (index + 1) :: further, value, .item there reaches, standsFor, ?_⟩
        rwa [List.append_assoc, Nat.add_comm] at goes
    | object members =>
        rw [build] at built
        split at built
        · cases built
          simp [make, withAllOf] at below
        · rename_i noImage
          cases built
          obtain ⟨further, value, ⟨listed, reaches⟩, standsFor, goes⟩ :=
            exists_way_of_memMembers (spelled_make spelled takes "" .object []) rfl named below
          refine ⟨_, value, .member noImage listed reaches, standsFor, ?_⟩
          rwa [List.append_assoc] at goes
    | _ =>
        cases built
        simp [make, withAllOf] at below

theorem exists_way_of_memItems {place : Place} {way : List Step} {position : Nat} {items : List Json}
    {found : Param} (spelled : Spelled place.absoluteKey place.compactKey way)
    (inList : place.inList = true) (named : ∀ name ∈ Json.memberNamesOfItems items, IsName name)
    (member : found ∈ withAllOf (buildItems place position items)) :
    ∃ index item further value, items[index]? = some item ∧ Json.Reaches item further value ∧
      found.StandsFor value ∧
      Spelled found.absoluteKey found.compactKey (way ++ .item (position + index) :: further) := by
  cases items with
  | nil => simp [buildItems, withAllOf] at member
  | cons item rest =>
      obtain ⟨first, others⟩ := List.forall_mem_append.mp named
      rcases mem_withAllOf_buildItems member with ⟨param, built, inside⟩ | later
      · obtain ⟨further, value, reaches, standsFor, goes⟩ :=
          exists_way_of_mem spelled (Place.takes_item inList position) first built inside
        exact ⟨0, item, further, value, rfl, reaches, standsFor, goes⟩
      · obtain ⟨index, other, further, value, there, reaches, standsFor, goes⟩ :=
          exists_way_of_memItems spelled inList others later
        refine ⟨index + 1, other, further, value, there, reaches, standsFor, ?_⟩
        rwa [Nat.add_assoc, Nat.add_comm 1] at goes

theorem exists_way_of_memMembers {place : Place} {way : List Step} {members : List (String × Json)}
    {found : Param} (spelled : Spelled place.absoluteKey place.compactKey way)
    (inObject : place.inList = false)
    (named : ∀ name ∈ Json.memberNamesOfMembers members, IsName name)
    (member : found ∈ withAllOf (buildMembers place members)) :
    ∃ further value, Json.ReachesBelow members further value ∧ found.StandsFor value ∧
      Spelled found.absoluteKey found.compactKey (way ++ further) := by
  match members with
  | [] => simp [buildMembers, withAllOf] at member
  | (name, value) :: rest =>
      obtain ⟨isName, named⟩ := List.forall_mem_cons.mp named
      obtain ⟨first, others⟩ := List.forall_mem_append.mp named
      rcases mem_withAllOf_buildMembers member with ⟨param, built, inside⟩ | later
      · obtain ⟨further, found, reaches, standsFor, goes⟩ :=
          exists_way_of_mem spelled (Place.takes_member inObject isName) first built inside
        exact ⟨.member name :: further, found, .member (by simp) reaches, standsFor, goes⟩
      · obtain ⟨further, found, ⟨listed, reaches⟩, standsFor, goes⟩ :=
          exists_way_of_memMembers spelled inObject others later
        exact ⟨_, found, .member (List.mem_cons_of_mem _ listed) reaches, standsFor, goes⟩

end

end Param

namespace Params

open Json (Step)

/-- A parameter's absolute key without what looks like positions is its compact key exactly if no member
on the way to it is named like a position. -/
theorem compact_absoluteKey_iff {members : List (String × Json)} {params : Params} {param : Param}
    (read : ofJson (.object members) = .ok params)
    (named : ∀ name ∈ (Json.object members).memberNames, IsName name) (member : param ∈ params.all) :
    ∃ way value, Json.ReachesBelow members way value ∧ param.StandsFor value ∧
      param.absoluteKey = Key.ofSegments (way.map Step.segment) ∧
      param.compactKey = Key.ofSegments (way.filterMap Step.name?) ∧
      (Key.compact param.absoluteKey = param.compactKey ↔
        ∀ name ∈ way.filterMap Step.name?, Key.isPosition name = false) := by
  obtain rfl := Except.ok.inj read
  let start : Param.Place := {}
  have top : Param.Spelled start.absoluteKey start.compactKey [] := ⟨rfl, rfl, Key.areSegments_nil⟩
  obtain ⟨way, value, reaches, standsFor, goes⟩ :=
    Param.exists_way_of_memMembers top rfl named member
  have some : way ≠ [] := by
    cases reaches
    simp
  exact ⟨way, value, reaches, standsFor, goes.absolute, goes.compact, goes.compact_eq_iff some⟩

def rosterMembers : List (String × Json) :=
  [("Squads", .array [.array [.null, .object [("Team2", .string "Ada")]]])]

theorem compact_absoluteKey_iff_squads :
    let params := ofMembers rosterMembers
    let param : Param := ⟨"Team2", "Ada", .scalar, "Squads.1.2.Team2", "Squads.Team2", 4, []⟩
    ofJson (.object rosterMembers) = .ok params ∧
      (∀ name ∈ (Json.object rosterMembers).memberNames, IsName name) ∧ param ∈ params.all ∧
      ∃ way value, Json.ReachesBelow rosterMembers way value ∧ param.StandsFor value ∧
        param.absoluteKey = Key.ofSegments (way.map Step.segment) ∧
        param.compactKey = Key.ofSegments (way.filterMap Step.name?) ∧
        (Key.compact param.absoluteKey = param.compactKey ↔
          ∀ name ∈ way.filterMap Step.name?, Key.isPosition name = false) := by
  intro params param
  have named : ∀ name ∈ (Json.object rosterMembers).memberNames, IsName name := by decide
  have member : param ∈ params.all := List.mem_of_getLast? (by rfl)
  exact ⟨rfl, named, member, compact_absoluteKey_iff rfl named member⟩

/-- Totals by year. -/
def yearMembers : List (String × Json) :=
  [("2024", .object [("Total", .string "5")])]

/-- A member that is named like a position is cut out of the absolute key and stays in the compact key. -/
theorem compact_absoluteKey_year :
    ofJson (.object yearMembers) = .ok (ofMembers yearMembers) ∧
      (∀ name ∈ (Json.object yearMembers).memberNames, IsName name) ∧
      ∃ param ∈ (ofMembers yearMembers).all, param.absoluteKey = "2024.Total" ∧
        param.compactKey = "2024.Total" ∧ Key.compact param.absoluteKey = "Total" := by
  have last : (ofMembers yearMembers).all.getLast? =
      some ⟨"Total", "5", .scalar, "2024.Total", "2024.Total", 2, []⟩ := by rfl
  exact ⟨rfl, by decide, _, List.mem_of_getLast? last, rfl, rfl, by decide⟩

end Params

end WordTemplate
