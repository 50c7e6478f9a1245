import WordTemplate.Proofs.Params.Records

/-! Absolute keys as addresses. Where siblings have different names that are single segments of keys,
every parameter is found by its absolute key, and the keys that lead to a parameter are the paths to the
values of the data that the parameters were built from. -/

namespace WordTemplate

instance (name : String) : Decidable (IsName name) :=
  decidable_of_iff (name ≠ "" ∧ Key.IsSegment name ∧ Text.trimEnd name.toList = name.toList)
    ⟨fun ⟨filled, plain, trimmed⟩ => ⟨filled, plain, trimmed⟩,
      fun isName => ⟨isName.filled, isName.plain, isName.trimmed⟩⟩

namespace Key

/-- Segments that can stand in a key, none of them empty. -/
def AreSegments (segments : List String) : Prop :=
  ∀ segment ∈ segments, segment ≠ "" ∧ IsSegment segment

theorem areSegments_nil : AreSegments [] :=
  List.forall_mem_nil _

theorem AreSegments.append {front back : List String} (first : AreSegments front)
    (second : AreSegments back) : AreSegments (front ++ back) :=
  List.forall_mem_append.mpr ⟨first, second⟩

theorem AreSegments.segments {segments : List String} (are : AreSegments segments)
    (some : segments ≠ []) : Key.segments (ofSegments segments) = segments :=
  segments_ofSegments some fun segment member => (are segment member).2

theorem AreSegments.ofSegments_ne_empty {segments : List String} (are : AreSegments segments)
    (some : segments ≠ []) : ofSegments segments ≠ "" := by
  cases segments with
  | nil => exact absurd rfl some
  | cons first rest => exact Key.ofSegments_ne_empty (are first (by simp)).1 rest

theorem AreSegments.join {front : List String} (are : AreSegments front) (segment : String) :
    Key.join (ofSegments front) segment = ofSegments (front ++ [segment]) := by
  cases front with
  | nil => rfl
  | cons first rest =>
      have joined := foldl_join (are first (by simp)).1 rest [segment]
      simpa using joined

theorem AreSegments.concat {front : List String} (are : AreSegments front) {segment : String}
    (filled : segment ≠ "") (plain : IsSegment segment) : AreSegments (front ++ [segment]) :=
  are.append (List.forall_mem_singleton.mpr ⟨filled, plain⟩)

theorem hasAncestor_beside {front more : List String} {segment other : String}
    (whole : AreSegments (front ++ segment :: more)) (beside : AreSegments (front ++ [other])) :
    hasAncestor (ofSegments (front ++ segment :: more)) (ofSegments (front ++ [other])) = true ↔
      other = segment := by
  rw [hasAncestor_iff (beside.ofSegments_ne_empty (by simp)), whole.segments (by simp),
    beside.segments (by simp), List.prefix_append_right_inj, List.cons_prefix_cons]
  simp

end Key

namespace Param

mutual

/-- All names are single segments of keys, and siblings have different ones. -/
def Unambiguous : Param → Prop
  | ⟨key, _, _, _, _, _, children⟩ => key ≠ "" ∧ Key.IsSegment key ∧ UnambiguousAll children

def UnambiguousAll : List Param → Prop
  | [] => True
  | param :: rest =>
    param.Unambiguous ∧ (∀ other ∈ rest, other.key ≠ param.key) ∧ UnambiguousAll rest

end

theorem unambiguous_iff {param : Param} :
    param.Unambiguous ↔
      param.key ≠ "" ∧ Key.IsSegment param.key ∧ UnambiguousAll param.children := by
  cases param
  simp only [Unambiguous]

/-- A parameter stands at a place: its absolute key goes on from there, and leads to it. -/
structure Addressed (look : String → Option Param) (front : List String) (name : String)
    (param : Param) : Prop where
  address : ∃ more, param.absoluteKey = Key.ofSegments (front ++ name :: more) ∧
    Key.AreSegments (front ++ name :: more)
  found : look param.absoluteKey = some param

mutual

theorem addressed_of_mem {param found : Param} {front : List String}
    (keyed : param.Keyed (Key.ofSegments front)) (unambiguous : param.Unambiguous)
    (are : Key.AreSegments front) (member : found ∈ param.withAll) :
    Addressed (fun key => getAt? key param) front param.key found := by
  cases param with
  | mk key value kind absoluteKey compactKey level children =>
      obtain ⟨address, -, below⟩ := keyed_iff.mp keyed
      obtain ⟨filled, plain, inner⟩ := unambiguous_iff.mp unambiguous
      simp only [are.join] at address filled plain inner below
      have here : Key.AreSegments (front ++ [key]) := are.concat filled plain
      rw [withAll_eq, List.mem_cons] at member
      rcases member with rfl | member
      · exact ⟨⟨[], address, here⟩, by simp [getAt?]⟩
      · rw [address] at below
        obtain ⟨name, -, ⟨more, further, whole⟩, looked⟩ :=
          addressed_of_memAll below inner here member
        rw [List.append_assoc, List.singleton_append] at further whole
        refine ⟨⟨name :: more, further, whole⟩, ?_⟩
        -- The address is longer than that of the parameter itself.
        have deeper : absoluteKey ≠ found.absoluteKey := by
          intro same
          have parts := congrArg Key.segments same
          rw [address, further, here.segments (by simp), whole.segments (by simp)] at parts
          simp at parts
        rw [getAt?, if_neg deeper]
        exact looked

theorem addressed_of_memAll {params : List Param} {found : Param} {front : List String}
    (keyed : KeyedAll (Key.ofSegments front) params) (unambiguous : UnambiguousAll params)
    (are : Key.AreSegments front) (member : found ∈ withAllOf params) :
    ∃ name, (∃ param ∈ params, param.key = name) ∧
      Addressed (fun key => getAmong? key params) front name found := by
  cases params with
  | nil => simp [withAllOf] at member
  | cons param rest =>
      obtain ⟨first, others, later⟩ := unambiguous
      obtain ⟨filled, plain, -⟩ := unambiguous_iff.mp first
      have address : param.absoluteKey = Key.ofSegments (front ++ [param.key]) := by
        rw [(keyed_iff.mp keyed.1).1, are.join]
      have here : Key.AreSegments (front ++ [param.key]) := are.concat filled plain
      rw [withAllOf, List.mem_append] at member
      rcases member with inside | beside
      · obtain ⟨⟨more, further, whole⟩, looked⟩ := addressed_of_mem keyed.1 first are inside
        refine ⟨param.key, ⟨param, by simp, rfl⟩, ⟨more, further, whole⟩, ?_⟩
        rw [getAmong?, further, address, if_pos ((Key.hasAncestor_beside whole here).mpr rfl), ← further]
        exact looked
      · obtain ⟨name, ⟨other, listed, named⟩, ⟨more, further, whole⟩, looked⟩ :=
          addressed_of_memAll keyed.2 later are beside
        refine ⟨name, ⟨other, by simp [listed], named⟩, ⟨more, further, whole⟩, ?_⟩
        have apart : param.key ≠ name := named ▸ Ne.symm (others other listed)
        rw [getAmong?, further, address,
          if_neg fun below => apart ((Key.hasAncestor_beside whole here).mp below), ← further]
        exact looked

end

end Param

namespace Params

def Unambiguous (params : Params) : Prop :=
  Param.UnambiguousAll params.top

/-- Every parameter is found by its absolute key, and by no other key. -/
theorem get?_eq_some_iff_mem {params : Params} (keyed : params.Keyed) (unambiguous : params.Unambiguous)
    {key : String} {param : Param} :
    params.get? key = some param ↔ param ∈ params.all ∧ param.absoluteKey = key := by
  constructor
  · exact fun found => ⟨mem_all_of_get? found, Param.absoluteKey_of_getAmong? found⟩
  · rintro ⟨member, rfl⟩
    have top : Param.KeyedAll (Key.ofSegments []) params.top := keyed
    obtain ⟨-, -, -, looked⟩ := Param.addressed_of_memAll top unambiguous Key.areSegments_nil member
    exact looked

end Params

/-! The data that parameters are built from -/

namespace Json

mutual

/-- The names of all members are single segments of keys, and members of one object have different
names. -/
def WellNamed : Json → Prop
  | .array items => WellNamedItems items
  | .object members => WellNamedMembers members
  | _ => True

def WellNamedItems : List Json → Prop
  | [] => True
  | item :: rest => item.WellNamed ∧ WellNamedItems rest

def WellNamedMembers : List (String × Json) → Prop
  | [] => True
  | (name, value) :: rest =>
    IsName name ∧ value.WellNamed ∧ (∀ other ∈ rest, other.1 ≠ name) ∧ WellNamedMembers rest

end

/-- The path leads from a value to one inside of it, by the names of members and by the positions of
items, which are counted from one. No path leads into an image. -/
inductive Leads : Json → List String → Json → Prop
  | here (value : Json) : Leads value [] value
  | item {items : List Json} {index : Nat} {value found : Json} {path : List String}
      (there : items[index]? = some value) (further : Leads value path found) :
      Leads (.array items) (toString (index + 1) :: path) found
  | member {members : List (String × Json)} {name : String} {value found : Json} {path : List String}
      (noImage : Image.ofMembers? members = none) (listed : (name, value) ∈ members)
      (further : Leads value path found) : Leads (.object members) (name :: path) found

/-- The path leads from the members of the whole data to a value below them. -/
inductive LeadsBelow (members : List (String × Json)) : List String → Json → Prop
  | member {name : String} {value found : Json} {path : List String}
      (listed : (name, value) ∈ members) (further : Leads value path found) :
      LeadsBelow members (name :: path) found

theorem wellNamedItems_iff {items : List Json} :
    WellNamedItems items ↔ ∀ item ∈ items, item.WellNamed := by
  induction items with
  | nil => simp [WellNamedItems]
  | cons item rest ih => simp [WellNamedItems, ih]

theorem WellNamedMembers.of_mem {members : List (String × Json)} (named : WellNamedMembers members) :
    ∀ member ∈ members, IsName member.1 ∧ member.2.WellNamed := by
  induction members with
  | nil => simp
  | cons first rest ih =>
      obtain ⟨isName, inner, -, later⟩ := named
      exact List.forall_mem_cons.mpr ⟨⟨isName, inner⟩, ih later⟩

end Json

namespace Param

/-- The parameter stands for a value of the data. -/
def StandsFor (param : Param) : Json → Prop
  | .null => False
  | .boolean value => param.kind = .scalar ∧ param.value = if value then "true" else "false"
  | .integer value => param.kind = .scalar ∧ param.value = toString value
  | .real negative magnitude =>
    param.kind = .scalar ∧ param.value = Json.writeReal negative magnitude
  | .string value => param.kind = .scalar ∧ param.value = value
  | .array items =>
    param.kind = .list ∧ param.itemCount = items.countP fun item => item.kind != .null
  | .object members =>
    param.kind =
      match Image.ofMembers? members with
      | some image => .image image
      | none => .object

section Build

variable {place : Place} {name : String} {json : Json} {param : Param} {front : List String}

theorem isName_toString (position : Nat) : IsName (toString position) where
  filled := by simp
  plain := PendingList.isSegment_of_isPosition (isPosition_toString position)
  trimmed := trimEnd_of_isPosition (isPosition_toString position)

theorem isSome_build : (build place name json).isSome = (json.kind != .null) := by
  cases json with
  | object members =>
      rw [build]
      split <;> rfl
  | _ => rfl

theorem length_buildItems (position : Nat) (items : List Json) :
    (buildItems place position items).length = items.countP fun item => item.kind != .null := by
  induction items generalizing position with
  | nil => rfl
  | cons item rest ih =>
      have here : (build place (toString position) item).isSome = (item.kind != .null) := isSome_build
      rw [buildItems, List.length_append, ih, List.countP_cons, ← here]
      cases build place (toString position) item <;> simp [Nat.add_comm]

theorem standsFor_build (built : build place name json = some param) : param.StandsFor json := by
  cases json with
  | null => simp [build] at built
  | array items =>
      cases built
      exact ⟨rfl, length_buildItems 1 items⟩
  | object members =>
      cases found : Image.ofMembers? members with
      | some image =>
          simp only [build, found, Option.some.injEq] at built
          simp only [StandsFor, found, ← built]
          rfl
      | none =>
          simp only [build, found, Option.some.injEq] at built
          simp only [StandsFor, found, ← built]
          rfl
  | _ =>
      cases built
      exact ⟨rfl, rfl⟩

theorem mem_buildItems {position : Nat} {items : List Json} :
    param ∈ buildItems place position items ↔
      ∃ index value, items[index]? = some value ∧
        build place (toString (position + index)) value = some param := by
  induction items generalizing position with
  | nil => simp [buildItems]
  | cons item rest ih =>
      rw [buildItems, List.mem_append, Option.mem_toList, ih]
      constructor
      · rintro (here | ⟨index, value, there, later⟩)
        · exact ⟨0, item, rfl, here⟩
        · exact ⟨index + 1, value, there, by rwa [← Nat.add_assoc, Nat.add_right_comm]⟩
      · rintro ⟨index, value, there, later⟩
        cases index with
        | zero =>
            obtain rfl := Option.some.inj there
            exact .inl later
        | succ index => exact .inr ⟨index, value, there, by rwa [Nat.add_right_comm, Nat.add_assoc]⟩

theorem mem_buildMembers {members : List (String × Json)} :
    param ∈ buildMembers place members ↔
      ∃ name value, (name, value) ∈ members ∧ build place name value = some param := by
  induction members with
  | nil => simp [buildMembers]
  | cons first rest ih =>
      obtain ⟨name, value⟩ := first
      rw [buildMembers, List.mem_append, Option.mem_toList, ih]
      constructor
      · rintro (here | ⟨other, found, listed, later⟩)
        · exact ⟨name, value, by simp, here⟩
        · exact ⟨other, found, by simp [listed], later⟩
      · rintro ⟨other, found, listed, later⟩
        rcases List.mem_cons.mp listed with same | listed
        · cases same
          exact .inl later
        · exact .inr ⟨other, found, listed, later⟩

theorem key_build_of_isName (isName : IsName name) (built : build place name json = some param) :
    param.key = name := by
  rw [key_build built, isName.trimmed, String.ofList_toList]

end Build

mutual

theorem unambiguous_build {place : Place} {name : String} {json : Json} {param : Param}
    (isName : IsName name) (named : json.WellNamed) (built : build place name json = some param) :
    param.Unambiguous := by
  have key := key_build_of_isName isName built
  rw [unambiguous_iff, key]
  refine ⟨isName.filled, isName.plain, ?_⟩
  cases json with
  | null => simp [build] at built
  | array items =>
      cases built
      exact unambiguousAll_buildItems named
  | object members =>
      rw [build] at built
      split at built
      · cases built
        trivial
      · cases built
        exact unambiguousAll_buildMembers named
  | _ =>
      cases built
      trivial

theorem unambiguousAll_buildItems {place : Place} {position : Nat} {items : List Json}
    (named : Json.WellNamedItems items) : UnambiguousAll (buildItems place position items) := by
  cases items with
  | nil => trivial
  | cons item rest =>
      have later : UnambiguousAll (buildItems place (position + 1) rest) :=
        unambiguousAll_buildItems named.2
      rw [buildItems]
      cases built : build place (toString position) item with
      | none => exact later
      | some param =>
          refine ⟨unambiguous_build (isName_toString position) named.1 built, fun other listed => ?_, later⟩
          obtain ⟨index, value, -, again⟩ := mem_buildItems.mp listed
          rw [key_build_of_isName (isName_toString position) built,
            key_build_of_isName (isName_toString _) again, ne_eq, toString_inj]
          omega

theorem unambiguousAll_buildMembers {place : Place} {members : List (String × Json)}
    (named : Json.WellNamedMembers members) : UnambiguousAll (buildMembers place members) := by
  match members with
  | [] => trivial
  | (name, value) :: rest =>
      have later : UnambiguousAll (buildMembers place rest) :=
        unambiguousAll_buildMembers named.2.2.2
      rw [buildMembers]
      cases built : build place name value with
      | none => exact later
      | some param =>
          refine ⟨unambiguous_build named.1 named.2.1 built, fun other listed => ?_, later⟩
          obtain ⟨name', value', inside, again⟩ := mem_buildMembers.mp listed
          rw [key_build_of_isName named.1 built,
            key_build_of_isName (named.2.2.2.of_mem _ inside).1 again]
          exact named.2.2.1 _ inside

end

structure Place.LeadsTo (place : Place) (front : List String) : Prop where
  absoluteKey : place.absoluteKey = Key.ofSegments front
  are : Key.AreSegments front

theorem Place.LeadsTo.inner {place : Place} {front : List String} (leads : place.LeadsTo front)
    {name : String} (isName : IsName name) (kind : Kind) :
    (Param.inner place name kind).LeadsTo (front ++ [name]) where
  absoluteKey := by
    rw [Param.inner, make, isName.trimmed, String.ofList_toList, leads.absoluteKey, leads.are.join]
  are := leads.are.concat isName.filled isName.plain

/-- A parameter stands for a value, with the absolute key that the path to it spells. -/
structure Realizes (param : Param) (path : List String) (value : Json) : Prop where
  standsFor : param.StandsFor value
  absoluteKey : param.absoluteKey = Key.ofSegments path

theorem realizes_build {place : Place} {name : String} {json : Json} {param : Param}
    {front : List String} (leads : place.LeadsTo front)
    (isName : IsName name) (built : build place name json = some param) :
    param.Realizes (front ++ [name]) json where
  standsFor := standsFor_build built
  absoluteKey := by
    rw [(keyed_iff.mp (keyed_build built)).1, key_build_of_isName isName built, leads.absoluteKey,
      leads.are.join]

mutual

/-- Every parameter stands for a value that a path leads to. -/
theorem exists_leads_of_mem {place : Place} {name : String} {json : Json} {param found : Param}
    {front : List String} (leads : place.LeadsTo front) (isName : IsName name) (named : json.WellNamed)
    (built : build place name json = some param) (member : found ∈ param.withAll) :
    ∃ path value, Json.Leads json path value ∧ found.Realizes (front ++ name :: path) value := by
  rw [withAll_eq, List.mem_cons] at member
  rcases member with rfl | below
  · exact ⟨[], json, .here json, realizes_build leads isName built⟩
  · cases json with
    | null => simp [build] at built
    | array items =>
        cases built
        obtain ⟨index, item, path, value, there, further, realizes⟩ :=
          exists_leads_of_memItems (leads.inner isName .list) named below
        refine ⟨toString (index + 1) :: path, value, .item there further, ?_⟩
        rwa [List.append_assoc, Nat.add_comm] at realizes
    | object members =>
        rw [build] at built
        split at built
        · cases built
          simp [make, withAllOf] at below
        · rename_i noImage
          cases built
          obtain ⟨path, value, ⟨listed, further⟩, realizes⟩ :=
            exists_leads_of_memMembers (leads.inner isName .object) named below
          refine ⟨_, value, .member noImage listed further, ?_⟩
          rwa [List.append_assoc] at realizes
    | _ =>
        cases built
        simp [make, withAllOf] at below

theorem exists_leads_of_memItems {place : Place} {position : Nat} {items : List Json} {found : Param}
    {front : List String} (leads : place.LeadsTo front) (named : Json.WellNamedItems items)
    (member : found ∈ withAllOf (buildItems place position items)) :
    ∃ index item path value, items[index]? = some item ∧ Json.Leads item path value ∧
      found.Realizes (front ++ toString (position + index) :: path) value := by
  cases items with
  | nil => simp [buildItems, withAllOf] at member
  | cons item rest =>
      rcases mem_withAllOf_buildItems member with ⟨param, built, inside⟩ | later
      · obtain ⟨path, value, further, realizes⟩ :=
          exists_leads_of_mem leads (isName_toString position) named.1 built inside
        exact ⟨0, item, path, value, rfl, further, realizes⟩
      · obtain ⟨index, other, path, value, there, further, realizes⟩ :=
          exists_leads_of_memItems leads named.2 later
        refine ⟨index + 1, other, path, value, there, further, ?_⟩
        rwa [Nat.add_assoc, Nat.add_comm 1] at realizes

theorem exists_leads_of_memMembers {place : Place} {members : List (String × Json)} {found : Param}
    {front : List String} (leads : place.LeadsTo front) (named : Json.WellNamedMembers members)
    (member : found ∈ withAllOf (buildMembers place members)) :
    ∃ path value, Json.LeadsBelow members path value ∧ found.Realizes (front ++ path) value := by
  match members with
  | [] => simp [buildMembers, withAllOf] at member
  | (name, value) :: rest =>
      rcases mem_withAllOf_buildMembers member with ⟨param, built, inside⟩ | later
      · obtain ⟨path, found, further, realizes⟩ :=
          exists_leads_of_mem leads named.1 named.2.1 built inside
        exact ⟨name :: path, found, .member (by simp) further, realizes⟩
      · obtain ⟨path, found, ⟨listed, further⟩, realizes⟩ :=
          exists_leads_of_memMembers leads named.2.2.2 later
        exact ⟨_, found, .member (List.mem_cons_of_mem _ listed) further, realizes⟩

end

/-- Every value that a path leads to has a parameter, unless it is null. -/
theorem exists_mem_of_leads {json value : Json} {path : List String} (further : json.Leads path value)
    (some : value ≠ .null) {place : Place} {name : String} {front : List String}
    (leads : place.LeadsTo front) (isName : IsName name) (named : json.WellNamed) :
    ∃ param, build place name json = Option.some param ∧
      ∃ found ∈ param.withAll, found.Realizes (front ++ name :: path) value := by
  induction further generalizing place name front with
  | here value =>
      have given : (build place name value).isSome = true := by
        rw [isSome_build]
        cases value <;> first | exact absurd rfl some | rfl
      obtain ⟨param, built⟩ := Option.isSome_iff_exists.mp given
      exact ⟨param, built, param, mem_withAll_self param, realizes_build leads isName built⟩
  | @item items index inner value path there further ih =>
      have inside := Json.wellNamedItems_iff.mp named inner (List.mem_of_getElem? there)
      obtain ⟨child, built, found, member, realizes⟩ :=
        ih some (leads.inner isName .list) (isName_toString (index + 1)) inside
      refine ⟨_, rfl, found, ?_, by simpa using realizes⟩
      refine mem_withAll_of_child rfl (mem_withAllOf.mpr ⟨child, mem_buildItems.mpr ?_, member⟩)
      exact ⟨index, inner, there, by rwa [Nat.add_comm]⟩
  | @member members field inner value path noImage listed further ih =>
      obtain ⟨isField, inside⟩ := Json.WellNamedMembers.of_mem named _ listed
      obtain ⟨child, built, found, member, realizes⟩ :=
        ih some (leads.inner isName .object) isField inside
      refine ⟨_, by rw [build, noImage], found, ?_, by simpa using realizes⟩
      exact mem_withAll_of_child rfl
        (mem_withAllOf.mpr ⟨child, mem_buildMembers.mpr ⟨field, inner, listed, built⟩, member⟩)

end Param

namespace Params

/-- The absolute key that a path spells leads to the parameter that stands for the value at the path, and
no other key leads to a parameter. -/
theorem get?_ofJson {members : List (String × Json)} {params : Params}
    (read : ofJson (.object members) = .ok params) (named : (Json.object members).WellNamed) :
    (∀ path value, Json.LeadsBelow members path value → value ≠ .null →
      ∃ param, params.get? (Key.ofSegments path) = some param ∧ param.Realizes path value) ∧
    ∀ key, (∀ path value, Json.LeadsBelow members path value → value ≠ .null →
      Key.ofSegments path ≠ key) → params.get? key = none := by
  obtain rfl := Except.ok.inj read
  have keyed := keyed_ofMembers members
  have unambiguous : (ofMembers members).Unambiguous := Param.unambiguousAll_buildMembers named
  have top : Param.Place.LeadsTo {} [] := ⟨rfl, Key.areSegments_nil⟩
  constructor
  · rintro path value ⟨listed, further⟩ some
    obtain ⟨isName, inside⟩ := Json.WellNamedMembers.of_mem named _ listed
    obtain ⟨param, built, found, member, realizes⟩ :=
      Param.exists_mem_of_leads further some top isName inside
    refine ⟨found, (get?_eq_some_iff_mem keyed unambiguous).mpr ⟨?_, realizes.absoluteKey⟩, realizes⟩
    exact Param.mem_withAllOf.mpr ⟨param, Param.mem_buildMembers.mpr ⟨_, _, listed, built⟩, member⟩
  · intro key apart
    by_contra found
    obtain ⟨param, found⟩ := Option.ne_none_iff_exists'.mp found
    obtain ⟨member, same⟩ := (get?_eq_some_iff_mem keyed unambiguous).mp found
    obtain ⟨path, value, leads, realizes⟩ := Param.exists_leads_of_memMembers top named member
    refine apart path value leads ?_ (realizes.absoluteKey.symm.trans same)
    rintro rfl
    exact realizes.standsFor

def orderItems : List Json :=
  [.null, .array [.integer 3, .null], .boolean true]

/-- Names that start with one another, a name made of digits, nulls among items, and an image. -/
def orderMembers : List (String × Json) :=
  [("A", .object [("1", .string "x")]), ("AB", .array orderItems),
    ("Logo", .object [("$image", .object [("path", .string "a.png")])]), ("None", .null)]

theorem get?_ofJson_order :
    let params := ofMembers orderMembers
    ofJson (.object orderMembers) = .ok params ∧
      (∃ param, params.get? "A.1" = some param ∧ param.kind = .scalar ∧ param.value = "x") ∧
      (∃ param, params.get? "AB" = some param ∧ param.kind = .list ∧ param.itemCount = 2) ∧
      (∃ param, params.get? "AB.2.1" = some param ∧ param.kind = .scalar ∧ param.value = "3") ∧
      ∃ param, params.get? "Logo" = some param ∧ param.kind = .image { path := some "a.png" } := by
  have named : (Json.object orderMembers).WellNamed := by
    have isName : ∀ name ∈ ["A", "1", "AB", "Logo", "$image", "path", "None"], IsName name := by decide
    simp [orderMembers, orderItems, Json.WellNamed, Json.WellNamedMembers, Json.WellNamedItems, isName]
  have field : Json.Leads (.object [("1", .string "x")]) ["1"] (.string "x") :=
    .member rfl (by simp) (.here _)
  have digits : Json.LeadsBelow orderMembers ["A", "1"] (.string "x") :=
    .member (by simp [orderMembers]) field
  have list : Json.LeadsBelow orderMembers ["AB"] (.array orderItems) :=
    .member (by simp [orderMembers]) (.here _)
  have items : Json.Leads (.array orderItems) [toString (1 + 1), toString (0 + 1)] (.integer 3) :=
    .item rfl (.item rfl (.here _))
  have inner : Json.LeadsBelow orderMembers ["AB", toString (1 + 1), toString (0 + 1)] (.integer 3) :=
    .member (by simp [orderMembers]) items
  have logo : Json.LeadsBelow orderMembers ["Logo"]
      (.object [("$image", .object [("path", .string "a.png")])]) :=
    .member (by simp [orderMembers]) (.here _)
  have found {path : List String} {value : Json} {key : String}
      (leads : Json.LeadsBelow orderMembers path value) (some : value ≠ .null)
      (spelled : Key.ofSegments path = key) :
      ∃ param, (ofMembers orderMembers).get? key = Option.some param ∧ param.StandsFor value := by
    obtain ⟨param, there, realizes⟩ := (get?_ofJson rfl named).1 path value leads some
    exact ⟨param, spelled ▸ there, realizes.standsFor⟩
  exact ⟨rfl, found digits (by simp) (by decide), found list (by simp) (by decide),
    found inner (by simp) (by decide), found logo (by simp) (by decide)⟩

end Params

end WordTemplate
