import Mathlib.Data.List.Nodup
import WordTemplate.Proofs.Params.LookUps
import WordTemplate.Proofs.Params.Numbering

/-! Parameters that are lists of scalars. An item is named by the place of its element in the data, where
nulls count as well; so a number behind the number of items can still be the name of an item. -/

namespace WordTemplate

namespace Json

/-- Neither null nor made of other values. -/
def IsScalar (json : Json) : Prop :=
  json.kind ≠ .null ∧ json.kind ≠ .array ∧ json.kind ≠ .object

/-- The places of the elements that are not null, counted from zero. -/
def places (items : List Json) : List Nat :=
  items.findIdxs fun item => item.kind != .null

/-- The place of the item at a position. Behind the last item it is the position itself. -/
def placeAt (items : List Json) (position : Nat) : Nat :=
  (places items)[position]?.getD position

theorem kind_eq_null_iff {json : Json} : json.kind = .null ↔ json = .null := by
  cases json <;> simp [kind]

theorem mem_places {items : List Json} {index : Nat} :
    index ∈ places items ↔ ∃ item, items[index]? = some item ∧ item.kind ≠ .null := by
  rw [places, List.mem_findIdxs_iff_exists_getElem_pos]
  constructor
  · rintro ⟨inside, present⟩
    exact ⟨items[index], List.getElem?_eq_getElem inside, by simpa using present⟩
  · rintro ⟨item, found, present⟩
    obtain ⟨inside, rfl⟩ := List.getElem?_eq_some_iff.mp found
    exact ⟨inside, by simpa using present⟩

theorem placeAt_of_lt {items : List Json} {position : Nat} (inside : position < (places items).length) :
    (places items)[position]? = some (placeAt items position) := by
  rw [placeAt, List.getElem?_eq_getElem inside]
  rfl

theorem placeAt_of_le {items : List Json} {position : Nat} (behind : (places items).length ≤ position) :
    placeAt items position = position := by
  rw [placeAt, List.getElem?_eq_none behind]
  rfl

/-- Two positions lead to the same place exactly if the second one lies behind the items and is the place that
the first one leads to. -/
theorem placeAt_eq_iff {items : List Json} {first second : Nat} (less : first < second) :
    placeAt items first = placeAt items second ↔
      (places items).length ≤ second ∧ placeAt items first = second := by
  by_cases inside : second < (places items).length
  · have there := placeAt_of_lt inside
    have here := placeAt_of_lt (Nat.lt_trans less inside)
    constructor
    · intro same
      rw [same, ← there] at here
      have apart := (List.getElem?_inj (Nat.lt_trans less inside) List.nodup_findIdxs).mp here
      omega
    · omega
  · rw [placeAt_of_le (Nat.not_lt.mp inside)]
    exact ⟨fun same => ⟨Nat.not_lt.mp inside, same⟩, And.right⟩

end Json

namespace Params

/-- The key of a member by its name, to which blanks at the end do not belong. -/
def memberKey (name : String) : String :=
  String.ofList (Text.trimEnd name.toList)

/-- Arrays of scalars and nulls with their names. No array is without items, and the names give different keys
of one segment. -/
structure ScalarLists (lists : List (String × List Json)) : Prop where
  named : ∀ list ∈ lists, memberKey list.1 ≠ "" ∧ Key.IsSegment (memberKey list.1)
  distinct : (lists.map fun list => memberKey list.1).Nodup
  scalars : ∀ list ∈ lists, ∀ item ∈ list.2, item = .null ∨ item.IsScalar
  filled : ∀ list ∈ lists, ∃ item ∈ list.2, item ≠ .null

/-- The parameters that arrays with names give. -/
def ofLists (lists : List (String × List Json)) : Params :=
  ofMembers (lists.map fun list => (list.1, .array list.2))

def listParam (list : String × List Json) : Param :=
  Param.make {} list.1 "" .list (Param.buildItems (Param.inner {} list.1 .list) 1 list.2)

theorem top_ofLists (lists : List (String × List Json)) : (ofLists lists).top = lists.map listParam := by
  rw [ofLists, ofMembers]
  induction lists with
  | nil => rfl
  | cons list rest ih =>
      rw [List.map_cons, Param.buildMembers, List.map_cons, ← ih]
      rfl

theorem keyed_ofLists (lists : List (String × List Json)) : (ofLists lists).Keyed :=
  keyed_ofMembers _

@[simp]
theorem key_listParam (list : String × List Json) : (listParam list).key = memberKey list.1 := rfl

@[simp]
theorem absoluteKey_listParam (list : String × List Json) :
    (listParam list).absoluteKey = memberKey list.1 := rfl

@[simp]
theorem kind_listParam (list : String × List Json) : (listParam list).kind = .list := rfl

theorem key_children_listParam (list : String × List Json) :
    (listParam list).children.map Param.key = (Json.places list.2).map fun place => toString (place + 1) := by
  have named := Param.key_buildItems (Param.inner {} list.1 .list) 1 list.2
  rw [List.findIdxs_start, List.map_map] at named
  exact named

theorem exists_key_of_mem_children {list : String × List Json} {item : Param}
    (listed : item ∈ (listParam list).children) : ∃ place : Nat, item.key = toString (place + 1) := by
  have named : item.key ∈ (listParam list).children.map Param.key := List.mem_map_of_mem listed
  rw [key_children_listParam] at named
  obtain ⟨place, -, same⟩ := List.mem_map.mp named
  exact ⟨place, same.symm⟩

/-- What an array gives for the element at a place. -/
def itemAt? (list : String × List Json) (place : Nat) : Option Param :=
  list.2[place]?.bind (Param.build (Param.inner {} list.1 .list) (toString (place + 1)))

def elementKey (list : String × List Json) (place : Nat) : String :=
  Key.join (memberKey list.1) (toString (place + 1))

theorem isSome_itemAt? {list : String × List Json} {place : Nat} :
    (itemAt? list place).isSome = true ↔ place ∈ Json.places list.2 := by
  rw [Json.mem_places, itemAt?]
  cases list.2[place]? with
  | none => simp
  | some item => simp [Param.isSome_build]

theorem itemAt?_eq_none_iff {list : String × List Json} {place : Nat} :
    itemAt? list place = none ↔ ∀ item, list.2[place]? = some item → item = .null := by
  rw [← Option.not_isSome_iff_eq_none, isSome_itemAt?, Json.mem_places]
  simp only [not_exists, not_and, ne_eq, not_not, Json.kind_eq_null_iff]

theorem place_of_itemAt? {list : String × List Json} {first second : Nat} {item : Param}
    (here : itemAt? list first = some item) (there : itemAt? list second = some item) : first = second := by
  obtain ⟨value, -, built⟩ := Option.bind_eq_some_iff.mp here
  obtain ⟨other, -, again⟩ := Option.bind_eq_some_iff.mp there
  have same := (Param.key_build_of_isName (Param.isName_toString _) built).symm.trans
    (Param.key_build_of_isName (Param.isName_toString _) again)
  exact Nat.succ.inj (toString_inj.mp same)

theorem find?_buildItems (place : Param.Place) (position index : Nat) (items : List Json) :
    (Param.buildItems place position items).find? (fun item => item.key = toString (position + index)) =
      items[index]?.bind (Param.build place (toString (position + index))) := by
  ext param
  have named : ∀ {place position value} {param : Param},
      Param.build place (toString position) value = some param → param.key = toString position :=
    fun built => Param.key_build_of_isName (Param.isName_toString _) built
  constructor
  · intro found
    have same : param.key = toString (position + index) := by simpa using List.find?_some found
    obtain ⟨other, value, there, built⟩ := Param.mem_buildItems.mp (List.mem_of_find?_eq_some found)
    rw [named built, toString_inj, Nat.add_left_cancel_iff] at same
    subst same
    rw [there]
    exact built
  · intro found
    obtain ⟨value, there, built⟩ := Option.bind_eq_some_iff.mp found
    rw [← named built]
    exact Param.find?_key_of_mem (Param.nodup_key_buildItems place position items)
      (Param.mem_buildItems.mpr ⟨index, value, there, built⟩)

namespace ScalarLists

variable {lists : List (String × List Json)} {list : String × List Json}

theorem leaf (scalar : ScalarLists lists) (member : list ∈ lists) {item : Param}
    (listed : item ∈ (listParam list).children) : item.kind = .scalar ∧ item.children = [] := by
  obtain ⟨index, value, there, built⟩ := Param.mem_buildItems.mp listed
  rcases scalar.scalars list member value (List.mem_of_getElem? there) with rfl | ⟨-, noArray, noObject⟩
  · simp [Param.build] at built
  · cases value with
    | array items => exact absurd rfl noArray
    | object members => exact absurd rfl noObject
    | null => simp [Param.build] at built
    | _ =>
        cases built
        exact ⟨rfl, rfl⟩

theorem children_ne_nil (scalar : ScalarLists lists) (member : list ∈ lists) :
    (listParam list).children ≠ [] := by
  obtain ⟨item, inside, present⟩ := scalar.filled list member
  obtain ⟨index, there⟩ := List.getElem?_of_mem inside
  have some : index ∈ Json.places list.2 :=
    Json.mem_places.mpr ⟨item, there, mt Json.kind_eq_null_iff.mp present⟩
  intro none
  have keys := key_children_listParam list
  rw [none, List.map_nil, eq_comm, List.map_eq_nil_iff] at keys
  simp [keys] at some

theorem eq_of_memberKey {other : String × List Json} (scalar : ScalarLists lists) (member : list ∈ lists)
    (among : other ∈ lists) (same : memberKey list.1 = memberKey other.1) : list = other :=
  List.inj_on_of_nodup_map scalar.distinct member among same

theorem find?_top (scalar : ScalarLists lists) (member : list ∈ lists) :
    (ofLists lists).top.find? (fun param => param.key = memberKey list.1) = some (listParam list) := by
  have distinct : ((lists.map listParam).map Param.key).Nodup := by
    rw [List.map_map]
    exact scalar.distinct
  rw [top_ofLists]
  exact Param.find?_key_of_mem distinct (List.mem_map_of_mem member)

theorem resolve_memberKey (scalar : ScalarLists lists) (member : list ∈ lists) :
    (ofLists lists).resolve (memberKey list.1) = [listParam list] := by
  rw [resolve_of_isSegment (scalar.named list member).2, scalar.find?_top member]
  rfl

theorem pendingList?_memberKey (scalar : ScalarLists lists) (member : list ∈ lists) :
    (ofLists lists).pendingList? (memberKey list.1) = some ⟨listParam list, ""⟩ := by
  have segment := (scalar.named list member).2
  rw [pendingList?, Key.segments_of_isSegment segment, scalar.resolve_memberKey member]
  show Param.pendingAmong? true (memberKey list.1) [] (ofLists lists).top = _
  rw [Param.pendingAmong?_eq_find?, scalar.find?_top member, Option.bind_some, Param.pendingAt?_nil]
  simp
  rfl

theorem segments_elementKey (scalar : ScalarLists lists) (member : list ∈ lists) (place : Nat) :
    Key.segments (elementKey list place) = [memberKey list.1, toString (place + 1)] := by
  obtain ⟨filled, plain⟩ := scalar.named list member
  have number := Param.isName_toString (place + 1)
  have are : Key.AreSegments [memberKey list.1] := by simpa [Key.AreSegments] using ⟨filled, plain⟩
  have joined := are.join (toString (place + 1))
  rw [Key.ofSegments_singleton] at joined
  rw [elementKey, joined]
  exact (are.concat number.filled number.plain).segments (by simp)

theorem find?_children (list : String × List Json) (place : Nat) :
    (listParam list).children.find? (fun item => item.key = toString (place + 1)) = itemAt? list place := by
  have found := find?_buildItems (Param.inner {} list.1 .list) 1 place list.2
  rw [Nat.add_comm 1 place] at found
  exact found

theorem any_children (list : String × List Json) (place : Nat) :
    ((listParam list).children.any fun item => item.key = toString (place + 1)) =
      (itemAt? list place).isSome := by
  rw [← find?_children, Bool.eq_iff_iff, List.any_eq_true, List.find?_isSome]

theorem resolve_elementKey (scalar : ScalarLists lists) (member : list ∈ lists) (place : Nat) :
    (ofLists lists).resolve (elementKey list place) = (itemAt? list place).toList := by
  rw [resolve, matching, scalar.segments_elementKey member]
  show (Param.matchesNamed [] (memberKey list.1) [toString (place + 1)] (ofLists lists).top).map
    (·.param) = _
  rw [Param.matchesNamed_eq_find?, scalar.find?_top member]
  show (Param.matchesAt [] [toString (place + 1)] (listParam list)).map (·.param) = _
  have named := any_children list place
  cases found : itemAt? list place with
  | some item =>
      rw [found] at named
      rw [Param.matchesAt_of_item rfl named, Param.matchesNamed_eq_find?, find?_children, found]
      exact congrArg (List.map Match.param) Param.matchesAt_nil
  | none =>
      rw [found] at named
      have nothing : ∀ item ∈ (listParam list).children,
          Param.matchesAt ([] ++ [item.key]) [toString (place + 1)] item = [] := by
        intro item listed
        obtain ⟨isScalar, childless⟩ := scalar.leaf member listed
        rw [Param.matchesAt_of_not_list (by simp [isScalar]), childless, Param.matchesNamed]
      rw [Param.matchesAt_of_no_item rfl named, Param.matchesItems_eq_flatMap,
        List.flatMap_eq_nil_iff.mpr nothing]
      rfl

theorem pendingList?_elementKey (scalar : ScalarLists lists) (member : list ∈ lists) (place : Nat) :
    (ofLists lists).pendingList? (elementKey list place) = none := by
  rw [pendingList?, scalar.segments_elementKey member, scalar.resolve_elementKey member]
  show Param.pendingAmong? _ (memberKey list.1) [toString (place + 1)] (ofLists lists).top = none
  rw [Param.pendingAmong?_eq_find?, scalar.find?_top member, Option.bind_some, Param.pendingAt?_of_list rfl,
    any_children, Param.pendingAmong?_eq_find?, find?_children]
  cases found : itemAt? list place with
  | some item =>
      have listed := List.mem_of_find?_eq_some ((find?_children list place).trans found)
      have isScalar := (scalar.leaf member listed).1
      rw [Option.bind_some, Param.pendingAt?_of_not_list (by simp [isScalar])]
      rfl
  | none => simp [scalar.children_ne_nil member]

theorem unambiguous (scalar : ScalarLists lists) : (ofLists lists).Unambiguous := by
  rw [Unambiguous, top_ofLists]
  induction lists with
  | nil => trivial
  | cons list rest ih =>
      obtain ⟨filled, plain⟩ := scalar.named list (List.mem_cons_self ..)
      obtain ⟨apart, distinct⟩ := List.nodup_cons.mp scalar.distinct
      have scalars := scalar.scalars list (List.mem_cons_self ..)
      refine ⟨Param.unambiguous_iff.mpr ⟨filled, plain, ?_⟩, ?_, ih ?_⟩
      · refine Param.unambiguousAll_buildItems (Json.wellNamedItems_iff.mpr fun item inside => ?_)
        rcases scalars item inside with rfl | ⟨-, noArray, noObject⟩
        · trivial
        · cases item with
          | array items => exact absurd rfl noArray
          | object members => exact absurd rfl noObject
          | _ => trivial
      · intro other listed same
        obtain ⟨next, inside, rfl⟩ := List.mem_map.mp listed
        exact apart (List.mem_map.mpr ⟨next, inside, same⟩)
      · exact
          { named := fun next inside => scalar.named next (List.mem_cons_of_mem _ inside)
            distinct
            scalars := fun next inside => scalar.scalars next (List.mem_cons_of_mem _ inside)
            filled := fun next inside => scalar.filled next (List.mem_cons_of_mem _ inside) }

theorem mem_all (scalar : ScalarLists lists) {found : Param} (inside : found ∈ (ofLists lists).all) :
    ∃ list ∈ lists, found = listParam list ∨ found ∈ (listParam list).children := by
  rw [all, top_ofLists] at inside
  obtain ⟨param, top, below⟩ := Param.mem_withAllOf.mp inside
  obtain ⟨list, member, rfl⟩ := List.mem_map.mp top
  rw [Param.withAll_eq, List.mem_cons] at below
  refine ⟨list, member, below.imp_right fun held => ?_⟩
  obtain ⟨item, listed, lower⟩ := Param.mem_withAllOf.mp held
  rw [Param.withAll_eq, (scalar.leaf member listed).2, Param.withAllOf, List.mem_singleton] at lower
  exact lower ▸ listed

theorem absoluteKey_of_mem_children {item : Param} (member : list ∈ lists)
    (listed : item ∈ (listParam list).children) :
    item.absoluteKey = Key.join (memberKey list.1) item.key := by
  have keyed := keyed_ofLists lists
  rw [Keyed, top_ofLists] at keyed
  obtain ⟨-, -, below⟩ := Param.keyed_iff.mp (keyed.of_mem _ (List.mem_map_of_mem member))
  exact (Param.keyed_iff.mp (below.of_mem item listed)).1

theorem get?_elementKey (scalar : ScalarLists lists) (member : list ∈ lists) (place : Nat) :
    (ofLists lists).get? (elementKey list place) = itemAt? list place := by
  have segments := scalar.segments_elementKey member place
  ext found
  rw [get?_eq_some_iff_mem (keyed_ofLists lists) scalar.unambiguous, ← find?_children]
  constructor
  · rintro ⟨inside, same⟩
    obtain ⟨other, among, rfl | listed⟩ := scalar.mem_all inside
    · rw [← same, absoluteKey_listParam, Key.segments_of_isSegment (scalar.named other among).2] at segments
      simp at segments
    · obtain ⟨index, number⟩ := exists_key_of_mem_children listed
      have address := absoluteKey_of_mem_children among listed
      have apart := scalar.segments_elementKey among index
      rw [elementKey, ← number, ← address, same, segments, List.cons.injEq, List.cons.injEq] at apart
      obtain ⟨name, number, -⟩ := apart
      obtain rfl := scalar.eq_of_memberKey member among name
      rw [number]
      exact Param.find?_key_of_mem (Param.nodup_key_buildItems ..) listed
  · intro there
    have key : found.key = toString (place + 1) := by simpa using List.find?_some there
    have listed := List.mem_of_find?_eq_some there
    constructor
    · rw [all, top_ofLists]
      have below := Param.mem_withAllOf.mpr ⟨found, listed, Param.mem_withAll_self found⟩
      exact Param.mem_withAllOf.mpr
        ⟨listParam list, List.mem_map_of_mem member, Param.mem_withAll_of_child rfl below⟩
    · rw [absoluteKey_of_mem_children member listed, key]
      rfl

end ScalarLists

end Params

end WordTemplate
