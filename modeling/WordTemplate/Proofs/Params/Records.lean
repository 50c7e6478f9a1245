import WordTemplate.Proofs.Params.Foreign
import WordTemplate.Proofs.Params.Values

/-! Parameters that are one list of records. A record has texts in named fields. A key that names the list
and a field is pending at the list, and a key with the position of a record between the two leads to what
the record says. -/

namespace WordTemplate

theorem toString_inj {first second : Nat} : toString first = toString second ↔ first = second := by
  refine ⟨fun same => ?_, congrArg toString⟩
  rw [Nat.toString_eq_ofList_toDigits, Nat.toString_eq_ofList_toDigits, String.ofList_inj] at same
  rw [← @Nat.ofDigitChars_ten_toDigits first, same, Nat.ofDigitChars_ten_toDigits]

/-- A name that can stand between the dots of a key. -/
structure IsName (name : String) : Prop where
  filled : name ≠ ""
  plain : Key.IsSegment name
  trimmed : Text.trimEnd name.toList = name.toList

/-- A name of a field, which cannot be taken for a position. -/
structure IsField (name : String) : Prop extends IsName name where
  other : ∃ c ∈ name.toList, c.isDigit = false

/-- What is said in the fields of a record. -/
abbrev Record := List (String × String)

namespace Record

def toJson (record : Record) : Json :=
  .object (record.map fun field => (field.1, .string field.2))

end Record

namespace Param

def ofField (place : Place) (field : String × String) : Param :=
  make place field.1 field.2 .scalar []

def ofRecord (place : Place) (position : Nat) (record : Record) : Param :=
  make place (toString position) "" .object
    (record.map (ofField (inner place (toString position) .object)))

def ofRecords (list : String) (records : List Record) : Param :=
  make {} list "" .list
    ((records.zipIdx 1).map fun item => ofRecord (inner {} list .list) item.2 item.1)

end Param

/-- The data of a list of records. -/
def Params.recordsJson (list : String) (records : List Record) : Json :=
  .object [(list, .array (records.map Record.toJson))]

namespace Param

theorem buildMembers_fields (place : Place) (record : Record) :
    buildMembers place (record.map fun field => (field.1, .string field.2)) =
      record.map (ofField place) := by
  induction record with
  | nil => rfl
  | cons field rest ih =>
      rw [List.map_cons, List.map_cons, buildMembers, ih, build]
      rfl

theorem ofMembers?_fields (record : Record) :
    Image.ofMembers? (record.map fun field => (field.1, .string field.2)) = none := by
  cases record with
  | nil => rfl
  | cons field rest =>
      cases rest with
      | nil =>
          rw [List.map_cons, List.map_nil, Image.ofMembers?]
          split <;> rfl
      | cons next others => rfl

theorem build_record (place : Place) (position : Nat) (record : Record) :
    build place (toString position) record.toJson = some (ofRecord place position record) := by
  rw [Record.toJson, build, ofMembers?_fields, buildMembers_fields]
  rfl

theorem buildItems_records (place : Place) (position : Nat) (records : List Record) :
    buildItems place position (records.map Record.toJson) =
      (records.zipIdx position).map fun item => ofRecord place item.2 item.1 := by
  induction records generalizing position with
  | nil => rfl
  | cons record rest ih =>
      rw [List.map_cons, buildItems, build_record, ih]
      rfl

end Param

namespace Params

theorem ofJson_records (list : String) (records : List Record) :
    ofJson (recordsJson list records) = .ok ⟨[Param.ofRecords list records]⟩ := by
  rw [recordsJson, ofJson, ofMembers, Param.buildMembers, Param.build, Param.buildItems_records]
  rfl

end Params

/-- A field of all records, as a key asks for it. -/
def fieldKey (list field : String) : String :=
  list ++ "." ++ field

def recordKey (list : String) (position : Nat) (field : String) : String :=
  list ++ "." ++ toString position ++ "." ++ field

theorem IsField.not_isPosition {name : String} (isField : IsField name) :
    Key.isPosition name = false := by
  obtain ⟨c, member, other⟩ := isField.other
  rw [Key.isPosition, Bool.and_eq_false_iff, List.all_eq_false]
  exact .inr ⟨c, member, by simp [other]⟩

namespace Param

variable {place : Place}

theorem key_ofField {field : String × String} (isName : IsName field.1) :
    (ofField place field).key = field.1 := by
  rw [ofField, make, isName.trimmed, String.ofList_toList]

theorem key_ofRecord (position : Nat) (record : Record) :
    (ofRecord place position record).key = toString position := by
  rw [ofRecord, make, trimEnd_of_isPosition (isPosition_toString position), String.ofList_toList]

theorem key_ofRecords {list : String} (isName : IsName list) (records : List Record) :
    (ofRecords list records).key = list := by
  rw [ofRecords, make, isName.trimmed, String.ofList_toList]

theorem getElem?_children_ofRecords (list : String) (records : List Record) (position : Nat) :
    (ofRecords list records).children[position]? =
      records[position]?.map (ofRecord (inner {} list .list) (1 + position)) := by
  rw [ofRecords, make, List.getElem?_map, List.getElem?_zipIdx, Option.map_map]
  rfl

theorem itemCount_ofRecords (list : String) (records : List Record) :
    (ofRecords list records).itemCount = records.length := by
  rw [ofRecords, make, itemCount, isList]
  simp

theorem absoluteKey_ofRecords {list : String} (isName : IsName list) (records : List Record) :
    (ofRecords list records).absoluteKey = list := by
  rw [ofRecords, make, isName.trimmed, String.ofList_toList]
  rfl

theorem getAt?_eq (key : String) (param : Param) :
    getAt? key param = if param.absoluteKey = key then some param else getAmong? key param.children := by
  cases param
  rw [getAt?]

theorem pendingAt?_of_not_list {param : Param} (notList : param.kind ≠ .list) (matched : Bool)
    (segments : List String) :
    pendingAt? matched segments param =
      match segments with
      | [] => none
      | segment :: rest => pendingAmong? matched segment rest param.children := by
  obtain ⟨key, value, kind, absoluteKey, compactKey, level, children⟩ := param
  have other : kind ≠ .list := notList
  cases segments with
  | nil => rw [pendingAt?]; simp [other]
  | cons segment rest => rw [pendingAt?]; simp [other]

theorem pendingAt?_of_list {param : Param} (isList : param.kind = .list) (matched : Bool)
    (segment : String) (rest : List String) :
    pendingAt? matched (segment :: rest) param =
      if param.children.any fun child => child.key = segment then
        pendingAmong? matched segment rest param.children
      else if param.children.isEmpty || matched then
        some ⟨param, Key.ofSegments (segment :: rest)⟩
      else none := by
  obtain ⟨key, value, kind, absoluteKey, compactKey, level, children⟩ := param
  obtain rfl : kind = .list := isList
  rw [pendingAt?]
  cases children.any fun child => child.key = segment <;> simp

end Param

section Keys

variable {list field : String} (isName : IsName list)
include isName

theorem segments_fieldKey (isField : IsField field) :
    Key.segments (fieldKey list field) = [list, field] := by
  rw [fieldKey, Key.segments_append, Key.segments_of_isSegment isName.plain,
    Key.segments_of_isSegment isField.plain]
  rfl

theorem segments_position (position : Nat) :
    Key.segments (list ++ "." ++ toString position) = [list, toString position] := by
  rw [Key.segments_append, Key.segments_of_isSegment isName.plain, Key.segments_of_isSegment
    (PendingList.isSegment_of_isPosition (Param.isPosition_toString position))]
  rfl

theorem segments_recordKey (position : Nat) (plain : IsName field) :
    Key.segments (recordKey list position field) = [list, toString position, field] := by
  rw [recordKey, Key.segments_append, segments_position isName, Key.segments_of_isSegment plain.plain]
  rfl

theorem hasAncestor_position {key : String} (position : Nat) :
    Key.hasAncestor key (list ++ "." ++ toString position) = true ↔
      [list, toString position] <+: Key.segments key := by
  rw [Key.hasAncestor_iff (by simp), segments_position isName]

theorem hasAncestor_recordKey (position other : Nat) {name : String} (plain : IsName field)
    (named : IsName name) :
    Key.hasAncestor (recordKey list position field) (recordKey list other name) = true ↔
      other = position ∧ name = field := by
  rw [Key.hasAncestor_iff (by simp [recordKey]), segments_recordKey isName _ plain,
    segments_recordKey isName _ named, List.cons_prefix_cons, List.cons_prefix_cons,
    List.cons_prefix_cons, toString_inj]
  simp

end Keys

namespace Param

variable {list field : String} (isName : IsName list)
include isName

theorem join_list (segment : String) : Key.join list segment = list ++ "." ++ segment := by
  simp [Key.join, isName.filled]

theorem absoluteKey_inner (kind : Kind) : (inner {} list kind).absoluteKey = list := by
  rw [inner, make, isName.trimmed, String.ofList_toList]
  rfl

theorem absoluteKey_ofRecord (position : Nat) (record : Record) :
    (ofRecord (inner {} list .list) position record).absoluteKey =
      list ++ "." ++ toString position := by
  rw [ofRecord, make, absoluteKey_inner isName, trimEnd_of_isPosition (isPosition_toString position),
    String.ofList_toList, join_list isName]

theorem absoluteKey_ofField (position : Nat) {entry : String × String} (named : IsName entry.1) :
    (ofField (inner (inner {} list .list) (toString position) .object) entry).absoluteKey =
      recordKey list position entry.1 := by
  have place : (inner (inner {} list .list) (toString position) .object).absoluteKey =
      list ++ "." ++ toString position := absoluteKey_ofRecord isName position []
  rw [ofField, make, place, named.trimmed, String.ofList_toList, Key.join, recordKey]
  simp

omit isName in
theorem getAmong?_fields {key : String} {place : Place} {record : Record} {value : String}
    (below : ∀ entry ∈ record,
      Key.hasAncestor key (ofField place entry).absoluteKey = true ↔ entry.1 = field)
    (here : (ofField place (field, value)).absoluteKey = key)
    (said : record.lookup field = some value) :
    getAmong? key (record.map (ofField place)) = some (ofField place (field, value)) := by
  induction record with
  | nil => simp at said
  | cons entry rest ih =>
      rw [List.map_cons, getAmong?]
      obtain ⟨others, first⟩ : (∀ entry ∈ rest,
          Key.hasAncestor key (ofField place entry).absoluteKey = true ↔ entry.1 = field) ∧
          (Key.hasAncestor key (ofField place entry).absoluteKey = true ↔ entry.1 = field) :=
        ⟨fun other member => below other (by simp [member]), below entry (by simp)⟩
      obtain ⟨name, text⟩ := entry
      by_cases named : name = field
      · subst named
        obtain rfl : text = value := by simpa using said
        rw [if_pos (first.mpr rfl), getAt?_eq, if_pos here]
      · rw [if_neg fun inside => named (first.mp inside)]
        have other : (field == name) = false := by simpa using Ne.symm named
        rw [List.lookup_cons, other] at said
        exact ih others said

theorem getAmong?_records {first position : Nat} {records : List Record} {record : Record}
    (plain : IsName field) (here : records[position]? = some record) :
    getAmong? (recordKey list (first + position) field)
        ((records.zipIdx first).map fun item => ofRecord (inner {} list .list) item.2 item.1) =
      getAmong? (recordKey list (first + position) field)
        (ofRecord (inner {} list .list) (first + position) record).children := by
  have below (number : Nat) (other : Record) : Key.hasAncestor (recordKey list (first + position) field)
      (ofRecord (inner {} list .list) number other).absoluteKey = true ↔ number = first + position := by
    rw [absoluteKey_ofRecord isName, hasAncestor_position isName, segments_recordKey isName _ plain,
      List.cons_prefix_cons, List.cons_prefix_cons, toString_inj]
    simp
  induction records generalizing first position with
  | nil => simp at here
  | cons next rest ih =>
      rw [List.zipIdx_cons, List.map_cons, getAmong?]
      cases position with
      | zero =>
          obtain rfl : next = record := by simpa using here
          rw [if_pos ((below first next).mpr rfl), getAt?_eq, if_neg]
          · rfl
          · rw [absoluteKey_ofRecord isName]
            intro same
            have parts := congrArg Key.segments same
            rw [segments_position isName, segments_recordKey isName _ plain] at parts
            simp at parts
      | succ position =>
          have shift : first + (position + 1) = (first + 1) + position := by omega
          rw [if_neg fun inside => by have := (below first next).mp inside; omega]
          rw [shift] at below ⊢
          exact ih (by simpa using here) below

end Param

namespace Params

def Fielded (records : List Record) (field : String) : Prop :=
  ∀ record ∈ records, (record.lookup field).isSome = true

variable {list field : String} {records : List Record} (isName : IsName list)
include isName

theorem get?_fieldKey (isField : IsField field) :
    get? ⟨[Param.ofRecords list records]⟩ (fieldKey list field) = none := by
  have below : Key.hasAncestor (fieldKey list field) (Param.ofRecords list records).absoluteKey = true := by
    rw [Param.absoluteKey_ofRecords isName, Key.hasAncestor_iff isName.filled,
      segments_fieldKey isName isField, Key.segments_of_isSegment isName.plain]
    simp
  rw [get?, Param.getAmong?, if_pos below, Param.getAt?_eq, if_neg]
  · refine Param.getAmong?_eq_none fun param member => ?_
    obtain ⟨⟨record, position⟩, -, rfl⟩ := List.mem_map.mp member
    rw [Param.absoluteKey_ofRecord isName, Bool.eq_false_iff]
    intro inside
    rw [hasAncestor_position isName, segments_fieldKey isName isField, List.cons_prefix_cons,
      List.cons_prefix_cons] at inside
    have numeral := Param.isPosition_toString position
    rw [inside.2.1, isField.not_isPosition] at numeral
    exact absurd numeral (by decide)
  · rw [Param.absoluteKey_ofRecords isName]
    intro same
    have parts := congrArg Key.segments same
    rw [segments_fieldKey isName isField, Key.segments_of_isSegment isName.plain] at parts
    simp at parts

theorem get?_recordKey (isField : IsField field)
    (named : ∀ record ∈ records, ∀ entry ∈ record, IsName entry.1) {position : Nat} {record : Record}
    (here : records[position]? = some record) {value : String}
    (said : record.lookup field = some value) :
    ∃ param, get? ⟨[Param.ofRecords list records]⟩ (recordKey list (1 + position) field) = some param ∧
      param.kind = .scalar ∧ param.value = value := by
  have below : Key.hasAncestor (recordKey list (1 + position) field)
      (Param.ofRecords list records).absoluteKey = true := by
    rw [Param.absoluteKey_ofRecords isName, Key.hasAncestor_iff isName.filled,
      segments_recordKey isName _ isField.toIsName, Key.segments_of_isSegment isName.plain]
    simp
  rw [get?, Param.getAmong?, if_pos below, Param.getAt?_eq, if_neg]
  · let place : Param.Place :=
      Param.inner (Param.inner {} list .list) (toString (1 + position)) .object
    refine ⟨Param.ofField place (field, value),
      (Param.getAmong?_records isName isField.toIsName here).trans ?_, rfl, rfl⟩
    refine Param.getAmong?_fields (fun entry member => ?_) ?_ said
    · have entryNamed := named record (List.mem_of_getElem? here) entry member
      rw [Param.absoluteKey_ofField isName _ entryNamed,
        hasAncestor_recordKey isName _ _ isField.toIsName entryNamed]
      simp
    · exact Param.absoluteKey_ofField isName _ isField.toIsName
  · rw [Param.absoluteKey_ofRecords isName]
    intro same
    have parts := congrArg Key.segments same
    rw [segments_recordKey isName _ isField.toIsName, Key.segments_of_isSegment isName.plain] at parts
    simp at parts

omit isName in
theorem ne_position (isField : IsField field) (position : Nat) : toString position ≠ field := by
  rintro rfl
  have numeral := Param.isPosition_toString position
  rw [isField.not_isPosition] at numeral
  exact absurd numeral (by decide)

omit isName in
theorem matchesAt_record {route : List String} {place : Param.Place} {position : Nat} {record : Record}
    (named : ∀ entry ∈ record, IsName entry.1) (has : (record.lookup field).isSome = true) :
    Param.matchesAt route [field] (Param.ofRecord place position record) ≠ [] := by
  rw [Param.ofRecord, Param.make, Param.matchesAt, if_neg (by decide)]
  induction record with
  | nil => simp at has
  | cons entry rest ih =>
      rw [List.map_cons, Param.matchesNamed, Param.key_ofField (named entry (by simp))]
      by_cases here : entry.1 = field
      · rw [if_pos here, Param.ofField, Param.make, Param.matchesAt]
        simp
      · rw [if_neg here]
        have other : (field == entry.1) = false := by simpa using Ne.symm here
        rw [List.lookup_cons, other] at has
        exact ih (fun inner member => named inner (by simp [member])) has

theorem resolve_fieldKey (isField : IsField field)
    (named : ∀ record ∈ records, ∀ entry ∈ record, IsName entry.1)
    (fielded : Fielded records field) (some : records ≠ []) :
    resolve ⟨[Param.ofRecords list records]⟩ (fieldKey list field) ≠ [] := by
  obtain ⟨record, rest, rfl⟩ := List.exists_cons_of_ne_nil some
  rw [resolve, matching, segments_fieldKey isName isField, ne_eq, List.map_eq_nil_iff]
  simp only [Param.matchesNamed]
  rw [if_pos (Param.key_ofRecords isName _), Param.ofRecords, Param.make, Param.matchesAt, if_pos rfl,
    if_neg]
  · rw [List.zipIdx_cons, List.map_cons, Param.matchesItems]
    intro none
    exact matchesAt_record (named record (by simp)) (fielded record (by simp))
      (List.append_eq_nil_iff.mp none).1
  · rw [List.any_eq_true]
    rintro ⟨param, member, same⟩
    obtain ⟨⟨record, position⟩, -, rfl⟩ := List.mem_map.mp member
    rw [Param.key_ofRecord, decide_eq_true_eq] at same
    exact ne_position isField position same

omit isName in
theorem apart_from_positions (isField : IsField field) :
    (Param.ofRecords list records).children.any (fun child => child.key = field) = false := by
  rw [List.any_eq_false]
  intro param member
  obtain ⟨⟨record, position⟩, -, rfl⟩ := List.mem_map.mp member
  rw [Param.key_ofRecord, decide_eq_true_eq]
  exact ne_position isField position

theorem pendingList?_fieldKey (isField : IsField field)
    (named : ∀ record ∈ records, ∀ entry ∈ record, IsName entry.1) (fielded : Fielded records field) :
    pendingList? ⟨[Param.ofRecords list records]⟩ (fieldKey list field) =
      some ⟨Param.ofRecords list records, field⟩ := by
  have due : ((Param.ofRecords list records).children.isEmpty ||
      !(resolve ⟨[Param.ofRecords list records]⟩ (fieldKey list field)).isEmpty) = true := by
    cases records with
    | nil => rfl
    | cons record rest =>
        have found := resolve_fieldKey isName isField named fielded (by simp)
        simp [found]
  rw [pendingList?, segments_fieldKey isName isField]
  simp only [Param.pendingAmong?]
  rw [if_pos (Param.key_ofRecords isName _), Param.pendingAt?_of_list rfl,
    if_neg (by rw [apart_from_positions isField]; decide), if_pos due, Key.ofSegments_singleton]

omit isName in
theorem pendingAt?_ofRecord (matched : Bool) (segments : List String) (place : Param.Place)
    (position : Nat) (record : Record) :
    Param.pendingAt? matched segments (Param.ofRecord place position record) = none := by
  have quiet (segments : List String) (name : String) (fields : Record) (inside : Param.Place) :
      Param.pendingAmong? matched name segments (fields.map (Param.ofField inside)) = none := by
    induction fields with
    | nil => rfl
    | cons entry rest ih =>
        rw [List.map_cons, Param.pendingAmong?]
        split
        · rw [Param.pendingAt?_of_not_list (by simp [Param.ofField, Param.make])]
          cases segments <;> rfl
        · exact ih
  rw [Param.pendingAt?_of_not_list (by simp [Param.ofRecord, Param.make])]
  cases segments with
  | nil => rfl
  | cons segment rest => exact quiet rest segment record _

theorem pendingList?_recordKey (isField : IsField field) {position : Nat}
    (inside : position < records.length) :
    pendingList? ⟨[Param.ofRecords list records]⟩ (recordKey list (1 + position) field) = none := by
  have quiet (matched : Bool) (name : String) (segments : List String) (items : List (Record × Nat)) :
      Param.pendingAmong? matched name segments
        (items.map fun item => Param.ofRecord (Param.inner {} list .list) item.2 item.1) = none := by
    induction items with
    | nil => rfl
    | cons item rest ih =>
        rw [List.map_cons, Param.pendingAmong?, pendingAt?_ofRecord, ih, ite_self]
  have there : ((Param.ofRecords list records).children.any
      fun child => child.key = toString (1 + position)) = true := by
    have here := Param.getElem?_children_ofRecords list records position
    rw [List.getElem?_eq_getElem inside, Option.map_some] at here
    rw [List.any_eq_true]
    exact ⟨_, List.mem_of_getElem? here, by rw [Param.key_ofRecord, decide_eq_true_eq]⟩
  rw [pendingList?, segments_recordKey isName _ isField.toIsName]
  simp only [Param.pendingAmong?]
  rw [if_pos (Param.key_ofRecords isName _), Param.pendingAt?_of_list rfl, if_pos there]
  exact quiet ..

theorem indexed_fieldKey (isField : IsField field) (position : Nat) :
    PendingList.indexed ⟨Param.ofRecords list records, field⟩ (toString position) =
      recordKey list position field := by
  have filled : field.isEmpty = false := by simpa using isField.filled
  rw [PendingList.indexed, Param.absoluteKey_ofRecords isName, Param.join_list isName, filled,
    if_neg (by decide), recordKey, Key.join, if_neg (by simp)]

omit isName in
theorem image?_of_mem_all {param : Param}
    (member : param ∈ Params.all ⟨[Param.ofRecords list records]⟩) : param.image? = none := by
  obtain ⟨top, isTop, inside⟩ := Param.mem_withAllOf.mp member
  obtain rfl := List.mem_singleton.mp isTop
  rw [Param.withAll_eq, List.mem_cons, Param.mem_withAllOf] at inside
  obtain rfl | ⟨item, listed, inside⟩ := inside
  · rfl
  obtain ⟨⟨record, position⟩, -, rfl⟩ := List.mem_map.mp listed
  rw [Param.withAll_eq, List.mem_cons, Param.mem_withAllOf] at inside
  obtain rfl | ⟨field, listed, inside⟩ := inside
  · rfl
  obtain ⟨entry, -, rfl⟩ := List.mem_map.mp listed
  rw [Param.withAll_eq, List.mem_cons, Param.mem_withAllOf] at inside
  obtain rfl | ⟨_, none, _⟩ := inside
  · rfl
  · cases none

end Params

end WordTemplate
