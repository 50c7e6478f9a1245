import WordTemplate.Params.Lookup
import WordTemplate.Proofs.Key

/-! Pending lists of parameters that are read from data. The key for an item of a pending list
weighs one more than the key that is pending, and no key that matches a parameter weighs more than
the parameters are deep. -/

namespace WordTemplate

namespace Param

mutual

/-- Absolute keys lead from the holder to what it holds, and the items of a list are named by
positions. -/
def Keyed (parent : String) : Param → Prop
  | ⟨key, _, kind, absoluteKey, _, _, children⟩ =>
    absoluteKey = Key.join parent key ∧
      (kind = .list → ∀ child ∈ children, Key.isPosition child.key = true) ∧
      KeyedAll absoluteKey children

def KeyedAll (parent : String) : List Param → Prop
  | [] => True
  | param :: rest => param.Keyed parent ∧ KeyedAll parent rest

end

theorem keyed_iff {parent : String} {param : Param} :
    param.Keyed parent ↔ param.absoluteKey = Key.join parent param.key ∧
      (param.kind = .list → ∀ child ∈ param.children, Key.isPosition child.key = true) ∧
      KeyedAll param.absoluteKey param.children := by
  cases param
  simp only [Keyed]

theorem keyedAll_append {parent : String} {front back : List Param} :
    KeyedAll parent (front ++ back) ↔ KeyedAll parent front ∧ KeyedAll parent back := by
  induction front with
  | nil => simp [KeyedAll]
  | cons param rest ih => simp [KeyedAll, ih, and_assoc]

theorem isPosition_toString (position : Nat) : Key.isPosition (toString position) = true := by
  rw [Key.isPosition, Nat.toString_eq_ofList_toDigits, String.toList_ofList]
  have some : Nat.toDigits 10 position ≠ [] := Nat.toDigits_ne_nil
  simp only [Bool.and_eq_true, Bool.not_eq_true', List.all_eq_true]
  constructor
  · simp [some]
  · intro c member
    exact Nat.isDigit_of_mem_toDigits (by decide) (by decide) member

theorem isBlank_of_isDigit {c : Char} (digit : c.isDigit = true) : Text.isBlank c = false := by
  have bounds := Char.isDigit_iff_toNat.mp digit
  have low : '0'.toNat = 48 := rfl
  have high : '9'.toNat = 57 := rfl
  rw [low, high] at bounds
  simp only [Text.isBlank, Bool.or_eq_false_iff, Bool.and_eq_false_iff, decide_eq_false_iff_not]
  omega

theorem trimEnd_of_isPosition {segment : String} (position : Key.isPosition segment = true) :
    Text.trimEnd segment.toList = segment.toList := by
  simp only [Key.isPosition, Bool.and_eq_true, List.all_eq_true] at position
  have kept : segment.toList.reverse.dropWhile Text.isBlank = segment.toList.reverse := by
    cases last : segment.toList.reverse with
    | nil => rfl
    | cons c rest =>
        have member : c ∈ segment.toList := by
          rw [← List.mem_reverse, last]
          exact List.mem_cons_self ..
        rw [List.dropWhile_cons_of_neg]
        simp [isBlank_of_isDigit (position.2 c member)]
  rw [Text.trimEnd, kept, List.reverse_reverse]

theorem key_build {place : Place} {name : String} {json : Json} {param : Param}
    (built : build place name json = some param) :
    param.key = String.ofList (Text.trimEnd name.toList) := by
  cases json <;> simp only [build, Option.some.injEq, reduceCtorEq] at built
  case object members =>
    split at built <;> (cases built; rfl)
  all_goals (subst built; rfl)

theorem isPosition_buildItems (place : Place) (position : Nat) (items : List Json) :
    ∀ item ∈ buildItems place position items, Key.isPosition item.key = true := by
  induction items generalizing position with
  | nil => simp [buildItems]
  | cons first rest ih =>
      intro item member
      rw [buildItems, List.mem_append, Option.mem_toList] at member
      rcases member with here | later
      · have digits := isPosition_toString position
        rw [key_build here, trimEnd_of_isPosition digits, String.ofList_toList]
        exact digits
      · exact ih (position + 1) item later

mutual

theorem keyed_build {place : Place} {name : String} {json : Json} {param : Param}
    (built : build place name json = some param) : param.Keyed place.absoluteKey := by
  cases json with
  | null => simp [build] at built
  | boolean value =>
      cases built
      exact keyed_iff.mpr ⟨rfl, by simp [make], trivial⟩
  | integer value =>
      cases built
      exact keyed_iff.mpr ⟨rfl, by simp [make], trivial⟩
  | real negative magnitude =>
      cases built
      exact keyed_iff.mpr ⟨rfl, by simp [make], trivial⟩
  | string value =>
      cases built
      exact keyed_iff.mpr ⟨rfl, by simp [make], trivial⟩
  | array items =>
      cases built
      exact keyed_iff.mpr ⟨rfl, fun _ => isPosition_buildItems _ 1 items,
        keyedAll_buildItems (inner place name .list) 1 items⟩
  | object members =>
      simp only [build] at built
      split at built
      · cases built
        exact keyed_iff.mpr ⟨rfl, by simp [make], trivial⟩
      · cases built
        exact keyed_iff.mpr ⟨rfl, by simp [make],
          keyedAll_buildMembers (inner place name .object) members⟩

theorem keyedAll_buildItems (place : Place) (position : Nat) (items : List Json) :
    KeyedAll place.absoluteKey (buildItems place position items) := by
  cases items with
  | nil => trivial
  | cons item rest =>
      rw [buildItems, keyedAll_append]
      refine ⟨?_, keyedAll_buildItems place (position + 1) rest⟩
      cases built : build place (toString position) item with
      | none => trivial
      | some param => exact ⟨keyed_build built, trivial⟩

theorem keyedAll_buildMembers (place : Place) (members : List (String × Json)) :
    KeyedAll place.absoluteKey (buildMembers place members) := by
  match members with
  | [] => trivial
  | (name, value) :: rest =>
      rw [buildMembers, keyedAll_append]
      refine ⟨?_, keyedAll_buildMembers place rest⟩
      cases built : build place name value with
      | none => trivial
      | some param => exact ⟨keyed_build built, trivial⟩

end

/-- Where a list is found that a key is pending at: behind the leading segments of the key. Every
key that starts with them and goes on with no item of the list finds the list again. -/
structure StopsBehind (look : Bool → List String → Option PendingList) (start : String)
    (matched : Bool) (front back : List String) (pending : PendingList) : Prop where
  rest : pending.rest = Key.ofSegments back
  absoluteKey : pending.list.absoluteKey = front.foldl Key.join start
  isList : pending.list.kind = .list
  positions : ∀ item ∈ pending.list.children, Key.isPosition item.key = true
  below : KeyedAll pending.list.absoluteKey pending.list.children
  due : (pending.list.children.isEmpty || matched) = true
  enters : ∀ (matched : Bool) (back : List String), ∀ item ∈ pending.list.children,
    look matched (front ++ item.key :: back) =
      pendingAmong? matched item.key back pending.list.children
  again : ∀ (matched : Bool) (back : List String),
    (∀ segment ∈ back.head?, ∀ item ∈ pending.list.children, item.key ≠ segment) →
    look matched (front ++ back) =
      if pending.list.children.isEmpty || matched then
        some ⟨pending.list, Key.ofSegments back⟩
      else none

/-- A look-up that first takes some segments and then goes on as another one does stops where that
one stops, behind the segments taken. -/
theorem StopsBehind.ahead {look further : Bool → List String → Option PendingList}
    {start middle : String} {matched : Bool} {front back : List String} {pending : PendingList}
    (behind : StopsBehind further middle matched front back pending) (taken : List String)
    (goesOn : ∀ matched segments, look matched (taken ++ segments) = further matched segments)
    (leads : taken.foldl Key.join start = middle) :
    StopsBehind look start matched (taken ++ front) back pending where
  rest := behind.rest
  absoluteKey := by rw [behind.absoluteKey, List.foldl_append, leads]
  isList := behind.isList
  positions := behind.positions
  below := behind.below
  due := behind.due
  enters matched back item member := by
    rw [List.append_assoc, goesOn]
    exact behind.enters matched back item member
  again matched back unnamed := by
    rw [List.append_assoc, goesOn]
    exact behind.again matched back unnamed

theorem stopsBehind_here {matched : Bool} {segments : List String} {param : Param}
    (isList : param.kind = .list)
    (positions : ∀ item ∈ param.children, Key.isPosition item.key = true)
    (below : KeyedAll param.absoluteKey param.children)
    (due : (param.children.isEmpty || matched) = true) :
    StopsBehind (fun matched segments => pendingAt? matched segments param) param.absoluteKey
      matched [] segments ⟨param, Key.ofSegments segments⟩ where
  rest := rfl
  absoluteKey := rfl
  isList := isList
  positions := positions
  below := below
  due := due
  enters matched back item member := by
    have named : param.children.any (fun child => child.key = item.key) = true :=
      List.any_eq_true.mpr ⟨item, member, by simp⟩
    cases param
    simp [pendingAt?, named]
  again matched back unnamed := by
    cases param with
    | mk key value kind absoluteKey compactKey level children =>
        have isList : kind = .list := isList
        cases back with
        | nil => simp [pendingAt?, isList]
        | cons segment rest =>
            have none : children.any (fun child => child.key = segment) = false := by
              simpa using unnamed segment rfl
            simp [pendingAt?, isList, none]

mutual

theorem stopsBehind_of_pendingAt? {matched : Bool} {segments : List String} {parent : String}
    {param : Param} {pending : PendingList} (keyed : param.Keyed parent)
    (found : pendingAt? matched segments param = some pending) :
    ∃ front back, segments = front ++ back ∧
      StopsBehind (fun matched segments => pendingAt? matched segments param) param.absoluteKey
        matched front back pending := by
  cases param with
  | mk key value kind absoluteKey compactKey level children =>
      obtain ⟨-, positions, below⟩ := keyed_iff.mp keyed
      cases segments with
      | nil =>
          simp only [pendingAt?] at found
          split at found
          · split at found
            · rename_i isList due
              cases found
              exact ⟨[], [], rfl, stopsBehind_here isList (positions isList) below due⟩
            · simp at found
          · simp at found
      | cons segment rest =>
          simp only [pendingAt?] at found
          split at found
          · split at found
            · rename_i here due
              simp only [Bool.and_eq_true, decide_eq_true_eq] at here
              cases found
              exact ⟨[], segment :: rest, rfl, stopsBehind_here here.1 (positions here.1) below due⟩
            · simp at found
          · rename_i goesOn
            obtain ⟨front, back, rfl, behind⟩ := stopsBehind_of_pendingAmong? below found
            refine ⟨segment :: front, back, rfl, behind.ahead [segment] (fun matched segments => ?_) rfl⟩
            simp only [List.singleton_append, pendingAt?, goesOn, Bool.false_eq_true, if_false]

theorem stopsBehind_of_pendingAmong? {matched : Bool} {name : String} {segments : List String}
    {parent : String} {params : List Param} {pending : PendingList}
    (keyed : KeyedAll parent params)
    (found : pendingAmong? matched name segments params = some pending) :
    ∃ front back, segments = front ++ back ∧
      StopsBehind (fun matched segments => pendingAmong? matched name segments params)
        (Key.join parent name) matched front back pending := by
  cases params with
  | nil => simp [pendingAmong?] at found
  | cons param rest =>
      rw [pendingAmong?] at found
      by_cases named : param.key = name
      · rw [if_pos named] at found
        obtain ⟨front, back, same, behind⟩ := stopsBehind_of_pendingAt? keyed.1 found
        have start := (keyed_iff.mp keyed.1).1
        rw [named] at start
        refine ⟨front, back, same, behind.ahead [] (fun matched segments => ?_) start.symm⟩
        simp only [List.nil_append, pendingAmong?, named, if_true]
      · rw [if_neg named] at found
        obtain ⟨front, back, same, behind⟩ := stopsBehind_of_pendingAmong? keyed.2 found
        refine ⟨front, back, same, behind.ahead [] (fun matched segments => ?_) rfl⟩
        simp only [List.nil_append, pendingAmong?, named, if_false]

end

mutual

theorem length_lt_of_matchesAt {route segments : List String} {param : Param}
    (found : matchesAt route segments param ≠ []) : segments.length < param.depth := by
  cases param with
  | mk key value kind absoluteKey compactKey level children =>
      cases segments with
      | nil => simp [depth]
      | cons segment rest =>
          simp only [matchesAt] at found
          simp only [depth, List.length_cons]
          split at found
          · split at found
            · exact Nat.succ_lt_succ (length_lt_of_matchesNamed found)
            · have bound := length_lt_of_matchesItems found
              simp only [List.length_cons] at bound
              omega
          · exact Nat.succ_lt_succ (length_lt_of_matchesNamed found)

theorem length_lt_of_matchesNamed {route : List String} {name : String} {segments : List String}
    {params : List Param} (found : matchesNamed route name segments params ≠ []) :
    segments.length < depthAll params := by
  cases params with
  | nil => simp [matchesNamed] at found
  | cons param rest =>
      simp only [matchesNamed] at found
      simp only [depthAll]
      split at found
      · have := length_lt_of_matchesAt found
        omega
      · have := length_lt_of_matchesNamed found
        omega

theorem length_lt_of_matchesItems {route segments : List String} {params : List Param}
    (found : matchesItems route segments params ≠ []) : segments.length < depthAll params := by
  cases params with
  | nil => simp [matchesItems] at found
  | cons param rest =>
      simp only [matchesItems, ne_eq, List.append_eq_nil_iff, not_and_or] at found
      simp only [depthAll]
      rcases found with first | others
      · have := length_lt_of_matchesAt first
        omega
      · have := length_lt_of_matchesItems others
        omega

end

end Param

namespace Params

/-- Parameters with keys as they are built from data. -/
def Keyed (params : Params) : Prop :=
  Param.KeyedAll "" params.top

theorem keyed_ofMembers (members : List (String × Json)) : (ofMembers members).Keyed :=
  Param.keyedAll_buildMembers {} members

theorem keyed_ofJson {params : Params} {json : Json} (built : ofJson json = .ok params) :
    params.Keyed := by
  cases json with
  | object members =>
      simp only [ofJson, Except.ok.injEq] at built
      subst built
      exact keyed_ofMembers members
  | _ => simp [ofJson] at built

theorem length_segments_le_depth {params : Params} {key : String}
    (found : params.resolve key ≠ []) : (Key.segments key).length ≤ params.depth := by
  cases split : Key.segments key with
  | nil => simp
  | cons segment rest =>
      simp only [resolve, matching, split, ne_eq, List.map_eq_nil_iff] at found
      exact Param.length_lt_of_matchesNamed found

end Params

structure PendingList.Cut (params : Params) (key : String) (pending : PendingList)
    (first : String) (front back : List String) : Prop where
  segments : Key.segments key = first :: (front ++ back)
  behind : Param.StopsBehind
    (fun matched segments => Param.pendingAmong? matched first segments params.top)
    (Key.join "" first) (!(params.resolve key).isEmpty) front back pending

namespace PendingList

variable {params : Params} {key : String} {pending : PendingList} {first : String}
  {front back : List String}

theorem exists_cut (keyed : params.Keyed) (found : params.pendingList? key = some pending) :
    ∃ first front back, pending.Cut params key first front back := by
  cases split : Key.segments key with
  | nil => exact absurd split (Key.segments_ne_nil key)
  | cons first rest =>
      simp only [Params.pendingList?, split] at found
      obtain ⟨front, back, same, behind⟩ := Param.stopsBehind_of_pendingAmong? keyed found
      exact ⟨first, front, back, by rw [split, same], behind⟩

def left (back : List String) : List String :=
  if Key.ofSegments back = "" then [] else back

theorem Cut.absoluteKey (cut : pending.Cut params key first front back) (some : first ≠ "") :
    pending.list.absoluteKey = Key.ofSegments (first :: front) := by
  have joined := Key.foldl_join some [] front
  rw [Key.ofSegments_singleton] at joined
  rw [cut.behind.absoluteKey, show Key.join "" first = first from rfl, joined]
  rfl

theorem Cut.join_item (cut : pending.Cut params key first front back) (some : first ≠ "")
    (item : String) :
    Key.join pending.list.absoluteKey item = Key.ofSegments (first :: (front ++ [item])) := by
  have joined := Key.foldl_join some front [item]
  simpa [cut.absoluteKey some] using joined

theorem Cut.indexed (cut : pending.Cut params key first front back) (some : first ≠ "")
    (item : String) :
    pending.indexed item = Key.ofSegments (first :: (front ++ item :: left back)) := by
  rw [PendingList.indexed, cut.join_item some, cut.behind.rest, left]
  by_cases empty : Key.ofSegments back = ""
  · simp [empty]
  · have more : back ≠ [] := by
      rintro rfl
      exact empty rfl
    simp only [String.isEmpty_iff, empty, if_false]
    rw [Key.join_of_ne_empty (Key.ofSegments_ne_empty some _), Key.ofSegments_cons (by simp),
      Key.ofSegments_singleton, ← Key.ofSegments_append (by simp) more]
    simp

theorem isSegment_of_isPosition {segment : String} (position : Key.isPosition segment = true) :
    Key.IsSegment segment := by
  simp only [Key.isPosition, Bool.and_eq_true, List.all_eq_true] at position
  intro member
  exact absurd (position.2 _ member) (by decide)

theorem mem_of_mem_left {back : List String} {segment : String} (member : segment ∈ left back) :
    segment ∈ back := by
  rw [left] at member
  split at member
  · simp at member
  · exact member

theorem Cut.isSegment (cut : pending.Cut params key first front back) :
    ∀ segment ∈ first :: (front ++ back), Key.IsSegment segment := by
  intro segment listed
  exact Key.isSegment_of_mem_segments (show segment ∈ Key.segments key by rwa [cut.segments])

theorem Cut.segments_indexed (cut : pending.Cut params key first front back) (some : first ≠ "")
    {item : String} (position : Key.isPosition item = true) :
    Key.segments (pending.indexed item) = first :: (front ++ item :: left back) := by
  rw [cut.indexed some, Key.segments_ofSegments (by simp)]
  intro segment member
  have old := cut.isSegment
  simp only [List.mem_cons, List.mem_append] at member old
  rcases member with here | before | here | after
  · exact old segment (.inl here)
  · exact old segment (.inr (.inl before))
  · exact here ▸ isSegment_of_isPosition position
  · exact old segment (.inr (.inr (mem_of_mem_left after)))

theorem countP_left (back : List String) (plain : ∀ segment ∈ back, Key.IsSegment segment) :
    (left back).countP (fun segment => !segment.isEmpty) =
      back.countP fun segment => !segment.isEmpty := by
  rw [left]
  split
  · rename_i empty
    cases back with
    | nil => rfl
    | cons segment rest =>
        have split : Key.segments (Key.ofSegments (segment :: rest)) = segment :: rest :=
          Key.segments_ofSegments (by simp) plain
        rw [empty, show Key.segments "" = [""] by decide] at split
        rw [← split]
        decide
  · rfl

theorem Cut.weight_indexed (cut : pending.Cut params key first front back) (some : first ≠ "")
    {item : String} (position : Key.isPosition item = true) :
    Key.weight (pending.indexed item) = Key.weight key + 1 := by
  have plain : ∀ segment ∈ back, Key.IsSegment segment := by
    intro segment listed
    exact Key.isSegment_of_mem_segments (show segment ∈ Key.segments key by
      rw [cut.segments]
      simp [listed])
  have filled : (!item.isEmpty) = true := by
    simp only [Key.isPosition, Bool.and_eq_true] at position
    exact position.1
  rw [Key.weight, Key.weight, cut.segments_indexed some position, cut.segments]
  simp only [List.countP_cons, List.countP_append, countP_left back plain, filled, if_true]
  omega

theorem weight_le_depth (keyed : params.Keyed) (found : params.pendingList? key = some pending)
    (items : pending.list.children ≠ []) : Key.weight key ≤ params.depth := by
  obtain ⟨first, front, back, cut⟩ := exists_cut keyed found
  have due := cut.behind.due
  have empty : pending.list.children.isEmpty = false := by simpa using items
  rw [empty, Bool.false_or] at due
  have matched : params.resolve key ≠ [] := by simpa using due
  exact Nat.le_trans (Key.weight_le_length key) (Params.length_segments_le_depth matched)

/-- A key stays pending at an empty list, whatever item is put into it. -/
theorem pendingList?_indexed_of_empty (keyed : params.Keyed)
    (found : params.pendingList? key = some pending) (empty : pending.list.children = [])
    (start : (Key.segments key).head? ≠ some "") {item : String}
    (position : Key.isPosition item = true) :
    ∃ rest, params.pendingList? (pending.indexed item) = some ⟨pending.list, rest⟩ := by
  obtain ⟨first, front, back, cut⟩ := exists_cut keyed found
  have filled : first ≠ "" := by
    rw [cut.segments] at start
    simpa using start
  have again := cut.behind.again (!(params.resolve (pending.indexed item)).isEmpty)
    (item :: left back) (by simp [empty])
  refine ⟨Key.ofSegments (item :: left back), ?_⟩
  rw [Params.pendingList?, cut.segments_indexed filled position]
  simpa [empty] using again

theorem weight_indexed (keyed : params.Keyed) (found : params.pendingList? key = some pending)
    (start : (Key.segments key).head? ≠ some "") {item : String}
    (position : Key.isPosition item = true) :
    Key.weight (pending.indexed item) = Key.weight key + 1 := by
  obtain ⟨first, front, back, cut⟩ := exists_cut keyed found
  have filled : first ≠ "" := by
    rw [cut.segments] at start
    simpa using start
  exact cut.weight_indexed filled position

/-- A key inside of an item of a pending list stays inside of the item when it takes in another item. -/
theorem indexed_inside (keyed : params.Keyed) (found : params.pendingList? key = some pending)
    (start : (Key.segments key).head? ≠ some "") {item : Param}
    (member : item ∈ pending.list.children) {rest : String} {later : PendingList}
    (again : params.pendingList? (Key.join pending.list.absoluteKey item.key ++ "." ++ rest) =
      some later) (position : String) :
    ∃ more, later.indexed position =
      Key.join pending.list.absoluteKey item.key ++ "." ++ more := by
  obtain ⟨first, front, back, cut⟩ := exists_cut keyed found
  have filled : first ≠ "" := by
    rw [cut.segments] at start
    simpa using start
  have outer : Key.segments (Key.join pending.list.absoluteKey item.key) =
      first :: (front ++ [item.key]) := by
    rw [cut.join_item filled, Key.segments_ofSegments (by simp)]
    intro segment listed
    simp only [List.mem_cons, List.mem_append, List.not_mem_nil, or_false] at listed
    rcases listed with here | before | last
    · exact here ▸ cut.isSegment first (by simp)
    · exact cut.isSegment segment (by simp [before])
    · exact last ▸ isSegment_of_isPosition (cut.behind.positions item member)
  have split : Key.segments (Key.join pending.list.absoluteKey item.key ++ "." ++ rest) =
      first :: (front ++ item.key :: Key.segments rest) := by
    rw [Key.segments_append, outer]
    simp
  rw [Params.pendingList?, split] at again
  simp only at again
  rw [cut.behind.enters _ _ item member] at again
  obtain ⟨passed, left, -, behind⟩ := Param.stopsBehind_of_pendingAmong? cut.behind.below again
  generalize base : Key.join pending.list.absoluteKey item.key = start at behind ⊢
  have some : start ≠ "" := by
    rw [← base, cut.join_item filled]
    exact Key.ofSegments_ne_empty filled _
  have list : later.list.absoluteKey = Key.ofSegments (start :: passed) := by
    rw [behind.absoluteKey]
    simpa using Key.foldl_join some [] passed
  have joined : Key.join later.list.absoluteKey position =
      start ++ "." ++ Key.ofSegments (passed ++ [position]) := by
    have next := Key.foldl_join some passed [position]
    rw [list, ← Key.ofSegments_cons (by simp)]
    simpa using next
  rw [PendingList.indexed, joined]
  by_cases empty : later.rest = ""
  · exact ⟨Key.ofSegments (passed ++ [position]), by simp [empty]⟩
  · have more : start ++ "." ++ Key.ofSegments (passed ++ [position]) ≠ "" := by simp
    refine ⟨Key.ofSegments (passed ++ [position]) ++ "." ++ later.rest, ?_⟩
    rw [if_neg (by simpa using empty), Key.join_of_ne_empty more, Key.ofSegments_cons (by simp),
      Key.ofSegments_singleton]
    simp [String.append_assoc]

theorem isList_of_pendingList? (keyed : params.Keyed)
    (found : params.pendingList? key = some pending) : pending.list.kind = .list := by
  obtain ⟨first, front, back, cut⟩ := exists_cut keyed found
  exact cut.behind.isList

theorem isPosition_of_pendingList? (keyed : params.Keyed)
    (found : params.pendingList? key = some pending) :
    ∀ item ∈ pending.list.children, Key.isPosition item.key = true := by
  obtain ⟨first, front, back, cut⟩ := exists_cut keyed found
  exact cut.behind.positions

end PendingList

end WordTemplate
