import WordTemplate.Proofs.Params.Trails

/-! Pending lists and what a key matches. A key goes down to the list that it is pending at; behind the
list it matches, item by item, what the keys of the items match. A key that is pending nowhere matches at
most the one parameter that it is the absolute key of. -/

namespace WordTemplate

namespace Param

variable {matched : Bool} {segments : List String} {name : String} {params : List Param} {param : Param}

theorem pendingAmong?_eq_find? :
    pendingAmong? matched name segments params =
      (params.find? fun param => param.key = name).bind (pendingAt? matched segments) := by
  induction params with
  | nil => rfl
  | cons first rest ih =>
      rw [pendingAmong?, List.find?_cons]
      by_cases named : first.key = name
      · simp [named]
      · simpa [named] using ih

/-- What makes a key pending at a list: what is left of the key names no item of the list, and the list has
no items, or the key matches something. -/
structure Stops (matched : Bool) (back : List String) (pending : PendingList) : Prop where
  isList : pending.list.kind = .list
  rest : pending.rest = Key.ofSegments back
  unnamed : ∀ segment ∈ back.head?,
    (pending.list.children.any fun item => item.key = segment) = false
  due : (pending.list.children.isEmpty || matched) = true

theorem pendingAt?_nil (param : Param) :
    pendingAt? matched [] param =
      if param.kind = .list then
        if param.children.isEmpty || matched then some ⟨param, Key.ofSegments []⟩ else none
      else none := by
  cases param
  rw [pendingAt?]

theorem exists_trail_of_pendingAmong? {pending : PendingList}
    (found : pendingAmong? matched name segments params = some pending) :
    ∃ trail back, name :: segments = trail.map key ++ back ∧ Trail params trail pending.list ∧
      Stops matched back pending := by
  induction segments generalizing name params with
  | nil =>
      rw [pendingAmong?_eq_find?, Option.bind_eq_some_iff] at found
      obtain ⟨param, first, stops⟩ := found
      obtain rfl : param.key = name := by simpa using List.find?_some first
      rw [pendingAt?_nil] at stops
      split_ifs at stops with isList due
      cases stops
      exact ⟨[param], [], rfl, .last first, isList, rfl, by simp, due⟩
  | cons segment rest ih =>
      rw [pendingAmong?_eq_find?, Option.bind_eq_some_iff] at found
      obtain ⟨param, first, stops⟩ := found
      obtain rfl : param.key = name := by simpa using List.find?_some first
      have further (below : pendingAmong? matched segment rest param.children = some pending) :
          ∃ trail back, param.key :: segment :: rest = trail.map key ++ back ∧
            Trail params trail pending.list ∧ Stops matched back pending := by
        obtain ⟨trail, back, spelled, goes, stops⟩ := ih below
        exact ⟨param :: trail, back, by rw [spelled]; rfl, .step first goes, stops⟩
      by_cases isList : param.kind = .list
      · rw [pendingAt?_of_list isList] at stops
        split_ifs at stops with named due
        · exact further stops
        · cases stops
          refine ⟨[param], segment :: rest, rfl, .last first, isList, rfl, ?_, due⟩
          simpa using named
      · rw [pendingAt?_of_not_list isList] at stops
        exact further stops

/-- A key that matches something and is pending nowhere leads to one parameter that is no list. -/
theorem exists_trail_of_not_pending
    (quiet : pendingAmong? true name segments params = none) :
    (∀ route, matchesNamed route name segments params = []) ∨
      ∃ trail found, name :: segments = trail.map key ∧ Trail params trail found ∧
        found.kind ≠ .list := by
  induction segments generalizing name params with
  | nil =>
      rw [pendingAmong?_eq_find?] at quiet
      cases first : params.find? fun param => param.key = name with
      | none => exact .inl fun route => by rw [matchesNamed_eq_find?, first]
      | some param =>
          obtain rfl : param.key = name := by simpa using List.find?_some first
          rw [first, Option.bind_some, pendingAt?_nil] at quiet
          refine .inr ⟨[param], param, rfl, .last first, fun isList => ?_⟩
          simp [isList] at quiet
  | cons segment rest ih =>
      rw [pendingAmong?_eq_find?] at quiet
      cases first : params.find? fun param => param.key = name with
      | none => exact .inl fun route => by rw [matchesNamed_eq_find?, first]
      | some param =>
          obtain rfl : param.key = name := by simpa using List.find?_some first
          rw [first, Option.bind_some] at quiet
          -- Where the key goes on below the parameter, what it comes to there it comes to here.
          have further (below : pendingAmong? true segment rest param.children = none)
              (goesOn : ∀ route, ∃ passed, matchesAt route (segment :: rest) param =
                matchesNamed passed segment rest param.children) :
              (∀ route, matchesNamed route param.key (segment :: rest) params = []) ∨
                ∃ trail found, param.key :: segment :: rest = trail.map key ∧
                  Trail params trail found ∧ found.kind ≠ .list := by
            rcases ih below with none | ⟨trail, found, spelled, goes, other⟩
            · refine .inl fun route => ?_
              obtain ⟨passed, same⟩ := goesOn route
              rw [matchesNamed_eq_find?, first]
              exact same.trans (none passed)
            · exact .inr ⟨param :: trail, found, by rw [spelled]; rfl, .step first goes, other⟩
          by_cases isList : param.kind = .list
          · rw [pendingAt?_of_list isList] at quiet
            split_ifs at quiet with named due
            · exact further quiet fun route => ⟨_, matchesAt_of_item isList named⟩
            · simp at due
          · rw [pendingAt?_of_not_list isList] at quiet
            exact further quiet fun route => ⟨_, matchesAt_of_not_list isList⟩

theorem key_buildItems (place : Place) (position : Nat) (items : List Json) :
    (buildItems place position items).map key =
      (items.findIdxs (fun item => item.kind != .null) position).map toString := by
  induction items generalizing position with
  | nil => rfl
  | cons item rest ih =>
      have present : (build place (toString position) item).isSome = (item.kind != .null) := isSome_build
      rw [buildItems, List.map_append, ih, List.findIdxs_cons, ← present]
      cases built : build place (toString position) item with
      | none => rfl
      | some param =>
          rw [Option.toList_some, List.map_singleton, key_build_of_isName (isName_toString _) built]
          rfl

theorem nodup_key_buildItems (place : Place) (position : Nat) (items : List Json) :
    ((buildItems place position items).map key).Nodup := by
  rw [key_buildItems]
  exact List.pairwise_map.mpr (List.nodup_findIdxs.imp fun other => mt toString_inj.mp other)

mutual

theorem exists_items_build {place : Place} {name : String} {json : Json} {param found : Param}
    (built : build place name json = some param) (member : found ∈ param.withAll)
    (isList : found.kind = .list) : ∃ inner items, found.children = buildItems inner 1 items := by
  rw [withAll_eq, List.mem_cons] at member
  cases json with
  | null => simp [build] at built
  | array items =>
      cases built
      rcases member with rfl | below
      · exact ⟨_, items, rfl⟩
      · exact exists_items_buildItems below isList
  | object members =>
      rw [build] at built
      split at built
      · cases built
        rcases member with rfl | below
        · exact ⟨{}, [], rfl⟩
        · simp [make, withAllOf] at below
      · cases built
        rcases member with rfl | below
        · simp [make] at isList
        · exact exists_items_buildMembers below isList
  | _ =>
      cases built
      rcases member with rfl | below
      · exact ⟨{}, [], rfl⟩
      · simp [make, withAllOf] at below

theorem exists_items_buildItems {place : Place} {position : Nat} {items : List Json} {found : Param}
    (member : found ∈ withAllOf (buildItems place position items)) (isList : found.kind = .list) :
    ∃ inner items, found.children = buildItems inner 1 items := by
  cases items with
  | nil => simp [buildItems, withAllOf] at member
  | cons item rest =>
      rcases mem_withAllOf_buildItems member with ⟨param, built, inside⟩ | later
      · exact exists_items_build built inside isList
      · exact exists_items_buildItems later isList

theorem exists_items_buildMembers {place : Place} {members : List (String × Json)} {found : Param}
    (member : found ∈ withAllOf (buildMembers place members)) (isList : found.kind = .list) :
    ∃ inner items, found.children = buildItems inner 1 items := by
  match members with
  | [] => simp [buildMembers, withAllOf] at member
  | (name, value) :: rest =>
      rcases mem_withAllOf_buildMembers member with ⟨param, built, inside⟩ | later
      · exact exists_items_build built inside isList
      · exact exists_items_buildMembers later isList

end

theorem find?_key_of_mem (nodup : (params.map key).Nodup) (member : param ∈ params) :
    params.find? (fun other => other.key = param.key) = some param := by
  induction params with
  | nil => simp at member
  | cons first rest ih =>
      obtain ⟨other, later⟩ := List.nodup_cons.mp nodup
      rcases List.mem_cons.mp member with rfl | behind
      · simp
      · have apart : first.key ≠ param.key := fun same => other (same ▸ List.mem_map_of_mem behind)
        rw [List.find?_cons_of_neg (by simpa using apart)]
        exact ih later behind

end Param

namespace PendingList

variable {params : Params} {key : String} {pending : PendingList}

/-- A key without empty segments that is pending, cut into the names that lead to its list and what is left
behind them. -/
structure Reached (params : Params) (key : String) (pending : PendingList) (trail : List Param)
    (back : List String) : Prop where
  cut : Key.segments key = trail.map Param.key ++ back
  goes : Param.Trail params.top trail pending.list
  stops : Param.Stops (!(params.resolve key).isEmpty) back pending

theorem exists_reached (found : params.pendingList? key = some pending) :
    ∃ trail back, Reached params key pending trail back := by
  cases split : Key.segments key with
  | nil => exact absurd split (Key.segments_ne_nil key)
  | cons first rest =>
      simp only [Params.pendingList?, split] at found
      obtain ⟨trail, back, cut, goes, stops⟩ := Param.exists_trail_of_pendingAmong? found
      exact ⟨trail, back, split.trans cut, goes, stops⟩

namespace Reached

variable {trail : List Param} {back : List String} (reached : Reached params key pending trail back)
  (keyed : params.Keyed) (filled : ∀ segment ∈ Key.segments key, segment ≠ "")
include reached filled

theorem areSegments : Key.AreSegments (trail.map Param.key) ∧ Key.AreSegments back := by
  refine List.forall_mem_append.mp fun segment member => ?_
  rw [← reached.cut] at member
  exact ⟨filled segment member, Key.isSegment_of_mem_segments member⟩

theorem rest_eq_empty_iff : pending.rest = "" ↔ back = [] := by
  rw [reached.stops.rest]
  refine ⟨fun empty => ?_, fun none => by rw [none]; rfl⟩
  by_contra some
  exact (reached.areSegments filled).2.ofSegments_ne_empty some empty

include keyed

theorem absoluteKey : pending.list.absoluteKey = Key.ofSegments (trail.map Param.key) := by
  obtain ⟨first, others, rfl⟩ := List.exists_cons_of_ne_nil reached.goes.ne_nil
  have names := (reached.areSegments filled).1
  have joined := Key.foldl_join (names first.key (by simp)).1 [] (others.map Param.key)
  rw [Key.ofSegments_singleton] at joined
  rw [reached.goes.absoluteKey keyed, List.map_cons, List.foldl_cons]
  exact joined

theorem segments_indexed {item : String} (position : Key.isPosition item = true) :
    Key.segments (pending.indexed item) = trail.map Param.key ++ item :: back := by
  obtain ⟨names, left⟩ := reached.areSegments filled
  have isName : item ≠ "" := by
    rintro rfl
    exact absurd position (by decide)
  have here : Key.AreSegments (trail.map Param.key ++ [item]) :=
    names.concat isName (isSegment_of_isPosition position)
  rw [indexed, reached.absoluteKey keyed filled, names.join]
  by_cases none : back = []
  · rw [if_pos (by simpa using (reached.rest_eq_empty_iff filled).mpr none), none]
    exact here.segments (by simp)
  · have some : pending.rest ≠ "" := mt (reached.rest_eq_empty_iff filled).mp none
    rw [if_neg (by simpa using some), Key.join_of_ne_empty (here.ofSegments_ne_empty (by simp)),
      reached.stops.rest, Key.ofSegments_cons (by simp), Key.ofSegments_singleton, Key.segments_append,
      here.segments (by simp), left.segments none]
    simp

end Reached

end PendingList

namespace Params

def Itemized (params : Params) : Prop :=
  ∀ list ∈ params.all, list.kind = .list → (list.children.map Param.key).Nodup

theorem itemized_ofMembers (members : List (String × Json)) : (ofMembers members).Itemized := by
  intro list listed isList
  obtain ⟨place, items, held⟩ := Param.exists_items_buildMembers listed isList
  exact held ▸ Param.nodup_key_buildItems place 1 items

theorem itemized_ofJson {params : Params} {json : Json} (built : ofJson json = .ok params) :
    params.Itemized := by
  cases json with
  | object members =>
      obtain rfl := Except.ok.inj built
      exact itemized_ofMembers members
  | _ => simp [ofJson] at built

variable {params : Params} {key : String} {pending : PendingList}

theorem foldl_join_segments (filled : ∀ segment ∈ Key.segments key, segment ≠ "") :
    (Key.segments key).foldl Key.join "" = key := by
  obtain ⟨first, rest, split⟩ := List.exists_cons_of_ne_nil (Key.segments_ne_nil key)
  have joined := Key.foldl_join (filled first (by simp [split])) [] rest
  rw [List.nil_append, ← split, Key.ofSegments_segments, Key.ofSegments_singleton] at joined
  rw [split, List.foldl_cons]
  exact joined

/-- A key leads through its list as the keys of the items lead through the items. -/
theorem exists_matches_of_reached (keyed : params.Keyed) (itemized : params.Itemized)
    (found : params.pendingList? key = some pending) {trail : List Param} {back : List String}
    (reached : pending.Reached params key trail back) (filled : ∀ segment ∈ Key.segments key, segment ≠ "") :
    ∃ passed, params.matching key = Param.matchesAt passed back pending.list ∧
      ∀ item ∈ pending.list.children, params.matching (pending.indexed item.key) =
        Param.matchesAt (passed ++ [item.key]) back item := by
  obtain ⟨passed, leads⟩ := matching_of_trail reached.goes
  refine ⟨passed, leads key back reached.cut, fun item member => ?_⟩
  have isList := reached.stops.isList
  have position := PendingList.isPosition_of_pendingList? keyed found item member
  have named : (pending.list.children.any fun other => other.key = item.key) = true :=
    List.any_eq_true.mpr ⟨item, member, by simp⟩
  have nodup := itemized pending.list reached.goes.mem_withAllOf isList
  rw [leads _ _ (reached.segments_indexed keyed filled position),
    Param.matchesAt_of_item isList named, Param.matchesNamed_eq_find?,
    Param.find?_key_of_mem nodup member]

/-- Behind a list that a key is pending at, the key matches what the keys of the items match, in their
order; a key that is pending at nothing is the absolute key of all that it matches. -/
theorem resolve_pendingList? {json : Json} (read : ofJson json = .ok params)
    (filled : ∀ segment ∈ Key.segments key, segment ≠ "") :
    (∀ pending, params.pendingList? key = some pending →
      pending.list.isList = true ∧
      (pending.rest ≠ "" → params.resolve key =
        pending.list.children.flatMap fun item => params.resolve (pending.indexed item.key)) ∧
      (pending.rest = "" →
        (pending.list.children.flatMap fun item => params.resolve (pending.indexed item.key)) =
          pending.list.children)) ∧
    (params.pendingList? key = none →
      params.resolve key = [] ∨
        ∃ param, params.resolve key = [param] ∧ param.isList = false ∧ param.absoluteKey = key) := by
  have keyed := keyed_ofJson read
  constructor
  · intro pending found
    obtain ⟨trail, back, reached⟩ := PendingList.exists_reached found
    obtain ⟨passed, whole, items⟩ :=
      exists_matches_of_reached keyed (itemized_ofJson read) found reached filled
    have each : (pending.list.children.flatMap fun item => params.resolve (pending.indexed item.key)) =
        pending.list.children.flatMap fun item =>
          (Param.matchesAt (passed ++ [item.key]) back item).map (·.param) :=
      List.flatMap_congr fun item member => by rw [resolve, items item member]
    refine ⟨by simpa [Param.isList] using reached.stops.isList, fun more => ?_, fun none => ?_⟩
    · obtain ⟨segment, rest, rfl⟩ := List.exists_cons_of_ne_nil
        (mt (reached.rest_eq_empty_iff filled).mpr more)
      rw [each, resolve, whole, Param.matchesAt_of_no_item reached.stops.isList
        (reached.stops.unnamed segment rfl), Param.matchesItems_eq_flatMap, List.map_flatMap]
    · obtain rfl := (reached.rest_eq_empty_iff filled).mp none
      simp [each, Param.matchesAt_nil]
  · intro quiet
    by_cases none : params.resolve key = []
    · exact .inl none
    · have some : (!(params.resolve key).isEmpty) = true := by simpa using none
      obtain ⟨first, rest, split⟩ := List.exists_cons_of_ne_nil (Key.segments_ne_nil key)
      rw [pendingList?, split, some] at quiet
      rcases Param.exists_trail_of_not_pending quiet with lost | ⟨trail, found, spelled, goes, other⟩
      · rw [resolve, matching, split] at none
        exact absurd (congrArg (List.map Match.param) (lost [])) none
      · have cut : Key.segments key = trail.map Param.key := split.trans spelled
        refine .inr ⟨found, resolve_of_trail goes cut, by simpa [Param.isList] using other, ?_⟩
        rw [goes.absoluteKey keyed, ← cut, foldl_join_segments filled]

/-- Teams whose first place is empty, with lists in them, and a number as the name of a member. -/
def teamMembers : List (String × Json) :=
  [("Teams", .array [.null,
    .object [("1", .string "one"), ("Names", .array [.string "Ada", .string "Bo"])],
    .object [("1", .string "two"), ("Names", .array [.string "Cy"])]])]

/-- The first place of the list is empty, so that the number behind its name leads on in every team. -/
theorem resolve_pendingList?_teams :
    let params := ofMembers teamMembers
    (ofJson (.object teamMembers) = .ok params ∧ ∀ segment ∈ Key.segments "Teams.1", segment ≠ "") ∧
      ∃ pending, params.pendingList? "Teams.1" = some pending ∧ pending.rest = "1" ∧
        pending.list.children.map Param.key = ["2", "3"] ∧
        params.resolve "Teams.1" =
          (pending.list.children.flatMap fun item => params.resolve (pending.indexed item.key)) ∧
        (params.resolve "Teams.1").map (·.value) = ["one", "two"] := by
  have filled : ∀ segment ∈ Key.segments "Teams.1", segment ≠ "" := by decide
  have shown : ((ofMembers teamMembers).pendingList? "Teams.1").map
      (fun pending => (pending.rest, pending.list.children.map Param.key)) = some ("1", ["2", "3"]) := by
    decide +kernel
  obtain ⟨pending, found, same⟩ := Option.map_eq_some_iff.mp shown
  obtain ⟨rest, items⟩ := Prod.mk.inj same
  have more : pending.rest ≠ "" := by
    rw [rest]
    decide
  have read : ofJson (.object teamMembers) = .ok (ofMembers teamMembers) := rfl
  have all := resolve_pendingList? read filled
  exact ⟨⟨read, filled⟩, pending, found, rest, items, (all.1 pending found).2.1 more,
    by decide +kernel⟩

end Params

end WordTemplate
