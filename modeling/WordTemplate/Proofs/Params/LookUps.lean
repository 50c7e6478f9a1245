import WordTemplate.Proofs.Params.Trails

/-! The look-up by absolute key beside the look-up by segments. The first one follows the absolute keys that
a key starts with, the second one the names that its segments spell. The two agree on the way to a parameter
if and only if the names on the way are the segments of the key; a dot inside of a name, or an empty name
above others, leads them apart. -/

namespace WordTemplate

namespace Key

theorem length_segments_join_le (parent : String) {segment : String} (plain : IsSegment segment) :
    (segments (join parent segment)).length ≤ (segments parent).length + 1 := by
  by_cases empty : parent = ""
  · rw [empty, show join "" segment = segment from rfl, segments_of_isSegment plain]
    exact Nat.le_add_left ..
  · rw [join_of_ne_empty empty, ofSegments_cons (by simp), ofSegments_singleton, segments_append,
      segments_of_isSegment plain, List.length_append]
    exact Nat.le_refl _

theorem length_segments_foldl_join_le (parent : String) {names : List String}
    (plain : ∀ name ∈ names, IsSegment name) :
    (segments (names.foldl join parent)).length ≤ (segments parent).length + names.length := by
  induction names generalizing parent with
  | nil => exact Nat.le_refl _
  | cons name rest ih =>
      have later := ih (join parent name) fun other member => plain other (by simp [member])
      have here := length_segments_join_le parent (plain name (by simp))
      rw [List.foldl_cons, List.length_cons]
      omega

/-- Names are the segments of the key that they spell if none of them holds a separator and an empty one
stands alone or behind another. -/
theorem segments_foldl_join_iff {first : String} {rest : List String} :
    segments ((first :: rest).foldl join "") = first :: rest ↔
      (∀ name ∈ first :: rest, IsSegment name) ∧ (first = "" → rest = []) := by
  constructor
  · intro spelled
    have plain : ∀ name ∈ first :: rest, IsSegment name := fun name member =>
      isSegment_of_mem_segments (spelled ▸ member)
    refine ⟨plain, fun empty => ?_⟩
    subst empty
    cases rest with
    | nil => rfl
    | cons next others =>
        have bound : (segments (others.foldl join next)).length ≤
            (segments next).length + others.length :=
          length_segments_foldl_join_le next fun name member => plain name (by simp [member])
        rw [segments_of_isSegment (plain next (by simp))] at bound
        have exact := congrArg List.length spelled
        simp only [List.foldl_cons, List.length_cons, List.length_nil] at exact bound
        rw [show join (join "" "") next = next from rfl] at exact
        omega
  · rintro ⟨plain, alone⟩
    rw [List.foldl_cons, show join "" first = first from rfl]
    by_cases empty : first = ""
    · rw [alone empty]
      exact segments_of_isSegment (plain first (by simp))
    · have joined := foldl_join empty [] rest
      rw [ofSegments_singleton, List.nil_append] at joined
      rw [joined, segments_ofSegments (by simp) plain]

end Key

namespace Param

mutual

def trailAt (key : String) : Param → List Param
  | ⟨name, value, kind, absoluteKey, compactKey, level, children⟩ =>
    ⟨name, value, kind, absoluteKey, compactKey, level, children⟩ ::
      if absoluteKey = key then [] else trailAmong key children

def trailAmong (key : String) : List Param → List Param
  | [] => []
  | param :: rest =>
    if Key.hasAncestor key param.absoluteKey then trailAt key param else trailAmong key rest

end

theorem trailAt_eq (key : String) (param : Param) :
    trailAt key param =
      param :: if param.absoluteKey = key then [] else trailAmong key param.children := by
  cases param
  rw [trailAt]

variable {key : String}

theorem head?_trailAmong (key : String) (params : List Param) :
    (trailAmong key params).head? = params.find? fun param => Key.hasAncestor key param.absoluteKey := by
  induction params with
  | nil => rfl
  | cons first rest ih =>
      rw [trailAmong, List.find?_cons]
      cases Key.hasAncestor key first.absoluteKey with
      | true => rw [if_pos rfl, trailAt_eq]; rfl
      | false => exact ih

/-- A trail also goes down from a level with another parameter in front, if it is of another name. -/
theorem Trail.behind {params trail : List Param} {found other : Param} (goes : Trail params trail found)
    (apart : ∀ first ∈ trail.head?, other.key ≠ first.key) : Trail (other :: params) trail found := by
  cases goes with
  | last first =>
      refine .last ?_
      rw [List.find?_cons_of_neg (by simpa using apart found rfl)]
      exact first
  | @step _ trail param _ first further =>
      refine .step ?_ further
      rw [List.find?_cons_of_neg (by simpa using apart param rfl)]
      exact first

mutual

theorem trail_of_getAt? {parent : String} {params : List Param} {param found : Param}
    (keyed : param.Keyed parent)
    (first : params.find? (fun other => other.key = param.key) = some param)
    (looked : getAt? key param = some found) : Trail params (trailAt key param) found := by
  cases param with
  | mk name value kind absoluteKey compactKey level children =>
      rw [getAt?] at looked
      rw [trailAt]
      split at looked
      · rename_i here
        cases looked
        rw [if_pos here]
        exact .last first
      · rename_i other
        rw [if_neg other]
        exact .step first (trail_of_getAmong? (keyed_iff.mp keyed).2.2 looked)

/-- The look-up by absolute key goes down by the first parameter of each name: an earlier one of the same
name has the same absolute key, and would have been followed. -/
theorem trail_of_getAmong? {parent : String} {params : List Param} {found : Param}
    (keyed : KeyedAll parent params) (looked : getAmong? key params = some found) :
    Trail params (trailAmong key params) found := by
  cases params with
  | nil => simp [getAmong?] at looked
  | cons param rest =>
      rw [getAmong?] at looked
      rw [trailAmong]
      split at looked
      · rename_i leads
        rw [if_pos leads]
        exact trail_of_getAt? keyed.1 (by simp) looked
      · rename_i aside
        rw [if_neg aside]
        refine (trail_of_getAmong? keyed.2 looked).behind fun other started same => aside ?_
        rw [head?_trailAmong, Option.mem_def] at started
        have address := (keyed_iff.mp (keyed.2.of_mem other (List.mem_of_find?_eq_some started))).1
        have leads := List.find?_some started
        rw [(keyed_iff.mp keyed.1).1, same, ← address]
        exact leads

end

mutual

theorem key_mem_of_matchesAt {route rest : List String} {segment : String} {param : Param} {found : Match}
    (listed : found ∈ matchesAt route (segment :: rest) param) : found.param.key ∈ segment :: rest := by
  cases param with
  | mk name value kind absoluteKey compactKey level children =>
      rw [matchesAt] at listed
      split at listed
      · split at listed
        · exact key_mem_of_matchesNamed listed
        · exact key_mem_of_matchesItems listed
      · exact key_mem_of_matchesNamed listed

theorem key_mem_of_matchesNamed {route segments : List String} {name : String} {params : List Param}
    {found : Match} (listed : found ∈ matchesNamed route name segments params) :
    found.param.key ∈ name :: segments := by
  cases params with
  | nil => simp [matchesNamed] at listed
  | cons param rest =>
      rw [matchesNamed] at listed
      split at listed
      · rename_i named
        cases segments with
        | nil =>
            rw [matchesAt_nil, List.mem_singleton] at listed
            simp [listed, named]
        | cons segment others => exact List.mem_cons_of_mem _ (key_mem_of_matchesAt listed)
      · exact key_mem_of_matchesNamed listed

theorem key_mem_of_matchesItems {route rest : List String} {segment : String} {params : List Param}
    {found : Match} (listed : found ∈ matchesItems route (segment :: rest) params) :
    found.param.key ∈ segment :: rest := by
  cases params with
  | nil => simp [matchesItems] at listed
  | cons param others =>
      rw [matchesItems, List.mem_append] at listed
      rcases listed with here | later
      · exact key_mem_of_matchesAt here
      · exact key_mem_of_matchesItems later

end

theorem level_build {place : Place} {name : String} {json : Json} {param : Param}
    (built : build place name json = some param) : param.level = place.level + 1 := by
  cases json with
  | null => simp [build] at built
  | object members =>
      rw [build] at built
      split at built <;> (cases built; rfl)
  | _ =>
      cases built
      rfl

theorem level_of_child {place : Place} {name : String} {json : Json} {param child : Param}
    (built : build place name json = some param) (member : child ∈ param.children) :
    child.level = param.level + 1 := by
  cases json with
  | null => simp [build] at built
  | array items =>
      cases built
      obtain ⟨index, value, -, inner⟩ := mem_buildItems.mp member
      exact level_build inner
  | object members =>
      rw [build] at built
      split at built
      · cases built
        simp [make] at member
      · cases built
        obtain ⟨inner, value, -, below⟩ := mem_buildMembers.mp member
        exact level_build below
  | _ =>
      cases built
      simp [make] at member

end Param

namespace Params

variable {params : Params} {json : Json} {key : String} {param : Param}

/-- The parameters that the look-up of an absolute key passes, down to the one that it finds. -/
def trail (params : Params) (key : String) : List Param :=
  Param.trailAmong key params.top

theorem trail_of_get? (keyed : params.Keyed) (found : params.get? key = some param) :
    Param.Trail params.top (params.trail key) param :=
  Param.trail_of_getAmong? keyed found

theorem key_mem_of_resolve (listed : param ∈ params.resolve key) : param.key ∈ Key.segments key := by
  obtain ⟨found, inside, rfl⟩ := List.mem_map.mp listed
  rw [matching] at inside
  split at inside
  · simp at inside
  · rename_i segment rest split
    rw [split]
    exact Param.key_mem_of_matchesNamed inside

theorem isSegment_of_resolve (resolved : params.resolve key = [param]) : Key.IsSegment param.key := by
  have listed : param ∈ params.resolve key := by
    rw [resolved]
    exact List.mem_singleton_self param
  exact Key.isSegment_of_mem_segments (key_mem_of_resolve listed)

theorem resolve_of_isSegment (plain : Key.IsSegment key) :
    params.resolve key = (params.top.find? fun param => param.key = key).toList := by
  rw [resolve, matching, Key.segments_of_isSegment plain]
  show (Param.matchesNamed [] key [] params.top).map (·.param) = _
  rw [Param.matchesNamed_eq_find?]
  cases params.top.find? fun param => param.key = key with
  | none => rfl
  | some param => exact congrArg (List.map Match.param) Param.matchesAt_nil

theorem level_of_top (read : ofJson json = .ok params) (top : param ∈ params.top) :
    param.level = 1 ∧ ∀ child ∈ param.children, child.level = 2 := by
  cases json with
  | object members =>
      obtain rfl := Except.ok.inj read
      obtain ⟨name, value, -, built⟩ := Param.mem_buildMembers.mp top
      have level := Param.level_build built
      exact ⟨level, fun child member => by rw [Param.level_of_child built member, level]⟩
  | _ => simp [ofJson] at read

/-- A parameter below an empty name is not found by the segments of its absolute key. -/
theorem resolve_ne_below_empty (read : ofJson json = .ok params) {child : Param}
    (top : param ∈ params.top) (empty : param.absoluteKey = "") (member : child ∈ param.children) :
    params.resolve child.absoluteKey ≠ [child] := by
  intro resolved
  have plain := isSegment_of_resolve resolved
  have keyed := Param.KeyedAll.of_mem (keyed_ofJson read) param top
  have address := (Param.keyed_iff.mp ((Param.keyed_iff.mp keyed).2.2.of_mem child member)).1
  rw [empty, show Key.join "" child.key = child.key from rfl] at address
  rw [address, resolve_of_isSegment plain] at resolved
  have again : child ∈ params.top := List.mem_of_find?_eq_some (Option.toList_eq_singleton_iff.mp resolved)
  have upper := (level_of_top read again).1
  have lower := (level_of_top read top).2 child member
  omega

/-- The look-up by absolute key passes parameters down to the one that has the key. The look-up by segments
leads from the absolute key of each of them back to just this one if and only if their names are the
segments of the key. -/
theorem resolve_trail_iff (read : ofJson json = .ok params) (found : params.get? key = some param) :
    param.absoluteKey = key ∧ (params.trail key).getLast? = some param ∧
      ((∀ passed ∈ params.trail key, params.resolve passed.absoluteKey = [passed]) ↔
        (params.trail key).map Param.key = Key.segments key) := by
  have keyed := keyed_ofJson read
  have address : param.absoluteKey = key := Param.absoluteKey_of_getAmong? found
  have goes := trail_of_get? keyed found
  have spelled : ∀ {front : List Param} {passed : Param}, Param.Trail params.top front passed →
      passed.absoluteKey = (front.map Param.key).foldl Key.join "" := fun down => down.absoluteKey keyed
  have whole : key = ((params.trail key).map Param.key).foldl Key.join "" := by
    rw [← spelled goes, address]
  refine ⟨address, goes.getLast?, ?_⟩
  obtain ⟨first, rest, split⟩ := List.exists_cons_of_ne_nil goes.ne_nil
  rw [split] at goes whole ⊢
  constructor
  · intro agree
    rw [whole]
    refine (Key.segments_foldl_join_iff.mpr ⟨fun name member => ?_, fun empty => ?_⟩).symm
    · rw [← List.map_cons] at member
      obtain ⟨passed, listed, rfl⟩ := List.mem_map.mp member
      exact isSegment_of_resolve (agree passed listed)
    · cases goes with
      | last => rfl
      | step top further =>
          -- Behind an empty name the child's own name is its absolute key, as if it stood at the top.
          obtain ⟨next, others, rfl⟩ := List.exists_cons_of_ne_nil further.ne_nil
          have inTop := List.mem_of_find?_eq_some top
          have address : first.absoluteKey = "" := by rw [absoluteKey_of_mem_top keyed inTop, empty]
          have resolved := agree next (by simp)
          exact absurd resolved (resolve_ne_below_empty read inTop address
            (List.mem_of_find?_eq_some further.first))
  · intro same passed member
    rw [whole, List.map_cons, eq_comm, Key.segments_foldl_join_iff, ← List.map_cons] at same
    obtain ⟨plain, alone⟩ := same
    obtain ⟨before, after, cut⟩ := List.append_of_mem member
    have down := goes.front cut
    have inside : ∀ name ∈ (before ++ [passed]).map Param.key, Key.IsSegment name := by
      have part : before ++ [passed] ⊆ first :: rest := by
        rw [cut]
        simp
      exact fun name listed => plain name (List.map_subset Param.key part listed)
    refine resolve_of_trail down ?_
    rw [spelled down]
    cases before with
    | nil => exact Key.segments_foldl_join_iff.mpr ⟨inside, fun _ => rfl⟩
    | cons other between =>
        obtain ⟨rfl, later⟩ := List.cons.inj cut
        refine Key.segments_foldl_join_iff.mpr ⟨inside, fun empty => ?_⟩
        have none := alone empty
        rw [later] at none
        simp at none

def dottedMembers : List (String × Json) :=
  [("Users", .array [.null, .object [("1", .string "Ann")]]), ("a.b", .string "x")]

theorem resolve_trail_iff_users :
    let params := ofMembers dottedMembers
    ofJson (.object dottedMembers) = .ok params ∧
      ∃ param, params.get? "Users.2.1" = some param ∧ param.value = "Ann" ∧
        (params.trail "Users.2.1").map Param.key = ["Users", "2", "1"] ∧
        params.resolve "Users.2.1" = [param] := by
  have read : ofJson (.object dottedMembers) = .ok (ofMembers dottedMembers) := rfl
  have shown : ((ofMembers dottedMembers).get? "Users.2.1").map (·.value) = some "Ann" := by
    decide +kernel
  obtain ⟨param, found, value⟩ := Option.map_eq_some_iff.mp shown
  obtain ⟨address, last, agree⟩ := resolve_trail_iff read found
  have names : ((ofMembers dottedMembers).trail "Users.2.1").map Param.key = ["Users", "2", "1"] := by
    decide +kernel
  have segments : Key.segments "Users.2.1" = ["Users", "2", "1"] := by decide
  have resolved := agree.mpr (names.trans segments.symm) param (List.mem_of_getLast? last)
  rw [address] at resolved
  exact ⟨read, param, found, value, names, resolved⟩

/-- A name with a dot in it is found by its absolute key, and by no segments. -/
theorem resolve_ne_get?_dotted :
    let params := ofMembers dottedMembers
    (params.get? "a.b").map (·.value) = some "x" ∧ params.resolve "a.b" = [] := by
  refine ⟨by decide +kernel, rfl⟩

end Params

end WordTemplate
