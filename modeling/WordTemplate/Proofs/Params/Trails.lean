import WordTemplate.Proofs.Params.Addresses

/-! Trails through the parameters. A trail goes down from a level by the first parameter of each name; the
names spell the absolute key of its last parameter, and the segments of a key are used up along it. A list
passes a segment that names none of its items on to all of them. -/

namespace WordTemplate

namespace Param

variable {route segments : List String} {segment name : String} {params : List Param} {param : Param}

theorem matchesNamed_eq_find? :
    matchesNamed route name segments params =
      match params.find? fun param => param.key = name with
      | some param => matchesAt route segments param
      | none => [] := by
  induction params with
  | nil => rfl
  | cons first rest ih =>
      rw [matchesNamed, List.find?_cons]
      by_cases named : first.key = name
      · simp [named]
      · simpa [named] using ih

theorem matchesItems_eq_flatMap :
    matchesItems route segments params =
      params.flatMap fun item => matchesAt (route ++ [item.key]) segments item := by
  induction params with
  | nil => rfl
  | cons first rest ih => rw [matchesItems, List.flatMap_cons, ih]

theorem matchesAt_nil : matchesAt route [] param = [⟨route, param⟩] := by
  cases param
  rw [matchesAt]

theorem matchesAt_of_not_list (notList : param.kind ≠ .list) :
    matchesAt route (segment :: segments) param =
      matchesNamed route segment segments param.children := by
  obtain ⟨key, value, kind, absoluteKey, compactKey, level, children⟩ := param
  exact (matchesAt.eq_2 ..).trans (if_neg notList)

theorem matchesAt_of_item (isList : param.kind = .list)
    (named : (param.children.any fun item => item.key = segment) = true) :
    matchesAt route (segment :: segments) param =
      matchesNamed (route ++ [segment]) segment segments param.children := by
  obtain ⟨key, value, kind, absoluteKey, compactKey, level, children⟩ := param
  exact (matchesAt.eq_2 ..).trans ((if_pos isList).trans (if_pos named))

theorem matchesAt_of_no_item (isList : param.kind = .list)
    (unnamed : (param.children.any fun item => item.key = segment) = false) :
    matchesAt route (segment :: segments) param =
      matchesItems route (segment :: segments) param.children := by
  obtain ⟨key, value, kind, absoluteKey, compactKey, level, children⟩ := param
  exact (matchesAt.eq_2 ..).trans ((if_pos isList).trans (if_neg (by rw [unnamed]; decide)))

/-- From the parameters of a level a trail goes down to a parameter, by the first one of each name. -/
inductive Trail : List Param → List Param → Param → Prop
  | last {params : List Param} {param : Param}
      (first : params.find? (fun other => other.key = param.key) = some param) :
      Trail params [param] param
  | step {params trail : List Param} {param found : Param}
      (first : params.find? (fun other => other.key = param.key) = some param)
      (further : Trail param.children trail found) : Trail params (param :: trail) found

theorem KeyedAll.of_mem {parent : String} (keyed : KeyedAll parent params) :
    ∀ param ∈ params, param.Keyed parent := by
  induction params with
  | nil => simp
  | cons first rest ih => exact List.forall_mem_cons.mpr ⟨keyed.1, ih keyed.2⟩

namespace Trail

variable {trail : List Param} {found : Param}

theorem absoluteKey {parent : String} (goes : Trail params trail found)
    (keyed : KeyedAll parent params) :
    found.absoluteKey = (trail.map Param.key).foldl Key.join parent := by
  induction goes generalizing parent with
  | last first => exact (keyed_iff.mp (keyed.of_mem _ (List.mem_of_find?_eq_some first))).1
  | step first further ih =>
      obtain ⟨address, -, below⟩ :=
        keyed_iff.mp (keyed.of_mem _ (List.mem_of_find?_eq_some first))
      rw [address] at below
      exact ih below

theorem mem_withAllOf (goes : Trail params trail found) : found ∈ withAllOf params := by
  induction goes with
  | last first =>
      exact Param.mem_withAllOf.mpr ⟨_, List.mem_of_find?_eq_some first, mem_withAll_self _⟩
  | step first further ih =>
      exact Param.mem_withAllOf.mpr
        ⟨_, List.mem_of_find?_eq_some first, mem_withAll_of_child rfl ih⟩

theorem first (goes : Trail params (param :: trail) found) :
    params.find? (fun other => other.key = param.key) = some param := by
  cases goes with
  | last first => exact first
  | step first => exact first

theorem ne_nil (goes : Trail params trail found) : trail ≠ [] := by
  cases goes <;> simp

theorem getLast? (goes : Trail params trail found) : trail.getLast? = some found := by
  induction goes with
  | last => rfl
  | step first further ih => rw [List.getLast?_cons_of_ne_nil further.ne_nil, ih]

theorem front (goes : Trail params trail found) {before after : List Param} {passed : Param}
    (cut : trail = before ++ passed :: after) : Trail params (before ++ [passed]) passed := by
  induction goes generalizing before with
  | last first =>
      cases before with
      | nil =>
          obtain ⟨rfl, -⟩ := List.cons.inj cut
          exact .last first
      | cons other rest => simp at cut
  | step first further ih =>
      cases before with
      | nil =>
          obtain ⟨rfl, -⟩ := List.cons.inj cut
          exact .last first
      | cons other rest =>
          obtain ⟨rfl, later⟩ := List.cons.inj cut
          exact .step first (ih later)

/-- Segments that name the parameters of a trail lead to its last one, whatever comes behind. -/
theorem matchesNamed (goes : Trail params trail found) {names : List String}
    (spelled : trail.map Param.key = name :: names) (route : List String) :
    ∃ passed, ∀ back, Param.matchesNamed route name (names ++ back) params =
      matchesAt passed back found := by
  induction goes generalizing name names route with
  | last first =>
      obtain ⟨rfl, rfl⟩ := List.cons.inj spelled
      refine ⟨route, fun back => ?_⟩
      rw [matchesNamed_eq_find?, first]
      rfl
  | @step params trail param found first further ih =>
      obtain ⟨rfl, rfl⟩ := List.cons.inj spelled
      obtain ⟨next, others, rfl⟩ := List.exists_cons_of_ne_nil further.ne_nil
      by_cases isList : param.kind = .list
      · obtain ⟨passed, same⟩ := ih List.map_cons (route ++ [next.key])
        refine ⟨passed, fun back => ?_⟩
        have named : (param.children.any fun item => item.key = next.key) = true :=
          List.any_eq_true.mpr ⟨next, List.mem_of_find?_eq_some further.first, by simp⟩
        rw [matchesNamed_eq_find?, first, ← same back]
        exact matchesAt_of_item isList named
      · obtain ⟨passed, same⟩ := ih List.map_cons route
        refine ⟨passed, fun back => ?_⟩
        rw [matchesNamed_eq_find?, first, ← same back]
        exact matchesAt_of_not_list isList

end Trail

end Param

namespace Params

variable {params : Params} {trail : List Param} {found : Param} {key : String}

theorem matching_of_trail (goes : Param.Trail params.top trail found) :
    ∃ passed, ∀ key back, Key.segments key = trail.map Param.key ++ back →
      params.matching key = Param.matchesAt passed back found := by
  obtain ⟨first, rest, rfl⟩ := List.exists_cons_of_ne_nil goes.ne_nil
  obtain ⟨passed, same⟩ := goes.matchesNamed List.map_cons []
  refine ⟨passed, fun key back cut => ?_⟩
  rw [matching, cut]
  exact same back

theorem resolve_of_trail (goes : Param.Trail params.top trail found)
    (spelled : Key.segments key = trail.map Param.key) : params.resolve key = [found] := by
  obtain ⟨passed, same⟩ := matching_of_trail goes
  rw [resolve, same key [] (by rw [spelled, List.append_nil]), Param.matchesAt_nil]
  rfl

end Params

end WordTemplate
