import WordTemplate.Proofs.Params.Indexing

/-! The running numbers of the parameters that a key matches. Matches that stand in different lists branch off
at some list on the way, the earlier one to an earlier item, so that the numbers increase from match to
match. -/

namespace WordTemplate

namespace Param

/-- The items of a list are named by their positions, which increase and are counted from one. -/
def InOrder (list : Param) : Prop :=
  ∃ places : List Nat, list.children.map key = places.map toString ∧ (0 :: places).Pairwise (· < ·)

theorem inOrder_of_children {list : Param} {place : Place} {items : List Json}
    (built : list.children = buildItems place 1 items) : list.InOrder :=
  ⟨_, built ▸ key_buildItems place 1 items,
    List.pairwise_cons.mpr ⟨List.ge_of_mem_findIdxs, List.pairwise_findIdxs⟩⟩

/-- The first route branches off before the second one: they have some positions in common, and then the
first one goes on with the smaller position. -/
def Branches (first second : List String) : Prop :=
  ∃ (front : List String) (place later : Nat) (back rest : List String), place < later ∧
    first = front ++ toString place :: back ∧ second = front ++ toString later :: rest

def GoesOn (route further : List String) : Prop :=
  ∃ places : List Nat, further = route ++ places.map toString ∧ ∀ number ∈ places, 0 < number

theorem GoesOn.refl (route : List String) : GoesOn route route :=
  ⟨[], by simp, by simp⟩

theorem GoesOn.behind {route further : List String} {number : Nat} (positive : 0 < number)
    (goes : GoesOn (route ++ [toString number]) further) : GoesOn route further := by
  obtain ⟨places, rfl, bound⟩ := goes
  exact ⟨number :: places, by simp, List.forall_mem_cons.mpr ⟨positive, bound⟩⟩

theorem InOrder.exists_place {list : Param} (inOrder : list.InOrder) {item : Param}
    (member : item ∈ list.children) : ∃ number : Nat, item.key = toString number ∧ 0 < number := by
  obtain ⟨places, named, increasing⟩ := inOrder
  have listed : item.key ∈ places.map toString := named ▸ List.mem_map_of_mem member
  obtain ⟨number, inside, same⟩ := List.mem_map.mp listed
  exact ⟨number, same.symm, (List.pairwise_cons.mp increasing).1 number inside⟩

def Counted (param : Param) : Prop :=
  ∀ list ∈ param.withAll, list.kind = .list → list.InOrder

def CountedAll (params : List Param) : Prop :=
  ∀ list ∈ withAllOf params, list.kind = .list → list.InOrder

theorem Counted.inOrder {param : Param} (counted : param.Counted) (isList : param.kind = .list) :
    param.InOrder :=
  counted param (mem_withAll_self param) isList

theorem Counted.children {param : Param} (counted : param.Counted) : CountedAll param.children :=
  fun list inside => counted list (mem_withAll_of_child rfl inside)

theorem countedAll_cons {first : Param} {rest : List Param} :
    CountedAll (first :: rest) ↔ first.Counted ∧ CountedAll rest := by
  simp only [CountedAll, Counted, withAllOf, List.forall_mem_append]

theorem CountedAll.of_mem {params : List Param} {param : Param} (counted : CountedAll params)
    (member : param ∈ params) : param.Counted :=
  fun list inside => counted list (mem_withAllOf.mpr ⟨param, member, inside⟩)

mutual

theorem goesOn_of_matchesAt {route segments : List String} {param : Param} {found : Match}
    (counted : param.Counted)
    (listed : found ∈ matchesAt route segments param) : GoesOn route found.route := by
  cases param with
  | mk key value kind absoluteKey compactKey level children =>
      cases segments with
      | nil =>
          simp only [matchesAt, List.mem_singleton] at listed
          exact listed ▸ .refl route
      | cons segment rest =>
          rw [matchesAt] at listed
          split at listed
          · rename_i isList
            have inOrder := counted.inOrder isList
            split at listed
            · rename_i named
              obtain ⟨item, member, same⟩ := List.any_eq_true.mp named
              obtain ⟨number, isNumber, positive⟩ := inOrder.exists_place member
              rw [decide_eq_true_eq, isNumber] at same
              subst same
              exact (goesOn_of_matchesNamed counted.children listed).behind positive
            · exact goesOn_of_matchesItems counted.children
                (fun item member => inOrder.exists_place member) listed
          · exact goesOn_of_matchesNamed counted.children listed

theorem goesOn_of_matchesNamed {route : List String} {name : String} {segments : List String}
    {params : List Param} {found : Match} (counted : CountedAll params)
    (listed : found ∈ matchesNamed route name segments params) : GoesOn route found.route := by
  cases params with
  | nil => simp [matchesNamed] at listed
  | cons param rest =>
      obtain ⟨first, others⟩ := countedAll_cons.mp counted
      rw [matchesNamed] at listed
      split at listed
      · exact goesOn_of_matchesAt first listed
      · exact goesOn_of_matchesNamed others listed

theorem goesOn_of_matchesItems {route segments : List String} {params : List Param} {found : Match}
    (counted : CountedAll params)
    (numbered : ∀ item ∈ params, ∃ number : Nat, item.key = toString number ∧ 0 < number)
    (listed : found ∈ matchesItems route segments params) : GoesOn route found.route := by
  cases params with
  | nil => simp [matchesItems] at listed
  | cons param rest =>
      obtain ⟨first, others⟩ := countedAll_cons.mp counted
      obtain ⟨⟨number, isNumber, positive⟩, later⟩ := List.forall_mem_cons.mp numbered
      rw [matchesItems, List.mem_append] at listed
      rcases listed with here | behind
      · rw [isNumber] at here
        exact (goesOn_of_matchesAt first here).behind positive
      · exact goesOn_of_matchesItems others later behind

end

theorem Branches.of_goesOn {route first second : List String} {place later : Nat} (less : place < later)
    (left : GoesOn (route ++ [toString place]) first) (right : GoesOn (route ++ [toString later]) second) :
    Branches first second := by
  obtain ⟨back, rfl, -⟩ := left
  obtain ⟨rest, rfl, -⟩ := right
  exact ⟨route, place, later, back.map toString, rest.map toString, less, by simp, by simp⟩

mutual

/-- An earlier match branches off before a later one. -/
theorem branches_matchesAt {route segments : List String} {param : Param} (counted : param.Counted) :
    ((matchesAt route segments param).map Match.route).Pairwise Branches := by
  cases param with
  | mk key value kind absoluteKey compactKey level children =>
      cases segments with
      | nil =>
          rw [matchesAt]
          exact List.pairwise_singleton ..
      | cons segment rest =>
          rw [matchesAt]
          split
          · rename_i isList
            split
            · exact branches_matchesNamed counted.children
            · obtain ⟨places, named, increasing⟩ := counted.inOrder isList
              exact branches_matchesItems counted.children named (List.pairwise_cons.mp increasing).2
          · exact branches_matchesNamed counted.children

theorem branches_matchesNamed {route : List String} {name : String} {segments : List String}
    {params : List Param} (counted : CountedAll params) :
    ((matchesNamed route name segments params).map Match.route).Pairwise Branches := by
  cases params with
  | nil => exact .nil
  | cons param rest =>
      obtain ⟨first, others⟩ := countedAll_cons.mp counted
      rw [matchesNamed]
      split
      · exact branches_matchesAt first
      · exact branches_matchesNamed others

theorem branches_matchesItems {route segments : List String} {params : List Param} {places : List Nat}
    (counted : CountedAll params)
    (named : params.map key = places.map toString) (increasing : places.Pairwise (· < ·)) :
    ((matchesItems route segments params).map Match.route).Pairwise Branches := by
  cases params with
  | nil => exact .nil
  | cons param rest =>
      obtain ⟨first, others⟩ := countedAll_cons.mp counted
      obtain ⟨place, later, rfl, here, behind⟩ := List.map_eq_cons_iff.mp named.symm
      obtain ⟨less, inside⟩ := List.pairwise_cons.mp increasing
      rw [matchesItems, List.map_append, List.pairwise_append]
      refine ⟨branches_matchesAt first, branches_matchesItems others behind.symm inside, ?_⟩
      intro left listed right member
      obtain ⟨found, inFirst, rfl⟩ := List.mem_map.mp listed
      obtain ⟨other, inRest, rfl⟩ := List.mem_map.mp member
      rw [matchesItems_eq_flatMap] at inRest
      obtain ⟨item, among, inItem⟩ := List.mem_flatMap.mp inRest
      have isPlace : item.key ∈ later.map toString := behind ▸ List.mem_map_of_mem among
      obtain ⟨number, isLater, same⟩ := List.mem_map.mp isPlace
      have goes := goesOn_of_matchesAt (others.of_mem among) inItem
      rw [← same] at goes
      rw [← here] at inFirst
      exact .of_goesOn (less number isLater) (goesOn_of_matchesAt first inFirst) goes

end

end Param

namespace Params

def Counted (params : Params) : Prop :=
  Param.CountedAll params.top

theorem counted_ofMembers (members : List (String × Json)) : (ofMembers members).Counted := by
  intro list listed isList
  obtain ⟨place, items, held⟩ := Param.exists_items_buildMembers listed isList
  exact Param.inOrder_of_children held

theorem counted_ofJson {params : Params} {json : Json} (built : ofJson json = .ok params) :
    params.Counted := by
  cases json with
  | object members =>
      obtain rfl := Except.ok.inj built
      exact counted_ofMembers members
  | _ => simp [ofJson] at built

def routes (params : Params) (key : String) : List (List String) :=
  (params.matching key).map Match.route

variable {params : Params} {key : String}

theorem pairwise_routes (counted : params.Counted) (key : String) :
    (params.routes key).Pairwise Param.Branches := by
  rw [routes, matching]
  split
  · exact .nil
  · exact Param.branches_matchesNamed counted

theorem goesOn_of_mem_routes (counted : params.Counted) {route : List String}
    (listed : route ∈ params.routes key) : Param.GoesOn [] route := by
  rw [routes, matching] at listed
  split at listed
  · simp at listed
  · obtain ⟨entry, inside, rfl⟩ := List.mem_map.mp listed
    exact Param.goesOn_of_matchesNamed counted inside

section Numbers

/-- Where the outer parts of two routes are the same, the second one leads to a later position. -/
def Follows (first second : List String × Nat) : Prop :=
  first.1 = second.1 → first.2 < second.2

theorem splitRoute_concat (front : List String) (number : Nat) :
    splitRoute (front ++ [toString number]) = (front, number) := by
  rw [splitRoute, List.getLast?_concat]
  simp only [List.dropLast_concat, Text.number?_toString, Option.getD_some]

theorem follows_of_branches {first second : List String} (branches : Param.Branches first second) :
    Follows (splitRoute first) (splitRoute second) := by
  obtain ⟨front, place, later, back, rest, less, rfl, rfl⟩ := branches
  have outer : ∀ (number : Nat) (back : List String) (last : String),
      (splitRoute (front ++ toString number :: (back ++ [last]))).1 = front ++ toString number :: back := by
    intro number back last
    rw [← List.cons_append, ← List.append_assoc, splitRoute, List.getLast?_concat]
    exact List.dropLast_concat
  intro same
  -- Both routes end where they branch, since otherwise their outer parts differ there.
  rcases List.eq_nil_or_concat back with rfl | ⟨before, last, rfl⟩ <;>
    rcases List.eq_nil_or_concat rest with rfl | ⟨before', last', rfl⟩
  · simpa only [splitRoute_concat] using less
  · rw [splitRoute_concat, List.concat_eq_append, outer] at same
    simp at same
  · rw [splitRoute_concat, List.concat_eq_append, outer] at same
    simp at same
  · rw [List.concat_eq_append, List.concat_eq_append, outer, outer] at same
    simp only [List.append_cancel_left_eq, List.cons.injEq, toString_inj] at same
    omega

theorem positive_of_goesOn {route : List String} (goes : Param.GoesOn [] route) :
    0 < (splitRoute route).2 := by
  obtain ⟨places, rfl, positive⟩ := goes
  rcases List.eq_nil_or_concat places with rfl | ⟨front, last, rfl⟩
  · exact Nat.one_pos
  · rw [List.concat_eq_append, List.map_append, List.map_singleton, List.nil_append, splitRoute_concat]
    exact positive last (by simp)

theorem numberFrom_cons (offset : Nat) (outer : List String × Nat) (entry : Match) (rest : List Match) :
    numberFrom ⟨offset, some outer⟩ (entry :: rest) =
      let added := if outer.1 = (splitRoute entry.route).1 then offset else offset + outer.2
      ⟨(splitRoute entry.route).2 + added, entry.param⟩ ::
        numberFrom ⟨added, some (splitRoute entry.route)⟩ rest := rfl

theorem isChain_numberFrom {found : List Match} {outer : List String × Nat} (offset : Nat)
    (chain : List.IsChain Follows (outer :: found.map fun entry => splitRoute entry.route))
    (positive : ∀ entry ∈ found, 0 < (splitRoute entry.route).2) :
    List.IsChain (· < ·)
      ((outer.2 + offset) :: (numberFrom ⟨offset, some outer⟩ found).map Numbered.number) := by
  induction found generalizing outer offset with
  | nil => exact .singleton _
  | cons entry rest ih =>
      obtain ⟨here, later⟩ := List.forall_mem_cons.mp positive
      rw [List.map_cons, List.isChain_cons_cons] at chain
      obtain ⟨follows, chain⟩ := chain
      rw [numberFrom_cons, List.map_cons, List.isChain_cons_cons]
      by_cases same : outer.1 = (splitRoute entry.route).1
      · have less := follows same
        exact ⟨by simp only [if_pos same]; omega, ih _ chain later⟩
      · exact ⟨by simp only [if_neg same]; omega, ih _ chain later⟩

/-- The running numbers of the matches of a key increase. -/
theorem increasing_findAll (counted : params.Counted) (key : String) :
    ((params.findAll key).map Numbered.number).Pairwise (· < ·) := by
  have branches := pairwise_routes counted key
  have goes : ∀ found ∈ params.matching key, Param.GoesOn [] found.route :=
    fun found listed => goesOn_of_mem_routes counted (List.mem_map_of_mem listed)
  rw [routes] at branches
  rw [findAll]
  generalize params.matching key = found at branches goes
  cases found with
  | nil => exact .nil
  | cons first rest =>
      have follows : ((first :: rest).map fun found => splitRoute found.route).Pairwise Follows :=
        List.pairwise_map.mpr ((List.pairwise_map.mp branches).imp follows_of_branches)
      exact (isChain_numberFrom 0 follows.isChain
        fun found listed => positive_of_goesOn (goes found (List.mem_cons_of_mem _ listed))).pairwise

end Numbers

end Params

end WordTemplate
