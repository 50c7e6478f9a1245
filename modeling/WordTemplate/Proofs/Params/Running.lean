import Mathlib.Data.List.Chain
import Mathlib.Data.List.Nodup
import WordTemplate.Proofs.Params.Numbering

/-! The lists that are passed on the way to what a key matches. Where as many lists are passed on all ways, and
the items that are entered in an innermost list are the first ones of it, the matches are numbered from one
on without gaps. -/

namespace WordTemplate

namespace Param

/-- Segments lead from a parameter down to another one. The lists that are passed are given with the item that
is entered in each; a list hands a segment that names none of its items on to all of them. -/
inductive Reaches : List String → Param → List (Param × Param) → Param → Prop
  | here (param : Param) : Reaches [] param [] param
  | member {param child found : Param} {segment : String} {segments : List String}
      {passed : List (Param × Param)} (notList : param.kind ≠ .list)
      (named : param.child? segment = some child) (further : Reaches segments child passed found) :
      Reaches (segment :: segments) param passed found
  | item {list item found : Param} {segment : String} {segments : List String}
      {passed : List (Param × Param)} (isList : list.kind = .list)
      (named : list.child? segment = some item) (further : Reaches segments item passed found) :
      Reaches (segment :: segments) list ((list, item) :: passed) found
  | each {list item found : Param} {segment : String} {segments : List String}
      {passed : List (Param × Param)} (isList : list.kind = .list)
      (unnamed : list.child? segment = none) (among : item ∈ list.children)
      (further : Reaches (segment :: segments) item passed found) :
      Reaches (segment :: segments) list ((list, item) :: passed) found

def routeOf (passed : List (Param × Param)) : List String :=
  passed.map fun (_, item) => item.key

theorem any_key_iff {param : Param} {segment : String} :
    (param.children.any fun child => child.key = segment) = (param.child? segment).isSome :=
  (List.isSome_find? ..).symm

theorem InOrder.eq_of_key {list item other : Param} (inOrder : list.InOrder) (member : item ∈ list.children)
    (among : other ∈ list.children) (same : item.key = other.key) : item = other := by
  obtain ⟨places, named, increasing⟩ := inOrder
  have distinct : (list.children.map key).Nodup := by
    rw [named]
    refine List.pairwise_map.mpr ((List.pairwise_cons.mp increasing).2.imp ?_)
    intro place later less equal
    have := toString_inj.mp equal
    omega
  exact List.inj_on_of_nodup_map distinct member among same

mutual

theorem exists_reaches_of_matchesAt {route segments : List String} {param : Param} {found : Match}
    (listed : found ∈ matchesAt route segments param) :
    ∃ passed, Reaches segments param passed found.param ∧ found.route = route ++ routeOf passed := by
  cases param with
  | mk key value kind absoluteKey compactKey level children =>
      cases segments with
      | nil =>
          simp only [matchesAt, List.mem_singleton] at listed
          subst listed
          exact ⟨[], .here _, by simp [routeOf]⟩
      | cons segment rest =>
          rw [matchesAt] at listed
          split at listed
          · rename_i isList
            split at listed
            · obtain ⟨item, passed, named, further, same⟩ := exists_reaches_of_matchesNamed listed
              have isNamed : item.key = segment := by simpa using List.find?_some named
              exact ⟨_, .item isList named further, by simp [same, routeOf, isNamed]⟩
            · rename_i unnamed
              obtain ⟨item, passed, among, further, same⟩ := exists_reaches_of_matchesItems listed
              refine ⟨_, .each isList ?_ among further, by simp [same, routeOf]⟩
              simpa [child?, List.find?_eq_none] using unnamed
          · rename_i notList
            obtain ⟨child, passed, named, further, same⟩ := exists_reaches_of_matchesNamed listed
            exact ⟨passed, .member notList named further, same⟩

theorem exists_reaches_of_matchesNamed {route : List String} {name : String} {segments : List String}
    {params : List Param} {found : Match} (listed : found ∈ matchesNamed route name segments params) :
    ∃ param passed, params.find? (fun param => param.key = name) = some param ∧
      Reaches segments param passed found.param ∧ found.route = route ++ routeOf passed := by
  cases params with
  | nil => simp [matchesNamed] at listed
  | cons param rest =>
      rw [matchesNamed] at listed
      split at listed
      · rename_i named
        obtain ⟨passed, further, same⟩ := exists_reaches_of_matchesAt listed
        exact ⟨param, passed, by simp [named], further, same⟩
      · rename_i other
        obtain ⟨found, passed, named, further, same⟩ := exists_reaches_of_matchesNamed listed
        exact ⟨found, passed, by simpa [other] using named, further, same⟩

theorem exists_reaches_of_matchesItems {route segments : List String} {params : List Param}
    {found : Match} (listed : found ∈ matchesItems route segments params) :
    ∃ item passed, item ∈ params ∧ Reaches segments item passed found.param ∧
      found.route = route ++ item.key :: routeOf passed := by
  cases params with
  | nil => simp [matchesItems] at listed
  | cons param rest =>
      rw [matchesItems, List.mem_append] at listed
      rcases listed with here | behind
      · obtain ⟨passed, further, same⟩ := exists_reaches_of_matchesAt here
        exact ⟨param, passed, by simp, further, by simpa using same⟩
      · obtain ⟨item, passed, among, further, same⟩ := exists_reaches_of_matchesItems behind
        exact ⟨item, passed, List.mem_cons_of_mem _ among, further, same⟩

end

namespace Reaches

variable {segments : List String} {param found : Param} {passed : List (Param × Param)}

theorem mem_matchesAt (reaches : Reaches segments param passed found) (route : List String) :
    (⟨route ++ routeOf passed, found⟩ : Match) ∈ matchesAt route segments param := by
  induction reaches generalizing route with
  | here param => simp [matchesAt_nil, routeOf]
  | member notList named further ih =>
      rw [matchesAt_of_not_list notList, matchesNamed_eq_find?, ← child?, named]
      exact ih route
  | @item list item found segment segments passed isList named further ih =>
      have isNamed : item.key = segment := by simpa using List.find?_some named
      rw [matchesAt_of_item isList (by rw [any_key_iff, named]; rfl), matchesNamed_eq_find?, ← child?, named]
      simpa [routeOf, isNamed] using ih (route ++ [segment])
  | @each list item found segment segments passed isList unnamed among further ih =>
      rw [matchesAt_of_no_item isList (by rw [any_key_iff, unnamed]; rfl), matchesItems_eq_flatMap,
        List.mem_flatMap]
      exact ⟨item, among, by simpa [routeOf] using ih (route ++ [item.key])⟩

theorem child_mem {child : Param} {segment : String} (named : param.child? segment = some child) :
    child ∈ param.children :=
  List.mem_of_find?_eq_some named

/-- What two ways that enter a list have in common: the list, and all that their further parts do when the
same item is entered. -/
theorem same_list_cons {list item other entered first second : Param}
    {others front back : List (Param × Param)}
    (cut : (param, first) :: passed = front ++ [(list, item)])
    (cut' : (param, second) :: others = back ++ [(other, entered)]) (same : routeOf front = routeOf back)
    (agree : first.key = second.key → first = second)
    (further : first = second → ∀ {front back}, passed = front ++ [(list, item)] →
      others = back ++ [(other, entered)] → routeOf front = routeOf back → front = back ∧ list = other) :
    front = back ∧ list = other := by
  cases front with
  | nil =>
      obtain rfl : back = [] := by simpa [routeOf] using same.symm
      simp only [List.nil_append, List.cons.injEq, Prod.mk.injEq] at cut cut'
      exact ⟨rfl, cut.1.1.symm.trans cut'.1.1⟩
  | cons step front =>
      cases back with
      | nil => simp [routeOf] at same
      | cons step' back =>
          obtain ⟨rfl, below⟩ := List.cons.inj cut
          obtain ⟨rfl, below'⟩ := List.cons.inj cut'
          obtain ⟨named, rest⟩ := List.cons.inj same
          obtain rfl := agree named
          obtain ⟨rfl, equal⟩ := further rfl below below' rest
          exact ⟨rfl, equal⟩

/-- Where the same items are entered on the way, the innermost lists are the same. -/
theorem same_list {last : Param} {others front back : List (Param × Param)} {list item other entered : Param}
    (counted : param.Counted) (reaches : Reaches segments param passed found)
    (again : Reaches segments param others last) (cut : passed = front ++ [(list, item)])
    (cut' : others = back ++ [(other, entered)]) (same : routeOf front = routeOf back) :
    front = back ∧ list = other := by
  induction reaches generalizing others front back with
  | here => simp at cut
  | member notList named further ih =>
      cases again with
      | member _ named' further' =>
          obtain rfl := Option.some.inj (named.symm.trans named')
          exact ih (counted.children.of_mem (child_mem named)) further' cut cut' same
      | item isList => exact absurd isList notList
      | each isList => exact absurd isList notList
  | item isList named further ih =>
      cases again with
      | member notList => exact absurd isList notList
      | item _ named' further' =>
          obtain rfl := Option.some.inj (named.symm.trans named')
          exact same_list_cons cut cut' same (fun _ => rfl)
            fun _ => ih (counted.children.of_mem (child_mem named)) further'
      | each _ unnamed => simp [named] at unnamed
  | each isList unnamed among further ih =>
      cases again with
      | member notList => exact absurd isList notList
      | item _ named => simp [named] at unnamed
      | each _ _ among' further' =>
          refine same_list_cons cut cut' same ((counted.inOrder isList).eq_of_key among among') ?_
          rintro rfl
          exact ih (counted.children.of_mem among) further'

end Reaches

theorem branches_cons {name : String} {first second : List String} :
    Branches (name :: first) (name :: second) ↔ Branches first second := by
  constructor
  · rintro ⟨front, place, later, back, rest, less, left, right⟩
    cases front with
    | nil =>
        simp only [List.nil_append, List.cons.injEq] at left right
        have same : place = later := toString_inj.mp (left.1.symm.trans right.1)
        omega
    | cons other front =>
        simp only [List.cons_append, List.cons.injEq] at left right
        exact ⟨front, place, later, back, rest, less, left.2, right.2⟩
  · rintro ⟨front, place, later, back, rest, less, rfl, rfl⟩
    exact ⟨name :: front, place, later, back, rest, less, rfl, rfl⟩

theorem Branches.head_lt {name other : String} {first second : List String}
    (branches : Branches (name :: first) (other :: second)) (different : name ≠ other) :
    ∃ place later : Nat, place < later ∧ name = toString place ∧ other = toString later := by
  obtain ⟨front, place, later, back, rest, less, left, right⟩ := branches
  cases front with
  | nil => exact ⟨place, later, less, (List.cons.inj left).1, (List.cons.inj right).1⟩
  | cons shared front =>
      exact absurd ((List.cons.inj left).1.trans (List.cons.inj right).1.symm) different

/-- A route between two that differ in their last positions alone differs from them in the last one as well. -/
theorem Branches.between {front middle : List String} {first last : String}
    (before : Branches (front ++ [first]) middle) (behind : Branches middle (front ++ [last]))
    (length : middle.length = front.length + 1) : middle.dropLast = front := by
  induction front generalizing middle with
  | nil =>
      obtain ⟨only, rfl⟩ := List.length_eq_one_iff.mp length
      rfl
  | cons name front ih =>
      obtain ⟨other, rest, rfl⟩ := List.exists_cons_of_length_eq_add_one length
      rw [List.cons_append] at before behind
      have same : name = other := by
        by_contra different
        obtain ⟨place, later, less, isPlace, isLater⟩ := before.head_lt different
        obtain ⟨further, back, more, isFurther, isBack⟩ := behind.head_lt (Ne.symm different)
        have equal : later = further := toString_inj.mp (isLater.symm.trans isFurther)
        have again : place = back := toString_inj.mp (isPlace.symm.trans isBack)
        omega
      subst same
      rw [branches_cons] at before behind
      have shorter : rest.length = front.length + 1 := by simpa using length
      rw [List.dropLast_cons_of_ne_nil (List.ne_nil_of_length_eq_add_one shorter), ih before behind shorter]

end Param

namespace Params

/-- A key leads to a parameter, past the given lists. -/
def Reaches (params : Params) (key : String) (passed : List (Param × Param)) (found : Param) : Prop :=
  ∃ first segments top, Key.segments key = first :: segments ∧
    params.top.find? (fun param => param.key = first) = some top ∧ Param.Reaches segments top passed found

/-- In no innermost list is an item entered while one in front of it is not. -/
def Gapless (params : Params) (key : String) : Prop :=
  ∀ front list item found, params.Reaches key (front ++ [(list, item)]) found →
    ∀ place number : Nat, item.key = toString number → 0 < place → place < number →
      ∃ earlier other, params.Reaches key (front ++ [(list, earlier)]) other ∧ earlier.key = toString place

variable {params : Params} {key : String}

theorem mem_matching_iff {entry : Match} :
    entry ∈ params.matching key ↔
      ∃ passed, params.Reaches key passed entry.param ∧ entry.route = Param.routeOf passed := by
  constructor
  · intro listed
    rw [matching] at listed
    split at listed
    · simp at listed
    · rename_i first segments cut
      obtain ⟨top, passed, named, further, same⟩ := Param.exists_reaches_of_matchesNamed listed
      exact ⟨passed, ⟨first, segments, top, cut, named, further⟩, by simpa using same⟩
  · rintro ⟨passed, ⟨first, segments, top, cut, named, further⟩, same⟩
    have listed := further.mem_matchesAt []
    rw [List.nil_append, ← same] at listed
    rw [matching, cut]
    simpa [Param.matchesNamed_eq_find?, named] using listed

theorem mem_routes_iff {route : List String} :
    route ∈ params.routes key ↔ ∃ passed found, params.Reaches key passed found ∧ Param.routeOf passed = route := by
  simp only [routes, List.mem_map, mem_matching_iff]
  constructor
  · rintro ⟨entry, ⟨passed, reaches, same⟩, rfl⟩
    exact ⟨passed, entry.param, reaches, same.symm⟩
  · rintro ⟨passed, found, reaches, rfl⟩
    exact ⟨⟨Param.routeOf passed, found⟩, ⟨passed, reaches, rfl⟩, rfl⟩

theorem Reaches.same_list {front back : List (Param × Param)} {list item found other entered last : Param}
    (counted : params.Counted) (reaches : params.Reaches key (front ++ [(list, item)]) found)
    (again : params.Reaches key (back ++ [(other, entered)]) last)
    (same : Param.routeOf front = Param.routeOf back) : front = back ∧ list = other := by
  obtain ⟨first, segments, top, cut, named, further⟩ := reaches
  obtain ⟨first', segments', top', cut', named', further'⟩ := again
  obtain ⟨rfl, rfl⟩ := List.cons.inj (cut.symm.trans cut')
  obtain rfl := Option.some.inj (named.symm.trans named')
  exact further.same_list (counted.of_mem (List.mem_of_find?_eq_some named)) further' rfl rfl same

theorem routeOf_concat (front : List (Param × Param)) (list item : Param) :
    Param.routeOf (front ++ [(list, item)]) = Param.routeOf front ++ [item.key] := by
  simp [Param.routeOf]

/-- Whether items are left out can be told from the routes, as they tell the lists apart. -/
theorem gapless_iff (counted : params.Counted) :
    params.Gapless key ↔ ∀ route ∈ params.routes key, ∀ place < (splitRoute route).2, 0 < place →
      (splitRoute route).1 ++ [toString place] ∈ params.routes key := by
  constructor
  · intro gapless route listed place less positive
    obtain ⟨passed, found, reaches, same⟩ := mem_routes_iff.mp listed
    rcases List.eq_nil_or_concat passed with rfl | ⟨before, ⟨list, item⟩, rfl⟩
    · obtain rfl : [] = route := same
      rw [splitRoute] at less
      simp only [List.getLast?_nil] at less
      omega
    · obtain ⟨places, isPlaces, -⟩ := goesOn_of_mem_routes counted listed
      rw [List.concat_eq_append] at reaches same
      rw [routeOf_concat] at same
      rcases List.eq_nil_or_concat places with rfl | ⟨outer, number, rfl⟩
      · simp [isPlaces] at same
      · obtain rfl : route = outer.map toString ++ [toString number] := by simpa using isPlaces
        rw [splitRoute_concat] at less ⊢
        obtain ⟨entered, last⟩ := List.append_inj' same rfl
        obtain ⟨earlier, other, leads, named⟩ :=
          gapless before list item found reaches place number (List.cons.inj last).1 positive less
        exact mem_routes_iff.mpr ⟨_, other, leads, by rw [routeOf_concat, named, entered]⟩
  · intro complete front list item found reaches place number named positive less
    have listed : Param.routeOf front ++ [toString number] ∈ params.routes key :=
      mem_routes_iff.mpr ⟨_, found, reaches, by rw [routeOf_concat, named]⟩
    have also := complete _ listed place
    rw [splitRoute_concat] at also
    obtain ⟨passed, other, leads, same⟩ := mem_routes_iff.mp (also less positive)
    rcases List.eq_nil_or_concat passed with rfl | ⟨before, ⟨within, earlier⟩, rfl⟩
    · simp [Param.routeOf] at same
    · rw [List.concat_eq_append] at leads same
      obtain ⟨outer, last⟩ := List.append_inj' ((routeOf_concat ..).symm.trans same) rfl
      obtain ⟨rfl, rfl⟩ := leads.same_list counted reaches outer
      exact ⟨earlier, other, leads, (List.cons.inj last).1⟩

theorem Gapless.mem_routes (gapless : params.Gapless key) (counted : params.Counted) {front : List String}
    {number place : Nat} (listed : front ++ [toString number] ∈ params.routes key) (positive : 0 < place)
    (less : place < number) : front ++ [toString place] ∈ params.routes key := by
  have complete := (gapless_iff counted).mp gapless _ listed place
  rw [splitRoute_concat] at complete
  exact complete less positive

/-- The position of a match goes on from the one before it in the same list, and is the first one otherwise. -/
def Next (first second : List String × Nat) : Prop :=
  second.2 = if first.1 = second.1 then first.2 + 1 else 1

theorem exists_splitRoute (counted : params.Counted) {depth : Nat}
    (deep : ∀ route ∈ params.routes key, route.length = depth + 1) {route : List String}
    (listed : route ∈ params.routes key) :
    ∃ front, ∃ number : Nat, route = front ++ [toString number] ∧ front.length = depth ∧ 0 < number := by
  obtain ⟨places, same, positive⟩ := goesOn_of_mem_routes counted listed
  have length := deep route listed
  rw [List.nil_append] at same
  rcases List.eq_nil_or_concat places with rfl | ⟨before, number, rfl⟩
  · simp [same] at length
  · rw [List.concat_eq_append] at same positive
    refine ⟨before.map toString, number, by simpa using same, ?_, positive number (by simp)⟩
    simpa [same] using length

theorem lt_of_branches {front : List String} {number place : Nat}
    (branches : Param.Branches (front ++ [toString number]) (front ++ [toString place])) : number < place := by
  have follows := follows_of_branches branches
  rw [splitRoute_concat, splitRoute_concat] at follows
  exact follows rfl

theorem next_of_neighbours {before behind : List (List String)} {front front' : List String}
    {number number' : Nat} (depth : front.length = front'.length) (positive : 0 < number')
    (branches : (before ++ (front ++ [toString number]) :: (front' ++ [toString number']) :: behind).Pairwise
      Param.Branches)
    (complete : ∀ place : Nat, 0 < place → place < number' → front' ++ [toString place] ∈
      before ++ (front ++ [toString number]) :: (front' ++ [toString number']) :: behind) :
    Next (front, number) (front', number') := by
  rw [List.pairwise_append, List.pairwise_cons, List.pairwise_cons] at branches
  obtain ⟨-, ⟨fromFirst, fromSecond, -⟩, fromBefore⟩ := branches
  rw [Next]
  by_cases same : front = front'
  · subst same
    have less := lt_of_branches (fromFirst _ (List.mem_cons_self ..))
    rw [if_pos rfl]
    by_contra different
    have missing := complete (number + 1) (by omega) (by omega)
    simp only [List.mem_append, List.mem_cons] at missing
    rcases missing with inside | here | here | inside
    · have := lt_of_branches (fromBefore _ inside _ (List.mem_cons_self ..))
      omega
    · have := toString_inj.mp (List.cons.inj (List.append_inj' here rfl).2).1
      omega
    · have := toString_inj.mp (List.cons.inj (List.append_inj' here rfl).2).1
      omega
    · have := lt_of_branches (fromSecond _ inside)
      omega
  · rw [if_neg same]
    by_contra different
    have missing := complete 1 (by omega) (by omega)
    simp only [List.mem_append, List.mem_cons] at missing
    rcases missing with inside | here | here | inside
    · -- The first match would stand between two matches of one list without standing in it.
      have leaves := (fromBefore _ inside _ (List.mem_cons_self ..)).between
        (fromFirst _ (List.mem_cons_self ..)) (by simp [depth])
      rw [List.dropLast_concat] at leaves
      exact same leaves
    · exact same (List.append_inj' here rfl).1.symm
    · have := toString_inj.mp (List.cons.inj (List.append_inj' here rfl).2).1
      omega
    · have := lt_of_branches (fromSecond _ inside)
      omega

/-- Matches that are neighbours stand at positions that are neighbours, or the second one is the first one in
its list. -/
theorem isChain_next (counted : params.Counted) {depth : Nat}
    (deep : ∀ route ∈ params.routes key, route.length = depth + 1) (gapless : params.Gapless key) :
    List.IsChain Next ((params.routes key).map splitRoute) := by
  have branches := pairwise_routes counted key
  rw [List.isChain_map, List.isChain_iff_forall_rel_of_append_cons_cons]
  intro first second before behind whole
  have entered : first ∈ params.routes key ∧ second ∈ params.routes key := by simp [whole]
  obtain ⟨front, number, rfl, length, -⟩ := exists_splitRoute counted deep entered.1
  obtain ⟨front', number', rfl, length', positive⟩ := exists_splitRoute counted deep entered.2
  rw [splitRoute_concat, splitRoute_concat]
  have earlier : ∀ place : Nat, 0 < place → place < number' →
      front' ++ [toString place] ∈ params.routes key :=
    fun place => gapless.mem_routes counted entered.2
  rw [whole] at branches earlier
  exact next_of_neighbours (length.trans length'.symm) positive branches earlier

theorem position_head? (counted : params.Counted) {depth : Nat}
    (deep : ∀ route ∈ params.routes key, route.length = depth + 1) (gapless : params.Gapless key)
    {first : List String} {rest : List (List String)} (whole : params.routes key = first :: rest) :
    (splitRoute first).2 = 1 := by
  have branches := pairwise_routes counted key
  have listed : first ∈ params.routes key := by simp [whole]
  obtain ⟨front, number, rfl, -, positive⟩ := exists_splitRoute counted deep listed
  rw [splitRoute_concat]
  by_contra different
  simp only at different
  have missing : front ++ [toString 1] ∈ params.routes key :=
    gapless.mem_routes counted listed (by omega) (by omega)
  rw [whole] at branches missing
  rcases List.mem_cons.mp missing with here | inside
  · have := toString_inj.mp (List.cons.inj (List.append_inj' here rfl).2).1
    omega
  · have := lt_of_branches ((List.pairwise_cons.mp branches).1 _ inside)
    omega

theorem map_param_numberFrom (numbering : Numbering) (found : List Match) :
    (numberFrom numbering found).map Numbered.param = found.map Match.param := by
  induction found generalizing numbering with
  | nil => rfl
  | cons entry rest ih => rw [numberFrom, List.map_cons, List.map_cons, ih]

theorem length_numberFrom (numbering : Numbering) (found : List Match) :
    (numberFrom numbering found).length = found.length := by
  rw [← List.length_map Numbered.param, map_param_numberFrom, List.length_map]

theorem positive_numberFrom {numbering : Numbering} {found : List Match}
    (positive : ∀ entry ∈ found, 0 < (splitRoute entry.route).2) :
    ∀ entry ∈ numberFrom numbering found, 0 < entry.number := by
  induction found generalizing numbering with
  | nil => simp [numberFrom]
  | cons entry rest ih =>
      obtain ⟨here, later⟩ := List.forall_mem_cons.mp positive
      rw [numberFrom]
      exact List.forall_mem_cons.mpr ⟨Nat.add_pos_left here _, ih later⟩

/-- Where each match is next to the one before it, the numbers go on from it one by one. -/
theorem number_numberFrom {found : List Match} {outer : List String × Nat} (offset : Nat)
    (chain : List.IsChain Next (outer :: found.map fun entry => splitRoute entry.route)) :
    (numberFrom ⟨offset, some outer⟩ found).map Numbered.number =
      List.range' (outer.2 + offset + 1) found.length := by
  induction found generalizing outer offset with
  | nil => rfl
  | cons entry rest ih =>
      rw [List.map_cons, List.isChain_cons_cons] at chain
      obtain ⟨next, chain⟩ := chain
      rw [Next] at next
      rw [numberFrom_cons, List.map_cons, ih _ chain, List.length_cons, List.range'_succ]
      by_cases same : outer.1 = (splitRoute entry.route).1
      · rw [if_pos same] at next
        have goesOn : outer.2 + 1 + offset = outer.2 + offset + 1 := by omega
        simp only [if_pos same, next, goesOn]
      · rw [if_neg same] at next
        have begins : 1 + (offset + outer.2) = outer.2 + offset + 1 := by omega
        simp only [if_neg same, next, begins]

/-- What a key matches is numbered in its order, from one on and with no number given twice. Where all ways to a
match pass as many lists, at least one, and enter the first items of each innermost list, each number is the
place among the results. This does not depend on whether the key names positions itself. -/
theorem findAll_numbers {json : Json} (read : ofJson json = .ok params) (key : String) :
    (params.findAll key).map Numbered.param = params.resolve key ∧
      (∀ found ∈ params.findAll key, 1 ≤ found.number) ∧
      ((params.findAll key).map Numbered.number).Pairwise (· < ·) ∧
      ∀ depth, 0 < depth →
        (∀ passed found, params.Reaches key passed found → passed.length = depth) → params.Gapless key →
        (params.findAll key).map Numbered.number = List.range' 1 (params.findAll key).length := by
  have counted := counted_ofJson read
  refine ⟨map_param_numberFrom {} _, ?_, increasing_findAll counted key, ?_⟩
  · refine positive_numberFrom fun entry listed => positive_of_goesOn ?_
    exact goesOn_of_mem_routes counted (List.mem_map_of_mem listed)
  · intro depth positive passes gapless
    obtain ⟨outer, rfl⟩ := Nat.exists_eq_succ_of_ne_zero positive.ne'
    have deep : ∀ route ∈ params.routes key, route.length = outer + 1 := by
      intro route listed
      obtain ⟨passed, found, reaches, rfl⟩ := mem_routes_iff.mp listed
      rw [Param.routeOf, List.length_map]
      exact passes passed found reaches
    have chain := isChain_next counted deep gapless
    have start : ∀ first rest, params.routes key = first :: rest → (splitRoute first).2 = 1 :=
      fun first rest => position_head? counted deep gapless
    rw [findAll, length_numberFrom]
    rw [routes] at chain start
    cases matched : params.matching key with
    | nil => rfl
    | cons first rest =>
        rw [matched, List.map_cons] at chain start
        have one := start _ _ rfl
        rw [List.map_cons, List.map_map] at chain
        have run := number_numberFrom 0 chain
        rw [one] at run
        rw [List.length_cons, List.range'_succ, ← run, numberFrom, List.map_cons]
        exact congrArg (· :: _) one

def squadMembers : List (String × Json) :=
  [("Squads", .array [
    .object [("Members", .array [.object [("Name", .string "Ada")], .object [("Name", .string "Bo")]])],
    .object [("Members", .array [])],
    .object [("Members", .array [.object [("Name", .string "Cy")], .null])]])]

/-- The names of all members of all squads are numbered in one sequence. -/
theorem findAll_numbers_squads :
    let params := ofMembers squadMembers
    let key := "Squads.Members.Name"
    (ofJson (.object squadMembers) = .ok params ∧ 0 < 2 ∧
        (∀ passed found, params.Reaches key passed found → passed.length = 2) ∧ params.Gapless key) ∧
      params.routes key = [["1", "1"], ["1", "2"], ["3", "1"]] ∧
      (params.findAll key).map Numbered.number = [1, 2, 3] := by
  intro params key
  have read : ofJson (.object squadMembers) = .ok params := rfl
  have shown : params.routes key = [["1", "1"], ["1", "2"], ["3", "1"]] := by decide +kernel
  have three : (params.findAll key).length = 3 := by decide +kernel
  have passes : ∀ passed found, params.Reaches key passed found → passed.length = 2 := by
    intro passed found reaches
    have listed := mem_routes_iff.mpr ⟨passed, found, reaches, rfl⟩
    rw [shown] at listed
    have length : (Param.routeOf passed).length = 2 := by
      simp only [List.mem_cons, List.not_mem_nil, or_false] at listed
      rcases listed with same | same | same <;> rw [same] <;> rfl
    rwa [Param.routeOf, List.length_map] at length
  have gapless : params.Gapless key := by
    rw [gapless_iff (counted_ofJson read), shown]
    decide +kernel
  refine ⟨⟨read, by decide, passes, gapless⟩, shown, ?_⟩
  rw [(findAll_numbers read key).2.2.2 2 (by decide) passes gapless, three]
  rfl

end Params

end WordTemplate
