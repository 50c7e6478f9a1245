import WordTemplate.Proofs.Params.Pending
import WordTemplate.Proofs.Placeholder.Braceless

/-! What holds of all parameters holds of those that a key leads to, and what becomes of the parameters
when their values are changed one after the other. -/

namespace WordTemplate

namespace Param

variable {key : String}

theorem withAll_eq (param : Param) : param.withAll = param :: withAllOf param.children := by
  cases param
  rw [withAll]

theorem mem_withAll_self (param : Param) : param ∈ param.withAll := by
  rw [withAll_eq]
  exact List.mem_cons_self ..

theorem mem_withAllOf {params : List Param} {found : Param} :
    found ∈ withAllOf params ↔ ∃ param ∈ params, found ∈ param.withAll := by
  induction params with
  | nil => simp [withAllOf]
  | cons param rest ih => simp [withAllOf, ih]

theorem mem_withAllOf_buildItems {place : Place} {position : Nat} {item : Json} {rest : List Json}
    {found : Param} (member : found ∈ withAllOf (buildItems place position (item :: rest))) :
    (∃ param, build place (toString position) item = some param ∧ found ∈ param.withAll) ∨
      found ∈ withAllOf (buildItems place (position + 1) rest) := by
  rw [buildItems, mem_withAllOf] at member
  obtain ⟨param, listed, inside⟩ := member
  rw [List.mem_append, Option.mem_toList] at listed
  exact listed.imp (fun built => ⟨param, built, inside⟩) fun later =>
    mem_withAllOf.mpr ⟨param, later, inside⟩

theorem mem_withAllOf_buildMembers {place : Place} {name : String} {value : Json}
    {rest : List (String × Json)} {found : Param}
    (member : found ∈ withAllOf (buildMembers place ((name, value) :: rest))) :
    (∃ param, build place name value = some param ∧ found ∈ param.withAll) ∨
      found ∈ withAllOf (buildMembers place rest) := by
  rw [buildMembers, mem_withAllOf] at member
  obtain ⟨param, listed, inside⟩ := member
  rw [List.mem_append, Option.mem_toList] at listed
  exact listed.imp (fun built => ⟨param, built, inside⟩) fun later =>
    mem_withAllOf.mpr ⟨param, later, inside⟩

theorem mem_withAll_of_child {param found : Param} {children : List Param}
    (same : param.children = children) (member : found ∈ withAllOf children) :
    found ∈ param.withAll := by
  rw [withAll_eq, same]
  exact List.mem_cons_of_mem _ member

mutual

theorem mem_of_getAt? {param found : Param} (looked : getAt? key param = some found) :
    found ∈ param.withAll := by
  cases param with
  | mk name value kind absoluteKey compactKey level children =>
      rw [getAt?] at looked
      split at looked
      · cases looked
        exact mem_withAll_self _
      · exact mem_withAll_of_child rfl (mem_of_getAmong? looked)

theorem mem_of_getAmong? {params : List Param} {found : Param}
    (looked : getAmong? key params = some found) : found ∈ withAllOf params := by
  cases params with
  | nil => simp [getAmong?] at looked
  | cons param rest =>
      rw [getAmong?] at looked
      rw [withAllOf, List.mem_append]
      split at looked
      · exact .inl (mem_of_getAt? looked)
      · exact .inr (mem_of_getAmong? looked)

end

mutual

theorem absoluteKey_of_getAt? {param found : Param}
    (looked : getAt? key param = some found) : found.absoluteKey = key := by
  cases param with
  | mk name value kind absoluteKey compactKey level children =>
      rw [getAt?] at looked
      split at looked
      · rename_i here
        cases looked
        exact here
      · exact absoluteKey_of_getAmong? looked

theorem absoluteKey_of_getAmong? {params : List Param} {found : Param}
    (looked : getAmong? key params = some found) : found.absoluteKey = key := by
  cases params with
  | nil => simp [getAmong?] at looked
  | cons param rest =>
      rw [getAmong?] at looked
      split at looked
      · exact absoluteKey_of_getAt? looked
      · exact absoluteKey_of_getAmong? looked

end

mutual

theorem mem_of_matchesAt {route segments : List String} {param : Param} {found : Match}
    (listed : found ∈ matchesAt route segments param) : found.param ∈ param.withAll := by
  cases param with
  | mk name value kind absoluteKey compactKey level children =>
      cases segments with
      | nil =>
          simp only [matchesAt, List.mem_singleton] at listed
          subst listed
          exact mem_withAll_self _
      | cons segment rest =>
          rw [matchesAt] at listed
          apply mem_withAll_of_child rfl
          split at listed
          · split at listed
            · exact mem_of_matchesNamed listed
            · exact mem_of_matchesItems listed
          · exact mem_of_matchesNamed listed

theorem mem_of_matchesNamed {route : List String} {name : String} {segments : List String}
    {params : List Param} {found : Match}
    (listed : found ∈ matchesNamed route name segments params) :
    found.param ∈ withAllOf params := by
  cases params with
  | nil => simp [matchesNamed] at listed
  | cons param rest =>
      rw [matchesNamed] at listed
      rw [withAllOf, List.mem_append]
      split at listed
      · exact .inl (mem_of_matchesAt listed)
      · exact .inr (mem_of_matchesNamed listed)

theorem mem_of_matchesItems {route segments : List String} {params : List Param} {found : Match}
    (listed : found ∈ matchesItems route segments params) : found.param ∈ withAllOf params := by
  cases params with
  | nil => simp [matchesItems] at listed
  | cons param rest =>
      rw [matchesItems, List.mem_append] at listed
      rw [withAllOf, List.mem_append]
      rcases listed with here | later
      · exact .inl (mem_of_matchesAt here)
      · exact .inr (mem_of_matchesItems later)

end

theorem withAll_subset {param found : Param} (member : found ∈ param.withAll) :
    found.withAll ⊆ param.withAll := by
  suffices (∀ found ∈ param.withAll, found.withAll ⊆ param.withAll) from this found member
  refine @Param.rec (fun param => ∀ found ∈ param.withAll, found.withAll ⊆ param.withAll)
    (fun params => ∀ found ∈ withAllOf params, found.withAll ⊆ withAllOf params) ?_ ?_ ?_ param
  · intro name value kind absoluteKey compactKey level children ih found member
    rw [withAll, List.mem_cons] at member
    rcases member with here | below
    · exact here ▸ List.Subset.refl _
    · exact fun other inside => mem_withAll_of_child rfl (ih found below inside)
  · simp [withAllOf]
  · intro param rest first others found member
    rw [withAllOf, List.mem_append] at member
    rw [withAllOf]
    rcases member with here | later
    · exact List.Subset.trans (first found here) (List.subset_append_left ..)
    · exact List.Subset.trans (others found later) (List.subset_append_right ..)

section Traverse

variable {σ : Type} {change : σ → Param → σ × Kind × String}

theorem traverse_eq (state : σ) (param : Param) :
    (traverse change state param).2 =
      { param with
        kind := (change state param).2.1
        value := (change state param).2.2
        children := (traverseAll change (change state param).1 param.children).2 } := by
  cases param
  rw [traverse]

mutual

theorem traverse_fst (keeps : σ → Prop)
    (step : ∀ state param, keeps state → keeps (change state param).1) {state : σ} {param : Param}
    (start : keeps state) : keeps (traverse change state param).1 := by
  cases param with
  | mk name value kind absoluteKey compactKey level children =>
      rw [traverse]
      exact traverseAll_fst keeps step (step state _ start)

theorem traverseAll_fst (keeps : σ → Prop)
    (step : ∀ state param, keeps state → keeps (change state param).1) {state : σ} {params : List Param}
    (start : keeps state) : keeps (traverseAll change state params).1 := by
  cases params with
  | nil => exact start
  | cons param rest =>
      rw [traverseAll]
      exact traverseAll_fst keeps step (traverse_fst keeps step start)

end

theorem map_key_traverseAll (state : σ) (params : List Param) :
    (traverseAll change state params).2.map Param.key = params.map Param.key := by
  induction params generalizing state with
  | nil => rfl
  | cons param rest ih => simp [traverseAll, traverse_eq, ih]

mutual

theorem mem_withAll_traverse {state : σ} {param found : Param}
    (member : found ∈ (traverse change state param).2.withAll) :
    ∃ inner, ∃ origin ∈ param.withAll, found.key = origin.key ∧
      (found.kind, found.value) = (change inner origin).2 := by
  cases param with
  | mk name value kind absoluteKey compactKey level children =>
      rw [withAll_eq, traverse_eq, List.mem_cons] at member
      rcases member with here | below
      · subst here
        exact ⟨state, _, mem_withAll_self _, rfl, rfl⟩
      · obtain ⟨inner, origin, listed, same⟩ := mem_withAll_traverseAll below
        exact ⟨inner, origin, mem_withAll_of_child rfl listed, same⟩

theorem mem_withAll_traverseAll {state : σ} {params : List Param} {found : Param}
    (member : found ∈ withAllOf (traverseAll change state params).2) :
    ∃ inner, ∃ origin ∈ withAllOf params, found.key = origin.key ∧
      (found.kind, found.value) = (change inner origin).2 := by
  cases params with
  | nil => simp [traverseAll, withAllOf] at member
  | cons param rest =>
      simp only [traverseAll, withAllOf, List.mem_append] at member ⊢
      rcases member with here | later
      · obtain ⟨inner, origin, listed, same⟩ := mem_withAll_traverse here
        exact ⟨inner, origin, .inl listed, same⟩
      · obtain ⟨inner, origin, listed, same⟩ := mem_withAll_traverseAll later
        exact ⟨inner, origin, .inr listed, same⟩

end

mutual

theorem getAt?_traverse (change : σ → Param → σ × Kind × String) (state : σ) {param found : Param} (looked : getAt? key param = some found) :
    ∃ inner, getAt? key (traverse change state param).2 = some (traverse change inner found).2 := by
  cases param with
  | mk name value kind absoluteKey compactKey level children =>
      rw [getAt?] at looked
      rw [traverse_eq, getAt?]
      by_cases here : absoluteKey = key
      · rw [if_pos here] at looked ⊢
        cases looked
        exact ⟨state, by rw [traverse_eq]⟩
      · rw [if_neg here] at looked ⊢
        exact getAmong?_traverseAll change _ looked

theorem getAmong?_traverseAll (change : σ → Param → σ × Kind × String) (state : σ) {params : List Param} {found : Param}
    (looked : getAmong? key params = some found) :
    ∃ inner, getAmong? key (traverseAll change state params).2 =
      some (traverse change inner found).2 := by
  cases params with
  | nil => simp [getAmong?] at looked
  | cons param rest =>
      rw [getAmong?] at looked
      simp only [traverseAll, getAmong?]
      rw [show (traverse change state param).2.absoluteKey = param.absoluteKey by rw [traverse_eq]]
      split at looked
      · rename_i leads
        rw [if_pos leads]
        exact getAt?_traverse change _ looked
      · rename_i leads
        rw [if_neg leads]
        exact getAmong?_traverseAll change _ looked

end

mutual

theorem keyed_traverse (lists : ∀ state param, (change state param).2.1 = .list → param.kind = .list)
    {state : σ} {parent : String} {param : Param} (keyed : param.Keyed parent) :
    (traverse change state param).2.Keyed parent := by
  cases param with
  | mk name value kind absoluteKey compactKey level children =>
      obtain ⟨joined, positions, below⟩ := keyed_iff.mp keyed
      rw [keyed_iff, traverse_eq]
      refine ⟨joined, ?_, keyedAll_traverseAll lists below⟩
      intro isList child member
      have listed := List.mem_map_of_mem (f := Param.key) member
      rw [map_key_traverseAll] at listed
      obtain ⟨origin, inside, same⟩ := List.mem_map.mp listed
      exact same ▸ positions (lists state _ isList) origin inside

theorem keyedAll_traverseAll
    (lists : ∀ state param, (change state param).2.1 = .list → param.kind = .list) {state : σ}
    {parent : String} {params : List Param} (keyed : KeyedAll parent params) :
    KeyedAll parent (traverseAll change state params).2 := by
  cases params with
  | nil => trivial
  | cons param rest =>
      exact ⟨keyed_traverse lists keyed.1, keyedAll_traverseAll lists keyed.2⟩

end

end Traverse

end Param

namespace Params

variable {params : Params} {key : String}

theorem mem_all_of_get? {found : Param} (looked : params.get? key = some found) :
    found ∈ params.all :=
  Param.mem_of_getAmong? looked

theorem mem_all_of_matching {found : Match} (listed : found ∈ params.matching key) :
    found.param ∈ params.all := by
  rw [matching] at listed
  split at listed
  · simp at listed
  · exact Param.mem_of_matchesNamed listed

theorem mem_all_of_numberFrom {numbering : Numbering} {matched : List Match} {found : Numbered}
    (listed : found ∈ numberFrom numbering matched) :
    ∃ origin ∈ matched, origin.param = found.param := by
  induction matched generalizing numbering with
  | nil => simp [numberFrom] at listed
  | cons first rest ih =>
      simp only [numberFrom, List.mem_cons] at listed
      rcases listed with here | later
      · exact ⟨first, by simp, by rw [here]⟩
      · obtain ⟨origin, inside, same⟩ := ih later
        exact ⟨origin, by simp [inside], same⟩

theorem mem_all_of_findAll {found : Numbered} (listed : found ∈ params.findAll key) :
    found.param ∈ params.all := by
  obtain ⟨origin, inside, same⟩ := mem_all_of_numberFrom listed
  exact same ▸ mem_all_of_matching inside

theorem mem_all_of_child {param child : Param} (member : param ∈ params.all)
    (below : child ∈ param.children) : child ∈ params.all := by
  obtain ⟨top, listed, inside⟩ := Param.mem_withAllOf.mp member
  apply Param.mem_withAllOf.mpr
  refine ⟨top, listed, Param.withAll_subset inside ?_⟩
  apply Param.mem_withAll_of_child rfl
  exact Param.mem_withAllOf.mpr ⟨child, below, Param.mem_withAll_self child⟩

/-- No key and no scalar value holds a brace. -/
structure Braceless (params : Params) : Prop where
  key : ∀ param ∈ params.all, WordTemplate.Braceless param.key.toList
  value : ∀ param ∈ params.all, param.isScalar = true → WordTemplate.Braceless param.value.toList

end Params

end WordTemplate
