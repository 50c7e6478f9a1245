import WordTemplate.Filling.Inline
import WordTemplate.Proofs.Params.Numbering

/-! The numbers that an inline placeholder for positions gives. Parameters that are no lists are numbered in
one running sequence; a list gives the positions of its items, which begin anew in every list. -/

namespace WordTemplate.Filling

/-- The numbers of one match: the positions of its items if it is a list, and its running number otherwise. -/
def numbersOf (found : Numbered) : List Nat :=
  if found.param.isList then
    found.param.children.map fun item => (Text.number? 10 item.key.toList).getD 0
  else [found.number]

/-- The numbers of all matches of a key, in their order. -/
def inlineNumbers (params : Params) (key : String) : List Nat :=
  (params.findAll key).flatMap numbersOf

variable {params : Params} {found : Numbered}

theorem numbersOf_of_list {list : Param} (isList : list.isList = true) {places : List Nat}
    (named : list.children.map Param.key = places.map toString) (number : Nat) :
    numbersOf ⟨number, list⟩ = places := by
  rw [numbersOf, if_pos isList]
  calc (list.children.map fun item => (Text.number? 10 item.key.toList).getD 0)
      = (list.children.map Param.key).map fun key => (Text.number? 10 key.toList).getD 0 := by
        rw [List.map_map]
        rfl
    _ = places := by
        rw [named, List.map_map]
        exact (List.map_congr_left fun place _ => by
          rw [Function.comp_apply, Text.number?_toString]
          rfl).trans (List.map_id places)

theorem inlineParts_of_asksKey {placeholder : Placeholder} (asks : placeholder.asksKey = true)
    (inOrder : found.param.kind = .list → found.param.InOrder) :
    inlineParts placeholder found = (numbersOf found).map toString := by
  by_cases isList : found.param.isList = true
  · obtain ⟨places, named, -⟩ := inOrder (by simpa [Param.isList] using isList)
    rw [numbersOf_of_list isList named, inlineParts, if_pos isList, ← named]
    simp [asks]
  · rw [numbersOf, if_neg isList, inlineParts, if_neg isList, if_pos asks]
    rfl

theorem increasing_numbersOf (inOrder : found.param.kind = .list → found.param.InOrder) :
    (numbersOf found).Pairwise (· < ·) := by
  by_cases isList : found.param.isList = true
  · obtain ⟨places, named, increasing⟩ := inOrder (by simpa [Param.isList] using isList)
    rw [numbersOf_of_list isList named]
    exact (List.pairwise_cons.mp increasing).2
  · rw [numbersOf, if_neg isList]
    exact List.pairwise_singleton ..

/-- Two matches of which none is a list have increasing running numbers already. -/
theorem pairwise_numbersOf_iff {matched : List Numbered}
    (running : (matched.map Numbered.number).Pairwise (· < ·)) :
    matched.Pairwise (fun earlier later =>
        ∀ number ∈ numbersOf earlier, ∀ next ∈ numbersOf later, number < next) ↔
      matched.Pairwise fun earlier later => earlier.param.isList = true ∨ later.param.isList = true →
        ∀ number ∈ numbersOf earlier, ∀ next ∈ numbersOf later, number < next := by
  constructor
  · intro below
    refine below.imp ?_
    intro earlier later less _
    exact less
  · intro below
    refine ((List.pairwise_map.mp running).and below).imp ?_
    rintro earlier later ⟨less, lists⟩
    by_cases isList : earlier.param.isList = true ∨ later.param.isList = true
    · exact lists isList
    · obtain ⟨left, right⟩ := not_or.mp isList
      simpa [numbersOf, left, right] using less

/-- An inline placeholder for positions gives the numbers of all matches of its key. Matches that are no
lists are numbered in one running sequence. A list gives the positions of its items and is not counted on, so
that all numbers increase exactly where those of a list lie above the ones before it and below the ones
behind it. -/
theorem inlineNumbers_increasing_iff {json : Json} {placeholder : Placeholder} {separator : String}
    (read : Params.ofJson json = .ok params) (asks : placeholder.asksKey = true)
    (separated : placeholder.separator = some separator) (matched : params.findAll placeholder.key ≠ []) :
    inlineValue? params placeholder =
        some (separator.intercalate ((inlineNumbers params placeholder.key).map toString)) ∧
      ((params.findAll placeholder.key).map Numbered.number).Pairwise (· < ·) ∧
      (∀ found ∈ params.findAll placeholder.key, (numbersOf found).Pairwise (· < ·)) ∧
      ((inlineNumbers params placeholder.key).Pairwise (· < ·) ↔
        (params.findAll placeholder.key).Pairwise fun earlier later =>
          earlier.param.isList = true ∨ later.param.isList = true →
            ∀ number ∈ numbersOf earlier, ∀ next ∈ numbersOf later, number < next) := by
  have counted := Params.counted_ofJson read
  have inOrder : ∀ found ∈ params.findAll placeholder.key, found.param.kind = .list → found.param.InOrder :=
    fun found listed => counted found.param (Params.mem_all_of_findAll listed)
  have running := Params.increasing_findAll counted placeholder.key
  have within : ∀ found ∈ params.findAll placeholder.key, (numbersOf found).Pairwise (· < ·) :=
    fun found listed => increasing_numbersOf (inOrder found listed)
  refine ⟨?_, running, within, ?_⟩
  · have parts : (params.findAll placeholder.key).flatMap (inlineParts placeholder) =
        (inlineNumbers params placeholder.key).map toString := by
      rw [inlineNumbers, List.map_flatMap]
      exact List.flatMap_congr fun found listed => inlineParts_of_asksKey asks (inOrder found listed)
    obtain ⟨first, rest, some⟩ := List.exists_cons_of_ne_nil matched
    rw [inlineValue?, separated, ← parts, some]
    rfl
  · rw [inlineNumbers, List.pairwise_flatMap, pairwise_numbersOf_iff running]
    exact and_iff_right within

def friendMembers : List (String × Json) :=
  [("Users", .array [
    .object [("Friends", .array [.object [("Name", .string "Bob")], .object [("Name", .string "Cid")]])],
    .object [("Friends", .array [.object [("Name", .string "Eve")]])]])]

/-- The names of all friends are numbered in one sequence. -/
theorem inlineNumbers_increasing_names :
    let params := Params.ofMembers friendMembers
    let placeholder : Placeholder := ⟨true, "Users.Friends.Name", " , ", some ", ", []⟩
    (Params.ofJson (.object friendMembers) = .ok params ∧ placeholder.asksKey = true ∧
        placeholder.separator = some ", " ∧ params.findAll placeholder.key ≠ []) ∧
      inlineNumbers params placeholder.key = [1, 2, 3] ∧
      inlineValue? params placeholder = some "1, 2, 3" ∧
      (inlineNumbers params placeholder.key).Pairwise (· < ·) := by
  intro params placeholder
  have matched : params.findAll placeholder.key ≠ [] := by
    have two : (params.findAll placeholder.key).length = 3 := by decide +kernel
    intro none
    simp [none] at two
  have numbers : inlineNumbers params placeholder.key = [1, 2, 3] := by decide +kernel
  have read : Params.ofJson (.object friendMembers) = .ok params := rfl
  have all := inlineNumbers_increasing_iff read rfl rfl matched
  refine ⟨⟨read, rfl, rfl, matched⟩, numbers, all.1.trans (by rw [numbers]; rfl), ?_⟩
  rw [numbers]
  decide

/-- The friends themselves are numbered anew for every user. -/
theorem inlineNumbers_repeated_friends :
    let params := Params.ofMembers friendMembers
    let placeholder : Placeholder := ⟨true, "Users.Friends", " , ", some ", ", []⟩
    Placeholder.scan "\x7b\x7b#Users.Friends , \x7d\x7d" = [placeholder] ∧
      (params.findAll placeholder.key).map (fun found => found.param.isList) = [true, true] ∧
      inlineValue? params placeholder = some "1, 2, 1" ∧
      ¬ (inlineNumbers params placeholder.key).Pairwise (· < ·) := by
  decide +kernel

end WordTemplate.Filling
