import WordTemplate.Proofs.Filling.RowTrees

/-! Why rows do not repeat for ever: the keys of a copy that are pending at a list with items weigh
more than those of the row, and they cannot weigh more than the parameters are deep. -/

namespace WordTemplate.Filling

open Markup

section Distinct

theorem foldl_distinct_subset (lists kept : List Param) {list : Param}
    (member : list ∈ lists.foldl (fun (kept : List Param) list =>
      if kept.any fun other => other.absoluteKey = list.absoluteKey then kept else kept ++ [list])
      kept) : list ∈ kept ∨ list ∈ lists := by
  induction lists generalizing kept with
  | nil => exact .inl member
  | cons first rest ih =>
      rw [List.foldl_cons] at member
      rcases ih _ member with before | later
      · split at before
        · exact .inl before
        · rcases List.mem_append.mp before with old | new
          · exact .inl old
          · exact .inr (by rw [List.mem_singleton.mp new]; exact List.mem_cons_self ..)
      · exact .inr (List.mem_cons_of_mem _ later)

theorem mem_of_mem_distinct {lists : List Param} {list : Param} (member : list ∈ distinct lists) :
    list ∈ lists := by
  rcases foldl_distinct_subset lists [] member with none | listed
  · simp at none
  · exact listed

theorem exists_foldl_distinct (lists kept : List Param) {list : Param}
    (present : (∃ other ∈ kept, other.absoluteKey = list.absoluteKey) ∨ list ∈ lists) :
    ∃ other ∈ lists.foldl (fun (kept : List Param) list =>
      if kept.any fun other => other.absoluteKey = list.absoluteKey then kept else kept ++ [list])
      kept, other.absoluteKey = list.absoluteKey := by
  induction lists generalizing kept with
  | nil =>
      rcases present with found | none
      · exact found
      · simp at none
  | cons first rest ih =>
      rw [List.foldl_cons]
      apply ih
      rcases present with ⟨other, old, same⟩ | listed
      · refine .inl ⟨other, ?_, same⟩
        split
        · exact old
        · exact List.mem_append_left _ old
      · rcases List.mem_cons.mp listed with here | later
        · subst here
          left
          split
          · rename_i found
            obtain ⟨other, old, same⟩ := List.any_eq_true.mp found
            exact ⟨other, old, by simpa using same⟩
          · exact ⟨list, by simp, rfl⟩
        · exact .inr later

theorem exists_mem_distinct {lists : List Param} {list : Param} (member : list ∈ lists) :
    ∃ other ∈ distinct lists, other.absoluteKey = list.absoluteKey :=
  exists_foldl_distinct lists [] (.inr member)

end Distinct

variable {params : Params}

theorem repeating?_eq_some {placeholder : Placeholder} {list : Param} :
    repeating? params placeholder = some list ↔
      placeholder.isInline = false ∧
        ∃ pending, params.pendingList? placeholder.key = some pending ∧ pending.list = list := by
  rw [repeating?]
  cases placeholder.isInline <;> simp

theorem mem_of_mem_listsOf {texts : List String} {list : Param} (member : list ∈ listsOf params texts) :
    ∃ text ∈ texts, ∃ placeholder ∈ Placeholder.scan text,
      repeating? params placeholder = some list := by
  have listed := mem_of_mem_distinct member
  obtain ⟨text, inTexts, found⟩ := List.mem_flatMap.mp listed
  obtain ⟨placeholder, scanned, repeats⟩ := List.mem_filterMap.mp found
  exact ⟨text, inTexts, placeholder, scanned, repeats⟩

theorem exists_mem_listsOf {texts : List String} {text : String} (listed : text ∈ texts)
    {placeholder : Placeholder} (scanned : placeholder ∈ Placeholder.scan text) {list : Param}
    (repeats : repeating? params placeholder = some list) :
    ∃ other ∈ listsOf params texts, other.absoluteKey = list.absoluteKey :=
  exists_mem_distinct (List.mem_flatMap.mpr
    ⟨text, listed, List.mem_filterMap.mpr ⟨placeholder, scanned, repeats⟩⟩)

theorem listsOf_eq_nil_iff {texts : List String} :
    listsOf params texts = [] ↔
      ∀ text ∈ texts, ∀ placeholder ∈ Placeholder.scan text,
        repeating? params placeholder = none := by
  constructor
  · intro none text listed placeholder scanned
    cases repeats : repeating? params placeholder with
    | none => rfl
    | some list =>
        obtain ⟨other, member, -⟩ := exists_mem_listsOf listed scanned repeats
        rw [none] at member
        simp at member
  · intro settled
    rw [List.eq_nil_iff_forall_not_mem]
    intro list member
    obtain ⟨text, listed, placeholder, scanned, repeats⟩ := mem_of_mem_listsOf member
    rw [settled text listed placeholder scanned] at repeats
    simp at repeats

theorem isPosition_itemKey {list : Param}
    (positions : ∀ item ∈ list.children, Key.isPosition item.key = true) (position : Nat) :
    Key.isPosition (itemKey list position) = true := by
  rw [itemKey]
  cases found : list.children[position]? with
  | none => exact Param.isPosition_toString (position + 1)
  | some item => exact positions item (List.mem_of_getElem? found)

def Pendings (params : Params) (lists : List Param) : Prop :=
  ∀ list ∈ lists, ∃ key pending, params.pendingList? key = some pending ∧ pending.list = list

theorem pendings_listsOf (params : Params) (texts : List String) : Pendings params (listsOf params texts) := by
  intro list member
  obtain ⟨text, -, placeholder, -, repeats⟩ := mem_of_mem_listsOf member
  obtain ⟨-, pending, found, same⟩ := repeating?_eq_some.mp repeats
  exact ⟨placeholder.key, pending, found, same⟩

/-- A placeholder in the copy for a position. -/
def indexPlaceholder (params : Params) (lists : List Param) (position : Nat)
    (placeholder : Placeholder) : Placeholder :=
  { placeholder with
    key := (indexedKey? params lists position placeholder.key).getD placeholder.key }

theorem indexText_eq (lists : List Param) (position : Nat) (text : String) :
    indexText params lists position text =
      Placeholder.rewrite (indexPlaceholder params lists position) text := rfl

theorem indexedKey?_eq_some {lists : List Param} {position : Nat} {key next : String}
    (indexed : indexedKey? params lists position key = some next) :
    ∃ pending, params.pendingList? key = some pending ∧
      ∃ list ∈ lists, list.absoluteKey = pending.list.absoluteKey ∧
        next = pending.indexed (itemKey list position) := by
  simp only [indexedKey?, Option.bind_eq_bind, Option.bind_eq_some_iff, Option.pure_def,
    Option.some.injEq] at indexed
  obtain ⟨pending, found, list, first, rfl⟩ := indexed
  have same := List.find?_some first
  exact ⟨pending, found, list, List.mem_of_find?_eq_some first, by simpa using same, rfl⟩

theorem isKey_indexPlaceholder (keyed : params.Keyed) {lists : List Param}
    (pendings : Pendings params lists) (position : Nat) {placeholder : Placeholder}
    (isKey : Placeholder.IsKey placeholder.key.toList) :
    Placeholder.IsKey (indexPlaceholder params lists position placeholder).key.toList := by
  rw [indexPlaceholder]
  cases indexed : indexedKey? params lists position placeholder.key with
  | none => exact isKey
  | some next =>
      obtain ⟨pending, found, list, member, -, rfl⟩ := indexedKey?_eq_some indexed
      obtain ⟨key, other, foundOther, same⟩ := pendings list member
      have positions := PendingList.isPosition_of_pendingList? keyed foundOther
      rw [same] at positions
      exact Placeholder.isKey_indexed keyed found isKey (isPosition_itemKey positions position)

theorem scan_indexText (keyed : params.Keyed) {lists : List Param}
    (pendings : Pendings params lists) (position : Nat) (text : String) :
    Placeholder.scan (indexText params lists position text) =
      (Placeholder.scan text).map (indexPlaceholder params lists position) := by
  rw [indexText_eq, Placeholder.scan_rewrite]
  intro placeholder member
  have proper := Piece.proper_of_mem_scan member
  exact proper.withKey (isKey_indexPlaceholder keyed pendings position proper.isKey)

/-- Placeholders that are pending at a list with items weigh so much that their keys can take in no
more than `slack` further positions. -/
def Weighty (params : Params) (slack : Nat) (texts : List String) : Prop :=
  ∀ text ∈ texts, ∀ placeholder ∈ Placeholder.scan text, placeholder.isInline = false →
    ∀ pending, params.pendingList? placeholder.key = some pending →
      pending.list.children ≠ [] → params.depth + 1 ≤ Key.weight placeholder.key + slack

theorem weighty_of_depth_lt {slack : Nat} (bound : params.depth < slack) (texts : List String) :
    Weighty params slack texts := by
  intro text _ placeholder _ _ pending _ _
  omega

/-- Keys that weigh too much for any list with items to be pending repeat nothing. -/
theorem copyCount_of_weighty (keyed : params.Keyed) {texts : List String}
    (weighty : Weighty params 0 texts) : copyCount (listsOf params texts) = 0 := by
  have empty : ∀ list ∈ listsOf params texts, list.itemCount = 0 := by
    intro list member
    obtain ⟨text, listed, placeholder, scanned, repeats⟩ := mem_of_mem_listsOf member
    obtain ⟨single, pending, found, rfl⟩ := repeating?_eq_some.mp repeats
    have none : pending.list.children = [] := by
      by_contra items
      have heavy := weighty text listed placeholder scanned single pending found items
      have light := PendingList.weight_le_depth keyed found items
      omega
    simp [Param.itemCount, none]
  rw [copyCount]
  generalize listsOf params texts = lists at empty
  induction lists with
  | nil => rfl
  | cons list rest ih =>
      rw [List.map_cons, List.foldl_cons, empty list (by simp)]
      exact ih fun other member => empty other (by simp [member])

/-- A copy has less slack than the row. -/
theorem weighty_indexText (keyed : params.Keyed) {slack : Nat} {texts : List String}
    (weighty : Weighty params (slack + 1) texts) (position : Nat) :
    Weighty params slack (texts.map (indexText params (listsOf params texts) position)) := by
  have pendings := pendings_listsOf params texts
  intro text listed placeholder scanned single next foundNext items
  obtain ⟨old, inTexts, rfl⟩ := List.mem_map.mp listed
  rw [scan_indexText keyed pendings] at scanned
  obtain ⟨former, member, rfl⟩ := List.mem_map.mp scanned
  have isKey := (Piece.proper_of_mem_scan member).isKey
  have start := Placeholder.head?_segments_of_isKey isKey
  cases found : params.pendingList? former.key with
  | none =>
      have kept : indexedKey? params (listsOf params texts) position former.key = none := by
        simp [indexedKey?, found]
      simp [indexPlaceholder, kept, found] at foundNext
  | some pending =>
      have repeats : repeating? params former = some pending.list :=
        repeating?_eq_some.mpr ⟨single, pending, found, rfl⟩
      obtain ⟨other, inLists, same⟩ := exists_mem_listsOf inTexts member repeats
      obtain ⟨list, first⟩ : ∃ list, (listsOf params texts).find? (fun list =>
          list.absoluteKey = pending.list.absoluteKey) = some list := by
        rw [← Option.isSome_iff_exists, List.find?_isSome]
        exact ⟨other, inLists, by simpa using same⟩
      have turned : (indexPlaceholder params (listsOf params texts) position former).key =
          pending.indexed (itemKey list position) := by
        simp [indexPlaceholder, indexedKey?, found, first]
      obtain ⟨key, listPending, foundList, rfl⟩ :=
        pendings list (List.mem_of_find?_eq_some first)
      have position := isPosition_itemKey
        (PendingList.isPosition_of_pendingList? keyed foundList) position
      rw [turned] at foundNext ⊢
      by_cases none : pending.list.children = []
      · obtain ⟨rest, again⟩ :=
          PendingList.pendingList?_indexed_of_empty keyed found none start position
        rw [again, Option.some.injEq] at foundNext
        subst foundNext
        exact absurd none items
      · have heavy := weighty old inTexts former member single pending found none
        rw [PendingList.weight_indexed keyed found start position]
        omega

@[simp]
theorem tag_indexElement (lists : List Param) (position : Nat) (element : Element) :
    (indexElement params lists position element).tag = element.tag := rfl

theorem text_indexElement {lists : List Param} {position : Nat} {element : Element}
    (isText : element.tag = Wordml.text) :
    (indexElement params lists position element).text =
      indexText params lists position element.text :=
  if_pos isText

mutual

theorem textsOutside_map (tags : List String) (lists : List Param) (position : Nat) (tree : Tree) :
    textsOutside tags (tree.map (indexElement params lists position)) =
      (textsOutside tags tree).map (indexText params lists position) := by
  cases tree with
  | node element children =>
      rw [Markup.Tree.map, textsOutside, textsOutside, textsOutsideAll_map,
        tag_indexElement]
      by_cases stops : tags.contains element.tag = true
      · rw [if_pos stops, if_pos stops]
        rfl
      · rw [if_neg stops, if_neg stops, List.map_append]
        by_cases isText : element.tag = Wordml.text
        · rw [if_pos isText, if_pos isText, text_indexElement isText]
          rfl
        · rw [if_neg isText, if_neg isText]
          rfl

theorem textsOutsideAll_map (tags : List String) (lists : List Param) (position : Nat)
    (trees : List Tree) :
    textsOutsideAll tags (Tree.mapAll (indexElement params lists position) trees) =
      (textsOutsideAll tags trees).map (indexText params lists position) := by
  cases trees with
  | nil => rfl
  | cons tree rest =>
      rw [Tree.mapAll, textsOutsideAll, textsOutsideAll, textsOutside_map, textsOutsideAll_map,
        List.map_append]

end

theorem ownedTexts_map (inRow : Bool) (lists : List Param) (position : Nat) (tree : Tree) :
    ownedTexts inRow (tree.map (indexElement params lists position)) =
      (ownedTexts inRow tree).map (indexText params lists position) := by
  cases tree with
  | node element children =>
      rw [Markup.Tree.map, ownedTexts, ownedTexts, textsOutsideAll_map, textsOutsideAll_map,
        tag_indexElement]
      by_cases isRow : element.tag = Wordml.row
      · rw [if_pos isRow, if_pos isRow]
      · rw [if_neg isRow, if_neg isRow]
        by_cases isParagraph : (element.tag = Wordml.paragraph && !inRow) = true
        · rw [if_pos isParagraph, if_pos isParagraph]
        · rw [if_neg isParagraph, if_neg isParagraph]
          rfl

end WordTemplate.Filling
