import WordTemplate.Proofs.Filling.RowKeys

/-! Rows at a place of a tree. A row repeats for what it owns and is expanded where it stands, as long
as nothing around it asks for a repetition. -/

namespace WordTemplate.Filling

open Markup

def textPlaceholders (element : Element) : List Placeholder :=
  if element.tag = Wordml.text then Placeholder.scan element.text else []

def elementPlaceholders (element : Element) : List Placeholder :=
  textPlaceholders element ++
    element.attributes.flatMap fun entry => Placeholder.scan entry.value

/-- All placeholders of a tree. -/
def treePlaceholders (tree : Tree) : List Placeholder :=
  tree.elements.flatMap elementPlaceholders

/-- A row that holds no other row: a table row without table rows below it, or a paragraph outside of
table rows without paragraphs and table rows below it. -/
def IsLowestRow (inRow : Bool) (row : Tree) : Prop :=
  (row.element.tag = Wordml.row ∧ Wordml.row ∉ row.tagsBelow) ∨
    (row.element.tag = Wordml.paragraph ∧ inRow = false ∧ ∀ tag ∈ rowTags, tag ∉ row.tagsBelow)

theorem isLowestRow_map {change : Element → Element}
    (same : ∀ element, (change element).tag = element.tag) {inRow : Bool} {row : Tree}
    (lowest : IsLowestRow inRow row) : IsLowestRow inRow (row.map change) := by
  rw [IsLowestRow, Tree.element_map, same, Tree.tagsBelow_map same]
  exact lowest

mutual

theorem scan_textsOutside {tags : List String} {tree : Tree} {placeholder : Placeholder}
    (member : placeholder ∈ (textsOutside tags tree).flatMap Placeholder.scan) :
    placeholder ∈ tree.elements.flatMap textPlaceholders := by
  cases tree with
  | node element children =>
      rw [textsOutside] at member
      split at member
      · simp at member
      · rw [List.flatMap_append, List.mem_append] at member
        rw [Tree.elements, List.flatMap_cons, List.mem_append]
        rcases member with here | below
        · left
          rw [textPlaceholders]
          split at here <;> rename_i isText
          · rw [if_pos isText]
            simpa using here
          · simp at here
        · exact .inr (scan_textsOutsideAll below)

theorem scan_textsOutsideAll {tags : List String} {trees : List Tree} {placeholder : Placeholder}
    (member : placeholder ∈ (textsOutsideAll tags trees).flatMap Placeholder.scan) :
    placeholder ∈ (Tree.elementsAll trees).flatMap textPlaceholders := by
  cases trees with
  | nil => simp [textsOutsideAll] at member
  | cons tree rest =>
      rw [textsOutsideAll, List.flatMap_append, List.mem_append] at member
      rw [Tree.elementsAll, List.flatMap_append, List.mem_append]
      rcases member with here | later
      · exact .inl (scan_textsOutside here)
      · exact .inr (scan_textsOutsideAll later)

end

mutual

theorem scan_textsOutside_of_free {tags : List String} {tree : Tree}
    (free : ∀ element ∈ tree.elements, tags.contains element.tag = false) :
    (textsOutside tags tree).flatMap Placeholder.scan =
      tree.elements.flatMap textPlaceholders := by
  cases tree with
  | node element children =>
      have here := free element (by simp [Tree.elements])
      have below : (textsOutsideAll tags children).flatMap Placeholder.scan =
          (Tree.elementsAll children).flatMap textPlaceholders := scan_textsOutsideAll_of_free
        fun other member => free other (by simp [Tree.elements, member])
      rw [textsOutside, if_neg (Bool.eq_false_iff.mp here), List.flatMap_append, below, Tree.elements,
        List.flatMap_cons, textPlaceholders]
      split <;> simp

theorem scan_textsOutsideAll_of_free {tags : List String} {trees : List Tree}
    (free : ∀ element ∈ Tree.elementsAll trees, tags.contains element.tag = false) :
    (textsOutsideAll tags trees).flatMap Placeholder.scan =
      (Tree.elementsAll trees).flatMap textPlaceholders := by
  cases trees with
  | nil => rfl
  | cons tree rest =>
      rw [textsOutsideAll, List.flatMap_append, Tree.elementsAll, List.flatMap_append,
        scan_textsOutside_of_free fun other member => free other (by simp [Tree.elementsAll, member]),
        scan_textsOutsideAll_of_free fun other member =>
          free other (by simp [Tree.elementsAll, member])]

end

theorem scan_ownedTexts {inRow : Bool} {tree : Tree} {placeholder : Placeholder}
    (member : placeholder ∈ (ownedTexts inRow tree).flatMap Placeholder.scan) :
    placeholder ∈ tree.elements.flatMap textPlaceholders := by
  cases tree with
  | node element children =>
      rw [Tree.elements, List.flatMap_cons, List.mem_append]
      rw [ownedTexts] at member
      split at member
      · exact .inr (scan_textsOutsideAll member)
      · split at member
        · exact .inr (scan_textsOutsideAll member)
        · simp at member

variable {params : Params}

theorem listsOf_of_scan {texts : List String}
    (settled : ∀ placeholder ∈ texts.flatMap Placeholder.scan,
      repeating? params placeholder = none) : listsOf params texts = [] := by
  rw [listsOf_eq_nil_iff]
  intro text listed placeholder scanned
  exact settled placeholder (List.mem_flatMap.mpr ⟨text, listed, scanned⟩)

mutual

theorem settled_of_placeholders {inRow : Bool} {tree : Tree}
    (none : ∀ placeholder ∈ tree.elements.flatMap textPlaceholders,
      repeating? params placeholder = none) : Settled params inRow tree := by
  cases tree with
  | node element children =>
      refine ⟨listsOf_of_scan fun placeholder member => none placeholder (scan_ownedTexts member),
        settledAll_of_placeholders fun placeholder member => none placeholder ?_⟩
      rw [Tree.elements, List.flatMap_cons, List.mem_append]
      exact .inr member

theorem settledAll_of_placeholders {inRow : Bool} {trees : List Tree}
    (none : ∀ placeholder ∈ (Tree.elementsAll trees).flatMap textPlaceholders,
      repeating? params placeholder = none) : SettledAll params inRow trees := by
  cases trees with
  | nil => trivial
  | cons tree rest =>
      refine ⟨settled_of_placeholders fun placeholder member => none placeholder ?_,
        settledAll_of_placeholders fun placeholder member => none placeholder ?_⟩
      · rw [Tree.elementsAll, List.flatMap_append, List.mem_append]
        exact .inl member
      · rw [Tree.elementsAll, List.flatMap_append, List.mem_append]
        exact .inr member

end

section Owned

theorem scan_ownedTexts_of_lowest {inRow : Bool} {row : Tree} (lowest : IsLowestRow inRow row) :
    (ownedTexts inRow row).flatMap Placeholder.scan = row.elements.flatMap textPlaceholders := by
  cases row with
  | node element children =>
      have free : ∀ tags : List String,
          (∀ tag ∈ tags, tag ∉ (Markup.Tree.node element children).tagsBelow) →
          (textsOutsideAll tags children).flatMap Placeholder.scan =
            (Tree.elementsAll children).flatMap textPlaceholders := by
        intro tags absent
        apply scan_textsOutsideAll_of_free
        intro other member
        rw [Bool.eq_false_iff, List.contains_eq_mem, ne_eq, decide_eq_true_eq]
        intro listed
        exact absent other.tag listed (List.mem_map_of_mem member)
      have below : element.tag ≠ Wordml.text →
          (Markup.Tree.node element children).elements.flatMap textPlaceholders =
            (Tree.elementsAll children).flatMap textPlaceholders := by
        intro notText
        rw [Tree.elements, List.flatMap_cons, textPlaceholders, if_neg notText, List.nil_append]
      rw [ownedTexts]
      rcases lowest with ⟨isRow, absent⟩ | ⟨isParagraph, outside, absent⟩
      · have tag : element.tag = Wordml.row := isRow
        rw [if_pos tag, free [Wordml.row] (by simpa using absent), below]
        rw [tag]
        decide
      · have tag : element.tag = Wordml.paragraph := isParagraph
        rw [if_neg (by rw [tag]; decide), if_pos (by rw [tag, outside]; rfl), free rowTags absent,
          below]
        rw [tag]
        decide

theorem guards_of_lowest {inRow : Bool} {row : Tree} (lowest : IsLowestRow inRow row) :
    (guards inRow).contains row.element.tag = true := by
  rcases lowest with ⟨tag, -⟩ | ⟨tag, outside, -⟩
  · rw [tag]
    cases inRow <;> decide
  · rw [tag, outside]
    decide

theorem foldl_distinct_replicate (list : Param) (count : Nat) :
    (List.replicate count list).foldl
      (fun (kept : List Param) list =>
        if kept.any fun other => other.absoluteKey = list.absoluteKey then kept else kept ++ [list])
      [list] = [list] := by
  induction count with
  | zero => rfl
  | succ count ih => simpa [List.replicate_succ] using ih

theorem listsOf_eq_singleton {texts : List String} {list : Param}
    (present : texts.flatMap Placeholder.scan ≠ [])
    (same : ∀ placeholder ∈ texts.flatMap Placeholder.scan,
      repeating? params placeholder = some list) : listsOf params texts = [list] := by
  have lists : (texts.flatMap fun text =>
      (Placeholder.scan text).filterMap (repeating? params)) =
      List.replicate (texts.flatMap Placeholder.scan).length list := by
    rw [← List.filterMap_flatMap, List.filterMap_congr same, ← List.map_const']
    exact congrFun List.filterMap_eq_map _
  obtain ⟨count, length⟩ := Nat.exists_eq_succ_of_ne_zero
    (mt List.length_eq_zero_iff.mp present)
  rw [listsOf, lists, length, List.replicate_succ]
  exact foldl_distinct_replicate list count

end Owned

section Copies

theorem getElem?_itemKey {list : Param} {position : Nat} {item : Param}
    (found : list.children[position]? = some item) : itemKey list position = item.key := by
  rw [itemKey, found]

theorem indexPlaceholder_of_item {list item : Param} {rest : String} {position : Nat}
    {placeholder : Placeholder} (found : params.pendingList? placeholder.key = some ⟨list, rest⟩)
    (here : list.children[position]? = some item) :
    indexPlaceholder params [list] position placeholder =
      { placeholder with key := PendingList.indexed ⟨list, rest⟩ item.key } := by
  have indexed : indexedKey? params [list] position placeholder.key =
      some (PendingList.indexed ⟨list, rest⟩ item.key) := by
    simp [indexedKey?, found, getElem?_itemKey here]
  rw [indexPlaceholder, indexed]
  rfl

/-- A row that repeats for one list expands to what its copies for the items expand to. -/
theorem expands_of_due {inRow : Bool} {row : Tree} {list : Param}
    (lists : listsOfRow params inRow row = [list]) (isList : list.kind = .list)
    (expanded : Param → List Tree)
    (each : ∀ position item, list.children[position]? = some item →
      Expands params inRow [row.map (indexElement params [list] position)] (expanded item)) :
    Expands params inRow [row] (list.children.flatMap expanded) := by
  have count : copyCount [list] = list.children.length := by
    simp [copyCount, Param.itemCount, Param.isList, isList]
  have positions : copiesOf params [list] row =
      list.children.zipIdx.map fun entry => row.map (indexElement params [list] entry.2) := by
    have numbers : List.range list.children.length = list.children.zipIdx.map Prod.snd := by
      rw [List.zipIdx_map_snd, List.range_eq_range']
    rw [copiesOf, count, numbers, List.map_map]
    rfl
  have items : list.children.flatMap expanded =
      list.children.zipIdx.flatMap fun entry => expanded entry.1 := by
    conv_lhs => rw [← List.zipIdx_map_fst 0 list.children]
    rw [List.flatMap_map]
  have copies : Expands params inRow (copiesOf params (listsOfRow params inRow row) row)
      (list.children.flatMap expanded) := by
    rw [lists, positions, items]
    exact Expands.flatMap fun entry member =>
      each entry.2 entry.1 (List.mem_zipIdx_iff_getElem?.mp member)
  have repeated := Expands.repeats (by rw [lists]; simp) copies .nil
  rw [List.append_nil] at repeated
  exact repeated

end Copies

section Places

variable {path : List Nat} {tree row : Tree}

theorem outside_of_scan_textsOutside {tags : List String} (leads : Tree.at? path tree = some row)
    (stops : tags.contains row.element.tag = true) {placeholder : Placeholder}
    (member : placeholder ∈ (textsOutside tags tree).flatMap Placeholder.scan) :
    placeholder ∈ (tree.outside path).flatMap textPlaceholders := by
  induction path generalizing tree with
  | nil =>
      simp only [Tree.at?, Option.some.injEq] at leads
      subst leads
      simp [textsOutside_of_contains stops] at member
  | cons position path ih =>
      cases tree with
      | node element children =>
          obtain ⟨front, child, back, rfl, rfl, below⟩ := Tree.at?_cons leads
          rw [textsOutside] at member
          rw [Tree.outside_cons]
          split at member
          · simp at member
          · rw [textsOutsideAll_eq, @List.flatMap_append _ _ front, List.flatMap_cons,
              ← textsOutsideAll_eq, ← textsOutsideAll_eq] at member
            simp only [List.flatMap_append, List.mem_append] at member
            simp only [List.flatMap_cons, List.flatMap_append, List.mem_append]
            rcases member with here | before | inside | after
            · left
              rw [textPlaceholders]
              split at here <;> rename_i isText
              · rw [if_pos isText]
                simpa using here
              · simp at here
            · exact .inr (.inl (.inl (scan_textsOutsideAll before)))
            · exact .inr (.inl (.inr (ih below inside)))
            · exact .inr (.inr (scan_textsOutsideAll after))

theorem scan_textsOutside_of_outside {tags : List String} (leads : Tree.at? path tree = some row)
    (stops : tags.contains row.element.tag = true)
    (free : ∀ element ∈ tree.outside path, tags.contains element.tag = false) :
    (textsOutside tags tree).flatMap Placeholder.scan =
      (tree.outside path).flatMap textPlaceholders := by
  induction path generalizing tree with
  | nil =>
      simp only [Tree.at?, Option.some.injEq] at leads
      subst leads
      rw [textsOutside_of_contains stops]
      rfl
  | cons position path ih =>
      cases tree with
      | node element children =>
          obtain ⟨front, child, back, rfl, rfl, below⟩ := Tree.at?_cons leads
          rw [Tree.outside_cons] at free ⊢
          have here : (if element.tag = Wordml.text then [element.text] else []).flatMap
              Placeholder.scan = textPlaceholders element := by
            rw [textPlaceholders]
            split <;> simp
          rw [textsOutside, if_neg (Bool.eq_false_iff.mp (free element (by simp))),
            List.flatMap_append, here, textsOutsideAll_eq, List.flatMap_append, List.flatMap_cons,
            ← textsOutsideAll_eq, ← textsOutsideAll_eq, List.flatMap_append, List.flatMap_append,
            scan_textsOutsideAll_of_free fun other member => free other (by simp [member]),
            ih below fun other member => free other (by simp [member]),
            scan_textsOutsideAll_of_free fun other member => free other (by simp [member])]
          simp

/-- On the way to a row nothing repeats: a placeholder owned there would stand outside of the row. -/
theorem listsOfRow_on_way (inRow : Bool) {element : Element} {front back : List Tree} {child : Tree}
    (below : Tree.at? path child = some row)
    (guarded : (guards (entersRow inRow element || (Tree.tagsAlong path child).contains
      Wordml.row)).contains row.element.tag = true)
    (settled : ∀ placeholder ∈ (Tree.outside (front.length :: path)
      (.node element (front ++ child :: back))).flatMap textPlaceholders,
      repeating? params placeholder = none) :
    listsOfRow params inRow (.node element (front ++ child :: back)) = [] := by
  rw [Tree.outside_cons] at settled
  simp only [List.flatMap_cons, List.flatMap_append, List.mem_append] at settled
  apply listsOf_of_scan
  intro placeholder member
  have owned : ∀ tags : List String, tags.contains row.element.tag = true →
      placeholder ∈ (textsOutsideAll tags (front ++ child :: back)).flatMap
        Placeholder.scan → repeating? params placeholder = none := by
    intro tags stops listed
    rw [textsOutsideAll_eq, List.flatMap_append, List.flatMap_cons, ← textsOutsideAll_eq,
      ← textsOutsideAll_eq] at listed
    simp only [List.flatMap_append, List.mem_append] at listed
    apply settled
    rcases listed with before | inside | after
    · exact .inr (.inl (.inl (scan_textsOutsideAll before)))
    · exact .inr (.inl (.inr (outside_of_scan_textsOutside below stops inside)))
    · exact .inr (.inr (scan_textsOutsideAll after))
  rw [ownedTexts] at member
  by_cases isRow : element.tag = Wordml.row
  · rw [if_pos isRow] at member
    refine owned [Wordml.row] ?_ member
    simpa [entersRow, isRow, guards] using guarded
  · rw [if_neg isRow] at member
    split at member
    · refine owned rowTags ?_ member
      revert guarded
      cases (entersRow inRow element ||
        (Tree.tagsAlong path child).contains Wordml.row) <;> simp [guards, rowTags]
      exact .inl
    · simp at member

/-- Expanding a row changes a tree at the place of the row where nothing else repeats. -/
theorem expands_at (inRow : Bool) {expanded : List Tree} (leads : Tree.at? path tree = some row)
    (guarded : (guards (inRow || (Tree.tagsAlong path tree).contains Wordml.row)).contains
      row.element.tag = true)
    (settled : ∀ placeholder ∈ (tree.outside path).flatMap textPlaceholders,
      repeating? params placeholder = none)
    (expands : Expands params (inRow || (Tree.tagsAlong path tree).contains Wordml.row) [row]
      expanded) : Expands params inRow [tree] (Tree.splice expanded path tree) := by
  induction path generalizing tree inRow with
  | nil =>
      simp only [Tree.at?, Option.some.injEq] at leads
      subst leads
      simpa [Tree.tagsAlong, Tree.splice] using expands
  | cons position path ih =>
      cases tree with
      | node element children =>
          obtain ⟨front, child, back, rfl, rfl, below⟩ := Tree.at?_cons leads
          rw [Tree.tagsAlong_cons] at guarded expands
          have enters : (inRow || (element.tag :: Tree.tagsAlong path child).contains Wordml.row) =
              (entersRow inRow element || (Tree.tagsAlong path child).contains Wordml.row) := by
            rw [entersRow, List.contains_cons, Bool.or_assoc]
            congr 2
            rw [Bool.eq_iff_iff, beq_iff_eq, decide_eq_true_eq]
            exact eq_comm
          rw [enters] at guarded expands
          have quiet := listsOfRow_on_way inRow below guarded settled
          rw [Tree.outside_cons] at settled
          simp only [List.flatMap_cons, List.flatMap_append, List.mem_append] at settled
          have around : ∀ trees : List Tree,
              (∀ placeholder ∈ (Tree.elementsAll trees).flatMap textPlaceholders,
                repeating? params placeholder = none) →
              Expands params (entersRow inRow element) trees trees := fun trees none =>
            expands_of_settledAll (settledAll_of_placeholders none)
          have middle := ih (entersRow inRow element) below guarded
            (fun placeholder member => settled placeholder (.inr (.inl (.inr member)))) expands
          rw [Tree.splice_cons]
          refine .keeps quiet ?_ .nil
          rw [List.append_assoc]
          exact (around front fun placeholder member =>
              settled placeholder (.inr (.inl (.inl member)))).append
            (middle.append (around back fun placeholder member =>
              settled placeholder (.inr (.inr member))))

end Places

end WordTemplate.Filling
