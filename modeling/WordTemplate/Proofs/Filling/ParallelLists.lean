import WordTemplate.Proofs.Filling.Expansion
import WordTemplate.Proofs.Params.ScalarLists

/-! Rows with placeholders for several lists of scalars. Such a row is replaced by as many rows as the longest
list has items. In the rows behind the end of a shorter list its placeholders have the number of the row,
which is the name of an item where nulls stand before it. -/

namespace WordTemplate.Filling

open Markup
open Params (ScalarLists ofLists listParam memberKey elementKey itemAt?)

section Keys

/-- The key that the placeholders of a list have in the row for a position. -/
def shownKey (lists : List (String × List Json)) (position : Nat) (key : String) : String :=
  match lists.find? fun list => memberKey list.1 = key with
  | some list => elementKey list (Json.placeAt list.2 position)
  | none => key

def longest (lists : List (String × List Json)) : Nat :=
  (lists.map fun list => (Json.places list.2).length).foldl max 0

def turnText (turn : String → String) : String → String :=
  Placeholder.rewrite fun placeholder => { placeholder with key := turn placeholder.key }

/-- An element with the keys of its placeholders changed. -/
def turnElement (turn : String → String) (element : Element) : Element :=
  { element with
    text := if element.tag = Wordml.text then turnText turn element.text else element.text
    attributes := element.attributes.map fun entry => { entry with value := turnText turn entry.value } }

variable {lists : List (String × List Json)} {list : String × List Json} {position : Nat}

theorem shownKey_of_mem (scalar : ScalarLists lists) (member : list ∈ lists) :
    shownKey lists position (memberKey list.1) = elementKey list (Json.placeAt list.2 position) := by
  rw [shownKey]
  cases found : lists.find? fun other => memberKey other.1 = memberKey list.1 with
  | none =>
      have other := List.find?_eq_none.mp found list member
      simp at other
  | some other =>
      have same : memberKey other.1 = memberKey list.1 := by simpa using List.find?_some found
      rw [scalar.eq_of_memberKey (List.mem_of_find?_eq_some found) member same]

theorem itemCount_listParam (list : String × List Json) :
    (listParam list).itemCount = (Json.places list.2).length := by
  have named := congrArg List.length (Params.key_children_listParam list)
  rw [List.length_map, List.length_map] at named
  exact named

theorem itemKey_listParam (list : String × List Json) (position : Nat) :
    itemKey (listParam list) position = toString (Json.placeAt list.2 position + 1) := by
  have named := congrArg (fun keys => keys[position]?) (Params.key_children_listParam list)
  simp only [List.getElem?_map] at named
  rw [itemKey, Json.placeAt]
  cases found : (listParam list).children[position]? with
  | none =>
      rw [found, Option.map_none, eq_comm, Option.map_eq_none_iff] at named
      rw [named]
      rfl
  | some item =>
      rw [found, Option.map_some, eq_comm, Option.map_eq_some_iff] at named
      obtain ⟨place, there, same⟩ := named
      rw [there]
      exact same.symm

theorem foldl_max_le_iff {values : List Nat} {start bound : Nat} :
    values.foldl max start ≤ bound ↔ start ≤ bound ∧ ∀ value ∈ values, value ≤ bound := by
  induction values generalizing start with
  | nil => simp
  | cons value rest ih => rw [List.foldl_cons, ih, Nat.max_le, List.forall_mem_cons, and_assoc]

end Keys

section Rows

variable {lists : List (String × List Json)} {list : String × List Json} {position : Nat}
  {placeholder : Placeholder}

/-- Placeholders that are no inline ones and name lists, each of them at least once. -/
structure NamesLists (lists : List (String × List Json)) (placeholders : List Placeholder) : Prop where
  single : ∀ placeholder ∈ placeholders, placeholder.isInline = false
  known : ∀ placeholder ∈ placeholders, ∃ list ∈ lists, placeholder.key = memberKey list.1
  shown : ∀ list ∈ lists, ∃ placeholder ∈ placeholders, placeholder.key = memberKey list.1

theorem repeating?_memberKey (scalar : ScalarLists lists) (member : list ∈ lists)
    (single : placeholder.isInline = false) (named : placeholder.key = memberKey list.1) :
    repeating? (ofLists lists) placeholder = some (listParam list) :=
  repeating?_eq_some.mpr ⟨single, _, named ▸ scalar.pendingList?_memberKey member, rfl⟩

theorem mem_listsOf_iff (scalar : ScalarLists lists) {texts : List String}
    (names : NamesLists lists (texts.flatMap Placeholder.scan)) {param : Param} :
    param ∈ listsOf (ofLists lists) texts ↔ ∃ list ∈ lists, param = listParam list := by
  constructor
  · intro listed
    obtain ⟨text, inside, placeholder, scanned, repeats⟩ := mem_of_mem_listsOf listed
    have among := List.mem_flatMap.mpr ⟨text, inside, scanned⟩
    obtain ⟨list, member, named⟩ := names.known placeholder among
    rw [repeating?_memberKey scalar member (names.single placeholder among) named] at repeats
    exact ⟨list, member, (Option.some.inj repeats).symm⟩
  · rintro ⟨list, member, rfl⟩
    obtain ⟨placeholder, among, named⟩ := names.shown list member
    obtain ⟨text, inside, scanned⟩ := List.mem_flatMap.mp among
    have repeats := repeating?_memberKey scalar member (names.single placeholder among) named
    obtain ⟨other, listed, same⟩ := exists_mem_listsOf inside scanned repeats
    obtain ⟨text, inside, placeholder, scanned, repeats⟩ := mem_of_mem_listsOf listed
    have among := List.mem_flatMap.mpr ⟨text, inside, scanned⟩
    obtain ⟨next, next_member, named⟩ := names.known placeholder among
    rw [repeating?_memberKey scalar next_member (names.single placeholder among) named] at repeats
    obtain rfl := Option.some.inj repeats
    rw [← scalar.eq_of_memberKey next_member member same]
    exact listed

theorem copyCount_listsOf (scalar : ScalarLists lists) {texts : List String}
    (names : NamesLists lists (texts.flatMap Placeholder.scan)) :
    copyCount (listsOf (ofLists lists) texts) = longest lists := by
  have same : ∀ bound, copyCount (listsOf (ofLists lists) texts) ≤ bound ↔ longest lists ≤ bound := by
    intro bound
    simp only [copyCount, longest, foldl_max_le_iff, List.forall_mem_map, Nat.zero_le, true_and,
      mem_listsOf_iff scalar names]
    constructor
    · intro below list member
      rw [← itemCount_listParam]
      exact below _ ⟨list, member, rfl⟩
    · rintro below _ ⟨list, member, rfl⟩
      rw [itemCount_listParam]
      exact below list member
  exact Nat.le_antisymm ((same _).mpr (Nat.le_refl _)) ((same _).mp (Nat.le_refl _))

theorem indexPlaceholder_eq (scalar : ScalarLists lists) {texts : List String}
    (names : NamesLists lists (texts.flatMap Placeholder.scan)) (member : list ∈ lists)
    (named : placeholder.key = memberKey list.1) :
    indexPlaceholder (ofLists lists) (listsOf (ofLists lists) texts) position placeholder =
      { placeholder with key := shownKey lists position placeholder.key } := by
  obtain ⟨found, first⟩ : ∃ found, (listsOf (ofLists lists) texts).find? (fun other =>
      other.absoluteKey = (listParam list).absoluteKey) = some found := by
    rw [← Option.isSome_iff_exists, List.find?_isSome]
    exact ⟨listParam list, (mem_listsOf_iff scalar names).mpr ⟨list, member, rfl⟩, by simp⟩
  obtain ⟨other, among, rfl⟩ := (mem_listsOf_iff scalar names).mp (List.mem_of_find?_eq_some first)
  have same := List.find?_some first
  simp only [decide_eq_true_eq] at same
  obtain rfl := scalar.eq_of_memberKey among member same
  have turned : indexedKey? (ofLists lists) (listsOf (ofLists lists) texts) position (memberKey other.1) =
      some (elementKey other (Json.placeAt other.2 position)) := by
    simp only [indexedKey?, scalar.pendingList?_memberKey member, Option.bind_eq_bind, Option.bind_some,
      first, itemKey_listParam]
    rfl
  rw [indexPlaceholder, named, turned, shownKey_of_mem scalar member]
  rfl

theorem mem_elementPlaceholders_text {element : Element} (isText : element.tag = Wordml.text)
    (scanned : placeholder ∈ Placeholder.scan element.text) : placeholder ∈ elementPlaceholders element := by
  rw [elementPlaceholders, textPlaceholders, if_pos isText]
  exact List.mem_append_left _ scanned

/-- A copy for a position has the keys of the placeholders turned to what the lists show there. -/
theorem map_indexElement (scalar : ScalarLists lists) {texts : List String} {row : Tree}
    (names : NamesLists lists (texts.flatMap Placeholder.scan))
    (known : ∀ placeholder ∈ treePlaceholders row, ∃ list ∈ lists, placeholder.key = memberKey list.1)
    (position : Nat) :
    row.map (indexElement (ofLists lists) (listsOf (ofLists lists) texts) position) =
      row.map (turnElement (shownKey lists position)) := by
  apply Tree.map_congr
  intro element inside
  have turned : ∀ text, (∀ placeholder ∈ Placeholder.scan text, placeholder ∈ elementPlaceholders element) →
      indexText (ofLists lists) (listsOf (ofLists lists) texts) position text =
        turnText (shownKey lists position) text := by
    intro text among
    rw [indexText_eq, turnText]
    apply Placeholder.rewrite_congr
    intro placeholder scanned
    obtain ⟨list, member, named⟩ :=
      known placeholder (List.mem_flatMap.mpr ⟨element, inside, among placeholder scanned⟩)
    exact indexPlaceholder_eq scalar names member named
  have text : (if element.tag = Wordml.text then
        indexText (ofLists lists) (listsOf (ofLists lists) texts) position element.text else element.text) =
      if element.tag = Wordml.text then turnText (shownKey lists position) element.text
      else element.text := by
    split
    · rename_i isText
      exact turned _ fun placeholder scanned => mem_elementPlaceholders_text isText scanned
    · rfl
  have attributes : (element.attributes.map fun entry => { entry with
        value := indexText (ofLists lists) (listsOf (ofLists lists) texts) position entry.value }) =
      element.attributes.map fun entry =>
        { entry with value := turnText (shownKey lists position) entry.value } := by
    apply List.map_congr_left
    intro entry listed
    rw [turned]
    intro placeholder scanned
    exact List.mem_append_right _ (List.mem_flatMap.mpr ⟨entry, listed, scanned⟩)
  rw [indexElement, turnElement, text, attributes]

theorem settled_map_indexElement (scalar : ScalarLists lists) {texts : List String} {row : Tree}
    (names : NamesLists lists (texts.flatMap Placeholder.scan))
    (known : ∀ placeholder ∈ treePlaceholders row, ∃ list ∈ lists, placeholder.key = memberKey list.1)
    (position : Nat) (inRow : Bool) :
    Settled (ofLists lists) inRow
      (row.map (indexElement (ofLists lists) (listsOf (ofLists lists) texts) position)) := by
  apply settled_of_placeholders
  intro placeholder inside
  rw [Tree.elements_map, List.flatMap_map] at inside
  obtain ⟨element, among, scanned⟩ := List.mem_flatMap.mp inside
  rw [textPlaceholders, tag_indexElement] at scanned
  split at scanned
  · rename_i isText
    rw [text_indexElement isText,
      scan_indexText (Params.keyed_ofLists lists) (pendings_listsOf _ texts)] at scanned
    obtain ⟨former, before, rfl⟩ := List.mem_map.mp scanned
    obtain ⟨list, member, named⟩ := known former
      (List.mem_flatMap.mpr ⟨element, among, mem_elementPlaceholders_text isText before⟩)
    have quiet : (ofLists lists).pendingList? (shownKey lists position former.key) = none := by
      rw [named, shownKey_of_mem scalar member]
      exact scalar.pendingList?_elementKey member _
    rw [indexPlaceholder_eq scalar names member named, repeating?, quiet]
    split <;> rfl
  · simp at scanned

theorem expands_lists (scalar : ScalarLists lists) (filled : lists ≠ []) {inRow : Bool} {row : Tree}
    (owned : (ownedTexts inRow row).flatMap Placeholder.scan = treePlaceholders row)
    (names : NamesLists lists (treePlaceholders row)) :
    Expands (ofLists lists) inRow [row]
      ((List.range (longest lists)).map fun position => row.map (turnElement (shownKey lists position))) := by
  have inTexts : NamesLists lists ((ownedTexts inRow row).flatMap Placeholder.scan) := owned ▸ names
  have due : listsOfRow (ofLists lists) inRow row ≠ [] := by
    obtain ⟨list, rest, rfl⟩ := List.exists_cons_of_ne_nil filled
    have listed := (mem_listsOf_iff scalar inTexts).mpr ⟨list, List.mem_cons_self .., rfl⟩
    exact List.ne_nil_of_mem listed
  have copies : Expands (ofLists lists) inRow
      (copiesOf (ofLists lists) (listsOfRow (ofLists lists) inRow row) row)
      ((List.range (longest lists)).flatMap fun position =>
        [row.map (turnElement (shownKey lists position))]) := by
    rw [copiesOf, listsOfRow, copyCount_listsOf scalar inTexts]
    apply Expands.flatMap
    intro position _
    have settled := settled_map_indexElement scalar inTexts names.known position inRow
    rw [map_indexElement scalar inTexts names.known] at settled ⊢
    exact expands_of_settled settled
  have repeated := Expands.repeats due copies .nil
  rw [List.append_nil, ← List.map_eq_flatMap] at repeated
  exact repeated

theorem get?_shownKey (scalar : ScalarLists lists) (member : list ∈ lists) (position : Nat) :
    let key := shownKey lists position (memberKey list.1)
    (ofLists lists).resolve key = ((ofLists lists).get? key).toList ∧
      (position < (Json.places list.2).length →
        ((ofLists lists).get? key).isSome = true ∧
          (ofLists lists).get? key = (listParam list).children[position]?) ∧
      ((Json.places list.2).length ≤ position →
        key = elementKey list position ∧
          ((ofLists lists).get? key = none ↔ ∀ item, list.2[position]? = some item → item = .null)) := by
  intro key
  have turned : key = elementKey list (Json.placeAt list.2 position) := shownKey_of_mem scalar member
  rw [turned, scalar.resolve_elementKey member, scalar.get?_elementKey member]
  refine ⟨rfl, ?_, ?_⟩
  · intro inside
    have there := Json.placeAt_of_lt inside
    have named := congrArg (fun keys => keys[position]?) (Params.key_children_listParam list)
    simp only [List.getElem?_map, there, Option.map_some] at named
    obtain ⟨item, found, same⟩ := Option.map_eq_some_iff.mp named
    have first : itemAt? list (Json.placeAt list.2 position) = some item := by
      rw [← Params.ScalarLists.find?_children, ← same]
      exact Param.find?_key_of_mem (Param.nodup_key_buildItems ..) (List.mem_of_getElem? found)
    rw [first, found]
    exact ⟨rfl, rfl⟩
  · intro behind
    rw [Json.placeAt_of_le behind]
    exact ⟨rfl, Params.itemAt?_eq_none_iff⟩

/-- The rows show every item at most once exactly if no made-up position is the place of an item. -/
theorem shown_once_iff (scalar : ScalarLists lists) (member : list ∈ lists) (bound : Nat) :
    (∀ first second, first < second → second < bound → ∀ item,
        (ofLists lists).get? (shownKey lists first (memberKey list.1)) = some item →
          (ofLists lists).get? (shownKey lists second (memberKey list.1)) ≠ some item) ↔
      ∀ position, (Json.places list.2).length ≤ position → position < bound →
        ∀ item, list.2[position]? = some item → item = .null := by
  simp only [shownKey_of_mem scalar member, scalar.get?_elementKey member]
  constructor
  · intro once position behind below
    rw [← Params.itemAt?_eq_none_iff, ← Option.not_isSome_iff_eq_none, Params.isSome_itemAt?]
    intro present
    -- The item stands at an earlier position, since there are fewer items than positions.
    obtain ⟨first, there⟩ := List.getElem?_of_mem present
    obtain ⟨inside, -⟩ := List.getElem?_eq_some_iff.mp there
    rw [Json.placeAt_of_lt inside, Option.some.injEq] at there
    obtain ⟨item, found⟩ := Option.isSome_iff_exists.mp (Params.isSome_itemAt?.mpr present)
    refine once first position (by omega) below item ?_ ?_
    · rw [there, found]
    · rw [Json.placeAt_of_le behind, found]
  · intro absent first second less below item shown again
    have same : Json.placeAt list.2 first = Json.placeAt list.2 second :=
      Params.place_of_itemAt? shown again
    obtain ⟨behind, -⟩ := (Json.placeAt_eq_iff less).mp same
    rw [Json.placeAt_of_le behind, Params.itemAt?_eq_none_iff.mpr (absent second behind below)] at again
    simp at again

/-- In a document whose placeholders name lists of scalars and are owned by one row, the row is replaced by as
many rows as the longest list has items. In the row for a position each list shows its item at the position.
A shorter list shows what stands at this place of its data, which is nothing behind the end of the data or at
a null; and so no item is shown twice exactly if no list has an item at a place between the number of its items
and that of the longest list. -/
theorem expandRows_lists {text : String} {document : Document}
    (parsed : Document.parse text = .ok document)
    (notRow : document.isAny rowTags document.root = false) (scalar : ScalarLists lists) (filled : lists ≠ [])
    {path : List Nat} {row : Tree}
    (leads : Tree.at? path (document.liveTree document.root) = some row)
    (sole : treePlaceholders (document.liveTree document.root) = treePlaceholders row)
    (owned : (ownedTexts ((Tree.tagsAlong path (document.liveTree document.root)).contains Wordml.row)
      row).flatMap Placeholder.scan = treePlaceholders row)
    (names : NamesLists lists (treePlaceholders row)) :
    let params := ofLists lists
    let after := (expandRows document params).1
    Runs params [.within document.root] (document, 0) (expandRows document params) ∧
      after.root = document.root ∧ after.declared = document.declared ∧
      [after.liveTree after.root] =
        Tree.splice ((List.range (longest lists)).map fun position =>
          row.map (turnElement (shownKey lists position))) path (document.liveTree document.root) ∧
      (∀ list ∈ lists, ∀ position,
        let key := shownKey lists position (memberKey list.1)
        params.resolve key = (params.get? key).toList ∧
          (position < (Json.places list.2).length →
            (params.get? key).isSome = true ∧ params.get? key = (listParam list).children[position]?) ∧
          ((Json.places list.2).length ≤ position →
            key = elementKey list position ∧
              (params.get? key = none ↔ ∀ item, list.2[position]? = some item → item = .null))) ∧
      ((∀ list ∈ lists, ∀ first second, first < second → second < longest lists → ∀ item,
          params.get? (shownKey lists first (memberKey list.1)) = some item →
            params.get? (shownKey lists second (memberKey list.1)) ≠ some item) ↔
        ∀ list ∈ lists, ∀ position, (Json.places list.2).length ≤ position → position < longest lists →
          ∀ item, list.2[position]? = some item → item = .null) := by
  intro params after
  have quiet := outside_of_treePlaceholders leads (congrArg List.length sole)
  have expanded := expands_lists scalar filled owned names
  have guarded : (guards ((Tree.tagsAlong path (document.liveTree document.root)).contains
      Wordml.row)).contains row.element.tag = true := by
    apply contains_of_ownedTexts
    intro none
    rw [none, List.flatMap_nil] at owned
    obtain ⟨list, rest, rfl⟩ := List.exists_cons_of_ne_nil filled
    obtain ⟨placeholder, shown, -⟩ := names.shown list (List.mem_cons_self ..)
    rw [← owned] at shown
    simp at shown
  have spliced := expands_at false leads (by simpa using guarded)
    (by simp [textPlaceholders_of_none quiet]) (by simpa using expanded)
  have built : Params.ofJson (.object (lists.map fun list => (list.1, .array list.2))) = .ok params := rfl
  obtain ⟨runs, root, declared, becomes⟩ := expandRows_of_expands parsed notRow built spliced
  refine ⟨runs, root, declared, becomes, fun list member => get?_shownKey scalar member, ?_⟩
  exact forall₂_congr fun list member => shown_once_iff scalar member (longest lists)

/-- Two lists, of which the shorter one has its item behind a null. -/
def gapLists : List (String × List Json) :=
  [("A", [.null, .string "x"]), ("B", [.string "a", .string "b"])]

def gapRow : Tree :=
  .node { tag := "w:p" } [.node { tag := "w:r" }
    [.node { tag := "w:t", text := "\x7b\x7bA\x7d\x7d \x7b\x7bB\x7d\x7d" } []]]

def gapDocument : Document :=
  Document.ofTree false (.node { tag := "w:document" } [.node { tag := "w:body" } [gapRow]])

def gapText : String :=
  "<w:document><w:body><w:p><w:r><w:t>\x7b\x7bA\x7d\x7d \x7b\x7bB\x7d\x7d" ++
    "</w:t></w:r></w:p></w:body></w:document>"

theorem scalarLists_gap : ScalarLists gapLists where
  named := by decide +kernel
  distinct := by decide +kernel
  scalars := by simp [gapLists, Json.IsScalar, Json.kind]
  filled := by simp [gapLists]

theorem expandRows_lists_gap :
    longest gapLists = 2 ∧
      [(expandRows gapDocument (ofLists gapLists)).1.liveTree
          (expandRows gapDocument (ofLists gapLists)).1.root] =
        Tree.splice ((List.range 2).map fun position => gapRow.map (turnElement (shownKey gapLists position)))
          [0, 0] (gapDocument.liveTree 0) ∧
      ¬ ∀ list ∈ gapLists, ∀ first second, first < second → second < 2 → ∀ item,
          (ofLists gapLists).get? (shownKey gapLists first (memberKey list.1)) = some item →
            (ofLists gapLists).get? (shownKey gapLists second (memberKey list.1)) ≠ some item := by
  have parsed : Document.parse gapText = .ok gapDocument := by cbv
  have leads : Tree.at? [0, 0] (gapDocument.liveTree 0) = some gapRow := rfl
  have names : NamesLists gapLists (treePlaceholders gapRow) :=
    ⟨by decide +kernel, by decide +kernel, by decide +kernel⟩
  have done := expandRows_lists parsed (by decide) scalarLists_gap (by simp [gapLists]) leads
    (by decide +kernel) (by decide +kernel) names
  have two : longest gapLists = 2 := by decide +kernel
  rw [two] at done
  refine ⟨rfl, done.2.2.2.1, fun once => ?_⟩
  have absent := done.2.2.2.2.2.mp once ("A", [.null, .string "x"]) (by simp [gapLists]) 1
    (by decide +kernel) (by decide) (.string "x") rfl
  simp at absent

/-- Both rows show the only item of the first list. -/
theorem expandRows_lists_twice :
    Document.parse gapText = .ok gapDocument ∧ ScalarLists gapLists ∧
      (expandRows gapDocument (ofLists gapLists)).1.write =
        "<w:document><w:body>" ++
          "<w:p><w:r><w:t>\x7b\x7bA.2\x7d\x7d \x7b\x7bB.1\x7d\x7d</w:t></w:r></w:p>" ++
          "<w:p><w:r><w:t>\x7b\x7bA.2\x7d\x7d \x7b\x7bB.2\x7d\x7d</w:t></w:r></w:p>" ++
          "</w:body></w:document>" ∧
      ((ofLists gapLists).get? "A.2").map (·.value) = some "x" := by
  exact ⟨by cbv, scalarLists_gap, by decide +kernel, by decide +kernel⟩

end Rows

end WordTemplate.Filling
