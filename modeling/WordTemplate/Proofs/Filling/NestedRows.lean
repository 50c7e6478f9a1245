import WordTemplate.Proofs.Filling.Expansion

/-! Rows inside of rows. A row that repeats takes the rows inside of it along, and these repeat in each
copy for the lists of its item alone. -/

namespace WordTemplate.Filling

open Markup

variable {params : Params}

section Inside

/-- The keys that a key inside of an item leads to are all inside of the item. -/
theorem expandedTo_inside (keyed : params.Keyed) {key : String} {pending : PendingList}
    (found : params.pendingList? key = some pending) (starts : Starts key) {item : Param}
    (member : item ∈ pending.list.children) (steps : Nat) (rest : String) :
    ∀ reached ∈ expandedTo params steps
        (Key.join pending.list.absoluteKey item.key ++ "." ++ rest),
      ∃ more, reached = Key.join pending.list.absoluteKey item.key ++ "." ++ more := by
  induction steps generalizing rest with
  | zero =>
      intro reached listed
      exact ⟨rest, List.mem_singleton.mp listed⟩
  | succ steps ih =>
      intro reached listed
      rw [expandedTo] at listed
      cases again : params.pendingList?
          (Key.join pending.list.absoluteKey item.key ++ "." ++ rest) with
      | none =>
          rw [again] at listed
          exact ⟨rest, List.mem_singleton.mp listed⟩
      | some later =>
          rw [again] at listed
          obtain ⟨inner, -, below⟩ := List.mem_flatMap.mp listed
          obtain ⟨more, same⟩ :=
            PendingList.indexed_inside keyed found starts member again inner.key
          rw [same] at below
          exact ih more reached below

theorem isKey_expandedTo (keyed : params.Keyed) (steps : Nat) {key : String}
    (isKey : Placeholder.IsKey key.toList) :
    ∀ reached ∈ expandedTo params steps key, Placeholder.IsKey reached.toList := by
  induction steps generalizing key with
  | zero =>
      intro reached listed
      exact List.mem_singleton.mp listed ▸ isKey
  | succ steps ih =>
      intro reached listed
      rw [expandedTo] at listed
      cases found : params.pendingList? key with
      | none =>
          rw [found] at listed
          exact List.mem_singleton.mp listed ▸ isKey
      | some pending =>
          rw [found] at listed
          obtain ⟨item, member, below⟩ := List.mem_flatMap.mp listed
          have position := PendingList.isPosition_of_pendingList? keyed found item member
          exact ih (Placeholder.isKey_indexed keyed found isKey position) reached below

/-- The key that leads on inside of an item of a list. -/
def inItem (list item : Param) (rest : String) : String :=
  Key.join (Key.join list.absoluteKey item.key) rest

theorem indexed_eq_inItem {list : Param} {rest : String} (some : rest ≠ "") (item : Param) :
    PendingList.indexed ⟨list, rest⟩ item.key = inItem list item rest := by
  rw [PendingList.indexed, inItem]
  simp [some]

theorem join_eq_append {parent : String} (some : parent ≠ "") (segment : String) :
    Key.join parent segment = parent ++ "." ++ segment := by
  rw [Key.join_of_ne_empty some, Key.ofSegments_cons (by simp), Key.ofSegments_singleton]

theorem absoluteKey_ne_empty (keyed : params.Keyed) {key : String} {pending : PendingList}
    (found : params.pendingList? key = some pending) (starts : Starts key) :
    pending.list.absoluteKey ≠ "" := by
  obtain ⟨first, front, back, cut⟩ := PendingList.exists_cut keyed found
  have filled : first ≠ "" := by
    rw [Starts, cut.segments] at starts
    simpa using starts
  rw [cut.absoluteKey filled]
  exact Key.ofSegments_ne_empty filled front

end Inside

/-- A table row with one placeholder of its own and one other table row inside of it, which holds the
only other placeholder of a tree. -/
structure NestedRow (tree : Tree) (place : List Nat) (row : Tree) (own : Placeholder)
    (within : List Nat) (inner : Tree) (nested : Placeholder) : Prop where
  rowAt : Tree.at? place tree = some row
  isRow : row.element.tag = Wordml.row
  innerAt : Tree.at? within row = some inner
  innerIsRow : inner.element.tag = Wordml.row
  oneInner : row.tagsBelow.count Wordml.row = 1
  noOthers : (tree.outside place).flatMap elementPlaceholders = []
  own : SoleAmong (row.outside within) own
  nested : HoldsSole inner nested

/-- The copy of a row for an item. The placeholder of its own has the given key, and in the place of
the inner row stands one copy of it for each key that the key of the inner placeholder leads to. -/
def copyFor (params : Params) (row : Tree) (ownKey : String) (within : List Nat) (inner : Tree)
    (nestedKey : String) : List Tree :=
  Tree.splice ((expandedKeys params nestedKey).map fun key => rekey key inner) within
    (rekey ownKey row)

namespace NestedRow

variable {tree row inner : Tree} {place within : List Nat} {own nested : Placeholder}

theorem tags (rows : NestedRow tree place row own within inner nested) :
    (∃ rest, row.outside within = row.element :: rest ∧
        ∀ element ∈ rest, element.tag ≠ Wordml.row) ∧
      Wordml.row ∉ inner.tagsBelow := by
  cases within with
  | nil =>
      have none := rows.own.all
      simp [Tree.outside, Tree.splice, Tree.elementsAll] at none
  | cons position path =>
      cases row with
      | node element children =>
          obtain ⟨front, child, back, rfl, rfl, below⟩ := Tree.at?_cons rows.innerAt
          have counted := rows.oneInner
          have inside := ((Tree.elements_perm_of_at? below).map Element.tag).count_eq Wordml.row
          rw [Tree.tagsBelow, Tree.children, Tree.elementsAll_append, Tree.elementsAll,
            List.map_append, List.map_append, List.count_append, List.count_append, inside,
            List.map_append, List.count_append, ← Tree.node_eta inner, Tree.elements, List.map_cons,
            rows.innerIsRow, List.count_cons_self] at counted
          refine ⟨⟨_, Tree.outside_cons _ _ _ _ _, ?_⟩, ?_⟩
          · intro other member isRow
            have one : Wordml.row ∈ (Tree.elementsAll front ++ Tree.outside path child ++
                Tree.elementsAll back).map Element.tag := List.mem_map.mpr ⟨other, member, isRow⟩
            have some := List.count_pos_iff.mpr one
            simp only [List.map_append, List.count_append] at some
            omega
          · intro one
            have some := List.count_pos_iff.mpr one
            rw [Tree.tagsBelow] at some
            omega

theorem scan_ownedTexts (rows : NestedRow tree place row own within inner nested)
    (inRow : Bool) : (ownedTexts inRow row).flatMap Placeholder.scan = [own] := by
  obtain ⟨⟨rest, outside, noRow⟩, -⟩ := rows.tags
  have texts := rows.own.inText
  have isRow := rows.isRow
  cases within with
  | nil =>
      have none := rows.own.all
      simp [Tree.outside, Tree.splice, Tree.elementsAll] at none
  | cons position path =>
      cases row with
      | node element children =>
          obtain ⟨front, child, back, rfl, rfl, below⟩ := Tree.at?_cons rows.innerAt
          rw [Tree.outside_cons, List.cons.injEq] at outside
          have free : ∀ other ∈ Tree.elementsAll front ++ Tree.outside path child ++
              Tree.elementsAll back, [Wordml.row].contains other.tag = false := by
            intro other member
            have different := noRow other (outside.2 ▸ member)
            simpa using different
          have tag : element.tag = Wordml.row := isRow
          have here : textPlaceholders element = [] := by
            rw [textPlaceholders, if_neg]
            rw [tag]
            decide
          rw [Tree.outside_cons, List.flatMap_cons, here, List.nil_append] at texts
          rw [ownedTexts, if_pos tag, textsOutsideAll_eq, @List.flatMap_append _ _ front,
            List.flatMap_cons, ← textsOutsideAll_eq, ← textsOutsideAll_eq, List.flatMap_append,
            List.flatMap_append,
            scan_textsOutsideAll_of_free fun other member => free other (by simp [member]),
            scan_textsOutside_of_outside below (by simp [rows.innerIsRow])
              fun other member => free other (by simp [member]),
            scan_textsOutsideAll_of_free fun other member => free other (by simp [member]), ← texts]
          simp

/-- The copy for an item expands inside of the item: its own placeholder asks for nothing more, and the
inner row repeats for the lists of the item. -/
theorem expands_copy (rows : NestedRow tree place row own within inner nested)
    (keyed : params.Keyed) (inRow : Bool) (nestedSingle : nested.isInline = false)
    {list item : Param} {ownRest nestedRest : String} {position : Nat}
    (ownPending : params.pendingList? own.key = some ⟨list, ownRest⟩)
    (nestedPending : params.pendingList? nested.key = some ⟨list, nestedRest⟩)
    (here : list.children[position]? = some item)
    (done : params.pendingList? (PendingList.indexed ⟨list, ownRest⟩ item.key) = none) :
    Expands params inRow [row.map (indexElement params [list] position)]
      (copyFor params row (PendingList.indexed ⟨list, ownRest⟩ item.key) within inner
        (PendingList.indexed ⟨list, nestedRest⟩ item.key)) := by
  have isItem := PendingList.isPosition_of_pendingList? keyed ownPending item
    (List.mem_of_getElem? here)
  have ownIsKey := Placeholder.isKey_indexed keyed ownPending rows.own.isKey isItem
  have nestedIsKey := Placeholder.isKey_indexed keyed nestedPending rows.nested.isKey isItem
  have outer : ∀ element ∈ row.outside within, indexElement params [list] position element =
      rekeyElement (PendingList.indexed ⟨list, ownRest⟩ item.key) element := by
    intro element member
    rw [rows.own.indexElement_eq _ _ member, indexPlaceholder_of_item ownPending here]
  have innerCopy : inner.map (indexElement params [list] position) =
      rekey (PendingList.indexed ⟨list, nestedRest⟩ item.key) inner := by
    rw [rows.nested.map_indexElement, indexPlaceholder_of_item nestedPending here]
  have innerAt := Tree.at?_map (indexElement params [list] position) rows.innerAt
  rw [innerCopy] at innerAt
  have lowest : ∀ inRow, IsLowestRow inRow
      (rekey (PendingList.indexed ⟨list, nestedRest⟩ item.key) inner) := fun inRow =>
    isLowestRow_rekey (.inl ⟨rows.innerIsRow, rows.tags.2⟩) _
  have inside := fun inRow => expands_of_holdsSole keyed (params.depth + 1)
    (rows.nested.rekey nestedIsKey) (lowest inRow) nestedSingle (by omega)
  have settled : ∀ placeholder ∈ ((row.map (indexElement params [list] position)).outside
      within).flatMap textPlaceholders, repeating? params placeholder = none := by
    rw [Tree.outside_map _ rows.innerAt, List.map_congr_left outer, (rows.own.rekey ownIsKey).inText]
    intro placeholder member
    rw [List.mem_singleton.mp member, repeating?]
    simp [done]
  have spliced := expands_at inRow innerAt (guards_of_lowest (lowest _)) settled (inside _)
  have twice : (fun key => rekey key (rekey (PendingList.indexed ⟨list, nestedRest⟩ item.key) inner)) =
      fun key => rekey key inner := funext fun key => rekey_rekey nestedIsKey key
  rw [twice, Tree.splice_map_congr rows.innerAt _ outer] at spliced
  exact spliced

theorem expands_row (rows : NestedRow tree place row own within inner nested)
    (keyed : params.Keyed) (inRow : Bool) (ownSingle : own.isInline = false)
    (nestedSingle : nested.isInline = false) {list : Param} {ownRest nestedRest : String}
    (ownPending : params.pendingList? own.key = some ⟨list, ownRest⟩)
    (nestedPending : params.pendingList? nested.key = some ⟨list, nestedRest⟩)
    (done : ∀ item ∈ list.children,
      params.pendingList? (PendingList.indexed ⟨list, ownRest⟩ item.key) = none) :
    Expands params inRow [row]
      (list.children.flatMap fun item =>
        copyFor params row (PendingList.indexed ⟨list, ownRest⟩ item.key) within inner
          (PendingList.indexed ⟨list, nestedRest⟩ item.key)) := by
  have repeats : repeating? params own = some list :=
    repeating?_eq_some.mpr ⟨ownSingle, _, ownPending, rfl⟩
  have owned := rows.scan_ownedTexts inRow
  have lists : listsOfRow params inRow row = [list] := by
    apply listsOf_eq_singleton
    · simp [owned]
    · intro placeholder member
      rw [owned] at member
      rw [List.mem_singleton.mp member, repeats]
  apply expands_of_due lists (PendingList.isList_of_pendingList? keyed ownPending)
  intro position item here
  exact rows.expands_copy keyed inRow nestedSingle ownPending nestedPending here
    (done item (List.mem_of_getElem? here))

theorem key_of_mem_copyFor (rows : NestedRow tree place row own within inner nested)
    {ownKey nestedKey : String} (ownIsKey : Placeholder.IsKey ownKey.toList)
    (reachedIsKey : ∀ key ∈ expandedKeys params nestedKey, Placeholder.IsKey key.toList)
    {placeholder : Placeholder}
    (member : placeholder ∈
      (copyFor params row ownKey within inner nestedKey).flatMap treePlaceholders) :
    placeholder.key = ownKey ∨ placeholder.key ∈ expandedKeys params nestedKey := by
  have listed : placeholder ∈ (Tree.elementsAll (copyFor params row ownKey within inner
      nestedKey)).flatMap elementPlaceholders := by
    rw [Tree.elementsAll_eq, List.flatMap_assoc]
    exact member
  have innerAt := Tree.at?_map (rekeyElement ownKey) rows.innerAt
  have parts := (Tree.elements_splice innerAt
    ((expandedKeys params nestedKey).map fun key => rekey key inner)).flatMap_right
      elementPlaceholders
  rw [List.flatMap_append, Tree.outside_map _ rows.innerAt, (rows.own.rekey ownIsKey).all] at parts
  rcases List.mem_append.mp (parts.mem_iff.mp listed) with inside | outside
  · right
    rw [Tree.elementsAll_eq, List.flatMap_map, List.flatMap_assoc] at inside
    obtain ⟨key, reached, found⟩ := List.mem_flatMap.mp inside
    have sole := (rows.nested.rekey (reachedIsKey key reached)).all
    rw [treePlaceholders] at sole
    rw [sole, List.mem_singleton] at found
    exact found ▸ reached
  · left
    exact List.mem_singleton.mp outside ▸ rfl

theorem length_copyFor (rows : NestedRow tree place row own within inner nested)
    (ownKey nestedKey : String) :
    (copyFor params row ownKey within inner nestedKey).length = 1 := by
  cases within with
  | nil =>
      have none := rows.own.all
      simp [Tree.outside, Tree.splice, Tree.elementsAll] at none
  | cons position path =>
      cases row
      rfl

end NestedRow

/-- A table row with a placeholder of its own and a table row inside of it is replaced by one copy for
each item of the list at which both placeholders are pending. In the copy for an item the placeholder
of the row has the key of the item, and in the place of the inner row stands one copy of it for each
key that its placeholder leads to inside of the item, in their order. -/
theorem expandRows_nested {text : String} {document : Document}
    (parsed : Document.parse text = .ok document)
    (notRow : document.isAny rowTags document.root = false) {json : Json}
    (built : Params.ofJson json = .ok params) {place within : List Nat} {row inner : Tree}
    {own nested : Placeholder}
    (rows : NestedRow (document.liveTree document.root) place row own within inner nested)
    (ownSingle : own.isInline = false) (nestedSingle : nested.isInline = false) {list : Param}
    {ownRest nestedRest : String}
    (ownPending : params.pendingList? own.key = some ⟨list, ownRest⟩)
    (nestedPending : params.pendingList? nested.key = some ⟨list, nestedRest⟩)
    (ownFilled : ownRest ≠ "") (nestedFilled : nestedRest ≠ "")
    (done : ∀ item ∈ list.children, params.pendingList? (inItem list item ownRest) = none) :
    Runs params [.within document.root] (document, 0) (expandRows document params) ∧
      (expandRows document params).1.root = document.root ∧
      (expandRows document params).1.declared = document.declared ∧
      [(expandRows document params).1.liveTree (expandRows document params).1.root] =
        Tree.splice
          (list.children.flatMap fun item =>
            copyFor params row (inItem list item ownRest) within inner
              (inItem list item nestedRest))
          place (document.liveTree document.root) ∧
      ∀ item ∈ list.children,
        (copyFor params row (inItem list item ownRest) within inner
            (inItem list item nestedRest)).length = 1 ∧
          ∀ placeholder ∈ (copyFor params row (inItem list item ownRest) within inner
              (inItem list item nestedRest)).flatMap treePlaceholders,
            ∃ more, placeholder.key = list.absoluteKey ++ "." ++ item.key ++ "." ++ more := by
  have keyed := Params.keyed_ofJson built
  simp only [← indexed_eq_inItem ownFilled, ← indexed_eq_inItem nestedFilled] at done ⊢
  have expands := fun inRow => rows.expands_row keyed inRow ownSingle nestedSingle ownPending
    nestedPending done
  have guarded : ∀ inRow, (guards inRow).contains row.element.tag = true := by
    intro inRow
    rw [rows.isRow]
    cases inRow <;> decide
  have settled : ∀ placeholder ∈ ((document.liveTree document.root).outside place).flatMap
      textPlaceholders, repeating? params placeholder = none := by
    rw [textPlaceholders_of_none rows.noOthers]
    simp
  have spliced := expands_at false rows.rowAt (guarded _) settled (expands _)
  obtain ⟨runs, root, declared, expanded⟩ := expandRows_of_expands parsed notRow built spliced
  refine ⟨runs, root, declared, expanded, ?_⟩
  intro item member
  refine ⟨rows.length_copyFor _ _, fun placeholder listed => ?_⟩
  have isItem := PendingList.isPosition_of_pendingList? keyed ownPending item member
  have ownIsKey := Placeholder.isKey_indexed keyed ownPending rows.own.isKey isItem
  have nestedIsKey := Placeholder.isKey_indexed keyed nestedPending rows.nested.isKey isItem
  have ownStarts := Placeholder.head?_segments_of_isKey rows.own.isKey
  have start : Key.join list.absoluteKey item.key = list.absoluteKey ++ "." ++ item.key :=
    join_eq_append (absoluteKey_ne_empty keyed ownPending ownStarts) item.key
  have some : Key.join list.absoluteKey item.key ≠ "" := by
    rw [start]
    simp
  rw [← start]
  rcases rows.key_of_mem_copyFor ownIsKey (isKey_expandedTo keyed _ nestedIsKey) listed with
    outside | inside
  · exact ⟨ownRest, by rw [outside, indexed_eq_inItem ownFilled, inItem, join_eq_append some]⟩
  · rw [indexed_eq_inItem nestedFilled, inItem, join_eq_append some] at inside
    exact expandedTo_inside keyed nestedPending
      (Placeholder.head?_segments_of_isKey rows.nested.isKey) member _ nestedRest _ inside

def textRow (content : String) (more : List Tree) : Tree :=
  .node { tag := "w:tr" } [.node { tag := "w:tc" }
    (.node { tag := "w:p" } [.node { tag := "w:r" } [.node { tag := "w:t", text := content } []]] ::
      more)]

def friendRow : Tree :=
  textRow "\x7b\x7bUsers.Friends.Name\x7d\x7d" []

def userRow (content : String) : Tree :=
  textRow content [.node { tag := "w:tbl" } [friendRow]]

/-- A table of users whose row holds a table of their friends. -/
def userTable (content : String) : Tree :=
  .node { tag := "w:document" } [.node { tag := "w:body" } [.node { tag := "w:tbl" }
    [userRow content]]]

def userText : String :=
  "<w:document><w:body><w:tbl><w:tr><w:tc><w:p><w:r><w:t>\x7b\x7bUsers.Name\x7d\x7d</w:t></w:r></w:p>" ++
    "<w:tbl><w:tr><w:tc><w:p><w:r><w:t>\x7b\x7bUsers.Friends.Name\x7d\x7d</w:t></w:r></w:p>" ++
    "</w:tc></w:tr></w:tbl></w:tc></w:tr></w:tbl></w:body></w:document>"

def user (name : String) (friends : List Json) : Json :=
  .object [("Name", .string name), ("Friends", .array friends)]

def userJson : Json :=
  .object [("Users", .array [user "Ada" [member "Bob", .null, member "Eve"], .null, user "Cid" [],
    user "Dan" [member "Fay"]])]

def userParams : Params :=
  ((Params.ofJson userJson).toOption).getD {}

def userMarker : Placeholder :=
  ⟨false, "Users.Name", "", none, []⟩

def friendMarker : Placeholder :=
  ⟨false, "Users.Friends.Name", "", none, []⟩

def firstParam (params : Params) : Param :=
  params.top.head?.getD ⟨"", "", .scalar, "", "", 0, []⟩

theorem expandRows_nested_users :
    (firstParam userParams).children.map (fun item =>
        (inItem (firstParam userParams) item "Name",
          expandedKeys userParams (inItem (firstParam userParams) item "Friends.Name"))) =
        [("Users.1.Name", ["Users.1.Friends.1.Name", "Users.1.Friends.3.Name"]),
          ("Users.3.Name", []), ("Users.4.Name", ["Users.4.Friends.1.Name"])] ∧
      [(expandRows (Document.ofTree false (userTable "\x7b\x7bUsers.Name\x7d\x7d"))
            userParams).1.liveTree
          (expandRows (Document.ofTree false (userTable "\x7b\x7bUsers.Name\x7d\x7d"))
            userParams).1.root] =
        Tree.splice
          ((firstParam userParams).children.flatMap fun item =>
            copyFor userParams (userRow "\x7b\x7bUsers.Name\x7d\x7d")
              (inItem (firstParam userParams) item "Name") [0, 1, 0] friendRow
              (inItem (firstParam userParams) item "Friends.Name"))
          [0, 0, 0]
          ((Document.ofTree false (userTable "\x7b\x7bUsers.Name\x7d\x7d")).liveTree 0) := by
  have parsed : Document.parse userText =
      .ok (Document.ofTree false (userTable "\x7b\x7bUsers.Name\x7d\x7d")) := by cbv
  have built : Params.ofJson userJson = .ok userParams := rfl
  have rows : NestedRow
      ((Document.ofTree false (userTable "\x7b\x7bUsers.Name\x7d\x7d")).liveTree 0) [0, 0, 0]
      (userRow "\x7b\x7bUsers.Name\x7d\x7d") userMarker [0, 1, 0] friendRow friendMarker :=
    { rowAt := rfl
      isRow := rfl
      innerAt := rfl
      innerIsRow := rfl
      oneInner := by decide +kernel
      noOthers := by decide +kernel
      own := ⟨by decide +kernel, by decide +kernel⟩
      nested := ⟨by decide +kernel, by decide +kernel⟩ }
  have top : userParams.top = [firstParam userParams] := rfl
  have ownPending : userParams.pendingList? userMarker.key =
      some ⟨firstParam userParams, "Name"⟩ := by
    have segments : Key.segments userMarker.key = ["Users", "Name"] := by decide +kernel
    have found : (userParams.resolve userMarker.key).isEmpty = false := by decide +kernel
    simp only [Params.pendingList?, segments, found, top]
    rfl
  have nestedPending : userParams.pendingList? friendMarker.key =
      some ⟨firstParam userParams, "Friends.Name"⟩ := by
    have segments : Key.segments friendMarker.key = ["Users", "Friends", "Name"] := by
      decide +kernel
    have found : (userParams.resolve friendMarker.key).isEmpty = false := by decide +kernel
    simp only [Params.pendingList?, segments, found, top]
    rfl
  have done := expandRows_nested parsed (by decide) built rows rfl rfl ownPending nestedPending
    (by decide) (by decide) (by decide +kernel)
  exact ⟨by decide +kernel, done.2.2.2.1⟩

def unnamedText : String :=
  "<w:document><w:body><w:tbl><w:tr><w:tc><w:p><w:r><w:t>\x7b\x7bUsers.\x7d\x7d</w:t></w:r></w:p>" ++
    "<w:tbl><w:tr><w:tc><w:p><w:r><w:t>\x7b\x7bUsers.Friends.Name\x7d\x7d</w:t></w:r></w:p>" ++
    "</w:tc></w:tr></w:tbl></w:tc></w:tr></w:tbl></w:body></w:document>"

/-- A user whose name has no key. -/
def unnamedJson : Json :=
  .object [("Users", .array
    [.object [("", .string "Ada"), ("Friends", .array [member "Bob"])]])]

def unnamedParams : Params :=
  ((Params.ofJson unnamedJson).toOption).getD {}

def unnamedMarker : Placeholder :=
  ⟨false, "Users.", "", none, []⟩

/-- A key that ends behind the name of the list loses its last segment, which is empty, when an item is
put into it. -/
theorem expandRows_nested_unnamed :
    Document.parse unnamedText =
        .ok (Document.ofTree false (userTable "\x7b\x7bUsers.\x7d\x7d")) ∧
      Params.ofJson unnamedJson = .ok unnamedParams ∧
      NestedRow ((Document.ofTree false (userTable "\x7b\x7bUsers.\x7d\x7d")).liveTree 0) [0, 0, 0]
        (userRow "\x7b\x7bUsers.\x7d\x7d") unnamedMarker [0, 1, 0] friendRow friendMarker ∧
      unnamedMarker.key = (firstParam unnamedParams).absoluteKey ++ "." ++ "" ∧
      unnamedParams.pendingList? unnamedMarker.key = some ⟨firstParam unnamedParams, ""⟩ ∧
      unnamedParams.pendingList? friendMarker.key =
        some ⟨firstParam unnamedParams, "Friends.Name"⟩ ∧
      (∀ segment ∈ Key.segments friendMarker.key, segment ≠ "") ∧
      (∀ item ∈ (firstParam unnamedParams).children,
        inItem (firstParam unnamedParams) item "" = "Users.1." ∧
          unnamedParams.pendingList? (inItem (firstParam unnamedParams) item "") = none) ∧
      (treePlaceholders ((expandRows (Document.ofTree false
          (userTable "\x7b\x7bUsers.\x7d\x7d")) unnamedParams).1.liveTree 0)).map (·.key) =
        ["Users.1", "Users.1.Friends.1.Name"] ∧
      [(expandRows (Document.ofTree false (userTable "\x7b\x7bUsers.\x7d\x7d"))
          unnamedParams).1.liveTree 0] ≠
        Tree.splice
          ((firstParam unnamedParams).children.flatMap fun item =>
            copyFor unnamedParams (userRow "\x7b\x7bUsers.\x7d\x7d")
              (inItem (firstParam unnamedParams) item "") [0, 1, 0] friendRow
              (inItem (firstParam unnamedParams) item "Friends.Name"))
          [0, 0, 0]
          ((Document.ofTree false (userTable "\x7b\x7bUsers.\x7d\x7d")).liveTree 0) := by
  have rows : NestedRow
      ((Document.ofTree false (userTable "\x7b\x7bUsers.\x7d\x7d")).liveTree 0) [0, 0, 0]
      (userRow "\x7b\x7bUsers.\x7d\x7d") unnamedMarker [0, 1, 0] friendRow friendMarker :=
    { rowAt := rfl
      isRow := rfl
      innerAt := rfl
      innerIsRow := rfl
      oneInner := by decide +kernel
      noOthers := by decide +kernel
      own := ⟨by decide +kernel, by decide +kernel⟩
      nested := ⟨by decide +kernel, by decide +kernel⟩ }
  have top : unnamedParams.top = [firstParam unnamedParams] := rfl
  have ownPending : unnamedParams.pendingList? unnamedMarker.key =
      some ⟨firstParam unnamedParams, ""⟩ := by
    have segments : Key.segments unnamedMarker.key = ["Users", ""] := by decide +kernel
    have found : (unnamedParams.resolve unnamedMarker.key).isEmpty = false := by decide +kernel
    simp only [Params.pendingList?, segments, found, top]
    rfl
  have nestedPending : unnamedParams.pendingList? friendMarker.key =
      some ⟨firstParam unnamedParams, "Friends.Name"⟩ := by
    have segments : Key.segments friendMarker.key = ["Users", "Friends", "Name"] := by
      decide +kernel
    have found : (unnamedParams.resolve friendMarker.key).isEmpty = false := by decide +kernel
    simp only [Params.pendingList?, segments, found, top]
    rfl
  refine ⟨by cbv, rfl, rows, by decide +kernel, ownPending, nestedPending, by decide +kernel,
    by decide +kernel, by decide +kernel, fun same => ?_⟩
  have keys := congrArg (fun trees => (trees.flatMap treePlaceholders).map (·.key)) same
  exact absurd keys (by decide +kernel)

end WordTemplate.Filling
