import WordTemplate.Proofs.Filling.RowPlaces

/-! Documents with one placeholder, which stands in a row. The row is replaced by one copy for each
key that its key leads to when the items of pending lists are put in. -/

namespace WordTemplate.Filling

open Markup

section Keys

def expandedTo (params : Params) : Nat → String → List String
  | 0, key => [key]
  | fuel + 1, key =>
    match params.pendingList? key with
    | none => [key]
    | some pending =>
      pending.list.children.flatMap fun item => expandedTo params fuel (pending.indexed item.key)

/-- The keys that a key leads to when the items of every pending list are put in, list after list. No
key takes in more items than the parameters are deep. -/
def expandedKeys (params : Params) (key : String) : List String :=
  expandedTo params (params.depth + 2) key

variable {params : Params}

def Starts (key : String) : Prop :=
  (Key.segments key).head? ≠ some ""

theorem starts_indexed (keyed : params.Keyed) {key : String} {pending : PendingList}
    (found : params.pendingList? key = some pending) (starts : Starts key) {item : String}
    (position : Key.isPosition item = true) : Starts (pending.indexed item) := by
  obtain ⟨first, front, back, cut⟩ := PendingList.exists_cut keyed found
  have filled : first ≠ "" := by
    rw [Starts, cut.segments] at starts
    simpa using starts
  rw [Starts, cut.segments_indexed filled position]
  simpa using filled

theorem expandedTo_of_weight (keyed : params.Keyed) (first : Nat) {second : Nat} {key : String}
    (starts : Starts key) (less : params.depth + 1 ≤ Key.weight key + first)
    (more : params.depth + 1 ≤ Key.weight key + second) :
    expandedTo params (first + 1) key = expandedTo params (second + 1) key := by
  induction first generalizing second key with
  | zero =>
      rw [expandedTo, expandedTo]
      cases found : params.pendingList? key with
      | none => rfl
      | some pending =>
          have empty : pending.list.children = [] := by
            by_contra items
            have light := PendingList.weight_le_depth keyed found items
            omega
          simp only [empty, List.flatMap_nil]
  | succ first ih =>
      rw [expandedTo, expandedTo]
      cases found : params.pendingList? key with
      | none => rfl
      | some pending =>
          simp only
          apply List.flatMap_congr
          intro item member
          have position := PendingList.isPosition_of_pendingList? keyed found item member
          have items : pending.list.children ≠ [] := List.ne_nil_of_mem member
          have light := PendingList.weight_le_depth keyed found items
          have heavier := PendingList.weight_indexed keyed found starts position
          cases second with
          | zero => omega
          | succ second =>
              exact ih (starts_indexed keyed found starts position) (by omega) (by omega)

/-- A key that is not pending leads to itself, and one that is pending to the keys that its items lead
to, in their order. -/
theorem expandedKeys_eq (keyed : params.Keyed) {key : String} (starts : Starts key) :
    expandedKeys params key =
      match params.pendingList? key with
      | none => [key]
      | some pending =>
        pending.list.children.flatMap fun item =>
          expandedKeys params (pending.indexed item.key) := by
  rw [expandedKeys, expandedTo]
  cases found : params.pendingList? key with
  | none => rfl
  | some pending =>
      simp only
      apply List.flatMap_congr
      intro item member
      have position := PendingList.isPosition_of_pendingList? keyed found item member
      have heavier := PendingList.weight_indexed keyed found starts position
      exact expandedTo_of_weight keyed params.depth
        (starts_indexed keyed found starts position) (by omega) (by omega)

end Keys

/-- A tree whose one placeholder stands in a text. -/
structure HoldsSole (tree : Tree) (marker : Placeholder) : Prop where
  all : treePlaceholders tree = [marker]
  inText : tree.elements.flatMap textPlaceholders = [marker]

def rekeyElement (key : String) (element : Element) : Element :=
  if element.tag = Wordml.text then
    { element with
      text := Placeholder.rewrite (fun placeholder => { placeholder with key }) element.text }
  else element

/-- A tree with the key of the placeholders in its texts replaced. -/
def rekey (key : String) (tree : Tree) : Tree :=
  tree.map (rekeyElement key)

variable {params : Params}

theorem tag_rekeyElement (key : String) (element : Element) :
    (rekeyElement key element).tag = element.tag := by
  rw [rekeyElement]
  split <;> rfl

theorem isLowestRow_rekey {inRow : Bool} {row : Tree} (lowest : IsLowestRow inRow row)
    (key : String) : IsLowestRow inRow (rekey key row) :=
  isLowestRow_map (tag_rekeyElement key) lowest

theorem scan_rekey {marker : Placeholder} {key : String} (isKey : Placeholder.IsKey key.toList)
    {text : String} (sole : ∀ placeholder ∈ Placeholder.scan text, placeholder = marker) :
    Placeholder.scan (Placeholder.rewrite (fun placeholder => { placeholder with key }) text) =
      (Placeholder.scan text).map fun _ => { marker with key } := by
  rw [Placeholder.scan_rewrite]
  · apply List.map_congr_left
    intro placeholder member
    rw [sole placeholder member]
  · intro placeholder member
    exact (Piece.proper_of_mem_scan member).withKey isKey

theorem rekey_rekey {tree : Tree} {first : String} (isKey : Placeholder.IsKey first.toList)
    (second : String) : rekey second (rekey first tree) = rekey second tree := by
  rw [rekey, rekey, rekey, Tree.map_map]
  apply Tree.map_congr
  intro element _
  rw [Function.comp, rekeyElement, tag_rekeyElement]
  by_cases isText : element.tag = Wordml.text
  · rw [if_pos isText, rekeyElement, if_pos isText, rekeyElement, if_pos isText]
    simp only
    rw [Placeholder.rewrite_rewrite]
    · rfl
    · intro placeholder found
      exact (Piece.proper_of_mem_scan found).withKey isKey
  · rw [if_neg isText, rekeyElement, if_neg isText, rekeyElement, if_neg isText]

structure SoleAmong (elements : List Element) (marker : Placeholder) : Prop where
  all : elements.flatMap elementPlaceholders = [marker]
  inText : elements.flatMap textPlaceholders = [marker]

namespace SoleAmong

variable {elements : List Element} {marker : Placeholder}

theorem eq_of_mem (sole : SoleAmong elements marker) {element : Element}
    (member : element ∈ elements) {placeholder : Placeholder}
    (found : placeholder ∈ elementPlaceholders element) : placeholder = marker := by
  have listed : placeholder ∈ elements.flatMap elementPlaceholders :=
    List.mem_flatMap.mpr ⟨element, member, found⟩
  rw [sole.all] at listed
  exact List.mem_singleton.mp listed

theorem attributes (sole : SoleAmong elements marker) {element : Element}
    (member : element ∈ elements) :
    element.attributes.flatMap (fun entry => Placeholder.scan entry.value) = [] := by
  have total : ∀ elements : List Element, (elements.flatMap elementPlaceholders).length =
      (elements.flatMap textPlaceholders).length +
        (elements.flatMap fun element =>
          element.attributes.flatMap fun entry => Placeholder.scan entry.value).length := by
    intro elements
    induction elements with
    | nil => rfl
    | cons first rest ih =>
        simp only [List.flatMap_cons, List.length_append, elementPlaceholders] at ih ⊢
        omega
  have none : (elements.flatMap fun element =>
      element.attributes.flatMap fun entry => Placeholder.scan entry.value) = [] := by
    rw [← List.length_eq_zero_iff]
    simpa [sole.all, sole.inText] using total elements
  exact List.flatMap_eq_nil_iff.mp none element member

theorem isKey (sole : SoleAmong elements marker) : Placeholder.IsKey marker.key.toList := by
  have listed : marker ∈ elements.flatMap textPlaceholders := by
    rw [sole.inText]
    exact List.mem_singleton_self marker
  obtain ⟨element, -, found⟩ := List.mem_flatMap.mp listed
  rw [textPlaceholders] at found
  split at found
  · exact (Piece.proper_of_mem_scan found).isKey
  · simp at found

theorem eq_of_mem_text (sole : SoleAmong elements marker) {element : Element}
    (member : element ∈ elements) (isText : element.tag = Wordml.text) :
    ∀ placeholder ∈ Placeholder.scan element.text, placeholder = marker := by
  intro placeholder found
  apply sole.eq_of_mem member
  rw [elementPlaceholders, textPlaceholders, if_pos isText]
  exact List.mem_append_left _ found

theorem rekey (sole : SoleAmong elements marker) {key : String}
    (isKey : Placeholder.IsKey key.toList) :
    SoleAmong (elements.map (rekeyElement key)) { marker with key } := by
  have texts : ∀ element ∈ elements, textPlaceholders (rekeyElement key element) =
      (textPlaceholders element).map fun _ => { marker with key } := by
    intro element member
    rw [textPlaceholders, tag_rekeyElement, textPlaceholders]
    by_cases isText : element.tag = Wordml.text
    · rw [if_pos isText, if_pos isText, rekeyElement, if_pos isText]
      exact scan_rekey isKey (sole.eq_of_mem_text member isText)
    · rw [if_neg isText, if_neg isText]
      rfl
  have both : ∀ element ∈ elements, elementPlaceholders (rekeyElement key element) =
      textPlaceholders (rekeyElement key element) := by
    intro element member
    have attributes : (rekeyElement key element).attributes = element.attributes := by
      rw [rekeyElement]
      split <;> rfl
    rw [elementPlaceholders, attributes, sole.attributes member, List.append_nil]
  have inText : (elements.map (rekeyElement key)).flatMap textPlaceholders =
      [{ marker with key }] := by
    rw [List.flatMap_map, List.flatMap_congr texts, ← List.map_flatMap, sole.inText]
    rfl
  refine ⟨?_, inText⟩
  rw [← inText, List.flatMap_map, List.flatMap_map]
  exact List.flatMap_congr both

theorem rekeyElement_self (sole : SoleAmong elements marker) {element : Element}
    (member : element ∈ elements) : rekeyElement marker.key element = element := by
  rw [rekeyElement]
  split
  · rename_i isText
    rw [Placeholder.rewrite_self]
    intro placeholder found
    rw [sole.eq_of_mem_text member isText placeholder found]
  · rfl

theorem indexElement_eq (sole : SoleAmong elements marker) (lists : List Param) (position : Nat)
    {element : Element} (member : element ∈ elements) :
    indexElement params lists position element =
      rekeyElement (indexPlaceholder params lists position marker).key element := by
  have attributes : (element.attributes.map fun entry =>
      { entry with value := indexText params lists position entry.value }) =
      element.attributes := by
    conv_rhs => rw [← List.map_id element.attributes]
    apply List.map_congr_left
    intro entry listed
    have none := List.flatMap_eq_nil_iff.mp (sole.attributes member) entry listed
    rw [indexText_eq, Placeholder.rewrite_self]
    · rfl
    · intro placeholder found
      rw [none] at found
      simp at found
  rw [indexElement, attributes, rekeyElement]
  by_cases isText : element.tag = Wordml.text
  · rw [if_pos isText, if_pos isText, indexText_eq]
    congr 1
    apply Placeholder.rewrite_congr
    intro placeholder found
    rw [sole.eq_of_mem_text member isText placeholder found]
    rfl
  · rw [if_neg isText, if_neg isText]

end SoleAmong

namespace HoldsSole

variable {tree : Tree} {marker : Placeholder}

theorem among (sole : HoldsSole tree marker) : SoleAmong tree.elements marker :=
  ⟨sole.all, sole.inText⟩

theorem isKey (sole : HoldsSole tree marker) : Placeholder.IsKey marker.key.toList :=
  sole.among.isKey

theorem rekey (sole : HoldsSole tree marker) {key : String} (isKey : Placeholder.IsKey key.toList) :
    HoldsSole (rekey key tree) { marker with key } := by
  have among := sole.among.rekey isKey
  rw [← Tree.elements_map] at among
  exact ⟨among.all, among.inText⟩

theorem rekey_self (sole : HoldsSole tree marker) : Filling.rekey marker.key tree = tree := by
  rw [Filling.rekey]
  conv_rhs => rw [← Tree.map_id tree]
  exact Tree.map_congr fun element member => sole.among.rekeyElement_self member

theorem map_indexElement (sole : HoldsSole tree marker) (lists : List Param) (position : Nat) :
    tree.map (indexElement params lists position) =
      Filling.rekey (indexPlaceholder params lists position marker).key tree :=
  Tree.map_congr fun _ member => sole.among.indexElement_eq lists position member

theorem scan_ownedTexts (sole : HoldsSole tree marker) {inRow : Bool}
    (lowest : IsLowestRow inRow tree) :
    (ownedTexts inRow tree).flatMap Placeholder.scan = [marker] := by
  rw [scan_ownedTexts_of_lowest lowest, sole.inText]

theorem listsOfRow_eq (sole : HoldsSole tree marker) {inRow : Bool}
    (lowest : IsLowestRow inRow tree) :
    listsOfRow params inRow tree = (repeating? params marker).toList := by
  have scanned : (ownedTexts inRow tree).flatMap (fun text =>
      (Placeholder.scan text).filterMap (repeating? params)) =
      (repeating? params marker).toList := by
    rw [← List.filterMap_flatMap, sole.scan_ownedTexts lowest]
    cases found : repeating? params marker <;> simp [found]
  rw [listsOfRow, listsOf, scanned]
  cases repeating? params marker <;> rfl

end HoldsSole

theorem expands_of_pending {inRow : Bool} {row : Tree} {marker : Placeholder}
    {pending : PendingList} (expanded : Param → List Tree) (keyed : params.Keyed)
    (sole : HoldsSole row marker) (lowest : IsLowestRow inRow row)
    (single : marker.isInline = false)
    (found : params.pendingList? marker.key = some pending)
    (each : ∀ item ∈ pending.list.children,
      Expands params inRow [rekey (pending.indexed item.key) row] (expanded item)) :
    Expands params inRow [row] (pending.list.children.flatMap expanded) := by
  have repeats : repeating? params marker = some pending.list :=
    repeating?_eq_some.mpr ⟨single, pending, found, rfl⟩
  have lists : listsOfRow params inRow row = [pending.list] := by
    rw [sole.listsOfRow_eq lowest, repeats]
    rfl
  apply expands_of_due lists (PendingList.isList_of_pendingList? keyed found)
  intro position item here
  rw [sole.map_indexElement, indexPlaceholder_of_item found here]
  exact each item (List.mem_of_getElem? here)

theorem expands_of_not_pending (inRow : Bool) {row : Tree} {marker : Placeholder}
    (sole : HoldsSole row marker) (found : params.pendingList? marker.key = none) :
    Settled params inRow row := by
  apply settled_of_placeholders
  intro placeholder member
  rw [sole.inText, List.mem_singleton] at member
  subst member
  rw [repeating?, found]
  split <;> rfl

/-- A row with the one placeholder expands to one copy for each key that its key leads to. -/
theorem expands_of_holdsSole (keyed : params.Keyed) (steps : Nat) {inRow : Bool} {row : Tree}
    {marker : Placeholder} (sole : HoldsSole row marker) (lowest : IsLowestRow inRow row)
    (single : marker.isInline = false)
    (enough : params.depth + 1 ≤ Key.weight marker.key + steps) :
    Expands params inRow [row]
      ((expandedTo params (steps + 1) marker.key).map fun key => rekey key row) := by
  induction steps generalizing row marker with
  | zero =>
      rw [expandedTo]
      cases found : params.pendingList? marker.key with
      | none =>
          have settled := expands_of_settled (expands_of_not_pending inRow sole found)
          simpa [sole.rekey_self] using settled
      | some pending =>
          have empty : pending.list.children = [] := by
            by_contra items
            have light := PendingList.weight_le_depth keyed found items
            omega
          have expanded := expands_of_pending (fun _ => []) keyed sole lowest single
            found (by simp [empty])
          simpa [empty] using expanded
  | succ steps ih =>
      rw [expandedTo]
      cases found : params.pendingList? marker.key with
      | none =>
          have settled := expands_of_settled (expands_of_not_pending inRow sole found)
          simpa [sole.rekey_self] using settled
      | some pending =>
          simp only
          rw [List.map_flatMap]
          apply expands_of_pending _ keyed sole lowest single found
          intro item member
          have position := PendingList.isPosition_of_pendingList? keyed found item member
          have starts := Placeholder.head?_segments_of_isKey sole.isKey
          have heavier := PendingList.weight_indexed keyed found starts position
          have isKey := Placeholder.isKey_indexed keyed found sole.isKey position
          have inner := ih (sole.rekey isKey) (isLowestRow_rekey lowest _) single (by
            simp only
            omega)
          have same : (fun key => rekey key (rekey (pending.indexed item.key) row)) =
              fun key => rekey key row := funext fun key => rekey_rekey isKey key
          rw [same] at inner
          exact inner

theorem outside_of_treePlaceholders {path : List Nat} {tree row : Tree}
    (leads : Tree.at? path tree = some row)
    (same : (treePlaceholders tree).length = (treePlaceholders row).length) :
    (tree.outside path).flatMap elementPlaceholders = [] := by
  have total := ((Tree.elements_perm_of_at? leads).flatMap_right elementPlaceholders).length_eq
  rw [List.flatMap_append, List.length_append] at total
  rw [treePlaceholders, treePlaceholders] at same
  rw [← List.length_eq_zero_iff]
  omega

theorem textPlaceholders_of_none {elements : List Element}
    (none : elements.flatMap elementPlaceholders = []) :
    elements.flatMap textPlaceholders = [] := by
  rw [List.flatMap_eq_nil_iff] at none ⊢
  intro element member
  exact (List.append_eq_nil_iff.mp (none element member)).1

theorem expands_splice {path : List Nat} {tree row : Tree} {marker : Placeholder} (inRow : Bool)
    {expanded : List Tree} (leads : Tree.at? path tree = some row)
    (inside : treePlaceholders row = [marker]) (whole : treePlaceholders tree = [marker])
    (lowest : IsLowestRow (inRow || (Tree.tagsAlong path tree).contains Wordml.row) row)
    (expands : Expands params (inRow || (Tree.tagsAlong path tree).contains Wordml.row) [row]
      expanded) :
    Expands params inRow [tree] (Tree.splice expanded path tree) := by
  have none := outside_of_treePlaceholders leads (by rw [whole, inside])
  refine expands_at inRow leads (guards_of_lowest lowest) ?_ expands
  rw [textPlaceholders_of_none none]
  simp

end WordTemplate.Filling
