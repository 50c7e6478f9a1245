import WordTemplate.Proofs.Filling.RowRuns
import WordTemplate.Proofs.Filling.SoleMarker

/-! Expanding the rows of a document that has been read: it comes to an end, leaves nothing pending
inside of rows, and puts one row for every item in the place of a row. -/

namespace WordTemplate.Filling

open Markup
open Outline (idsAll)
open Document (Extends)

variable {params : Params}

theorem listsOfRow_of_not_row {inRow : Bool} {element : Element} {children : List Tree}
    (notRow : rowTags.contains element.tag = false) :
    listsOfRow params inRow (.node element children) = [] := by
  have guarded : ownedTexts inRow (.node element children) = [] := by
    by_contra owned
    have found := contains_of_ownedTexts owned
    have tag : (guards inRow).contains element.tag = true := found
    cases inRow with
    | false =>
        rw [show guards false = rowTags from rfl, notRow] at tag
        exact absurd tag (by decide)
    | true =>
        simp only [guards, if_true, List.contains_cons, List.contains_nil, Bool.or_false,
          beq_iff_eq] at tag
        simp [rowTags, tag] at notRow
  rw [listsOfRow, guarded]
  rfl

/-- What the expansion of all rows comes to for a document whose root is no row. -/
structure RowsExpanded (params : Params) (document : Document) (root after : Outline)
    (result : Document × Nat) : Prop where
  id : after.id = document.root
  holds : result.1.Holds [after]
  expands : Expands params false [root.toTree document] [after.toTree result.1]
  grown : document.Extends result.1
  runs : Runs params [.within document.root] (document, 0) result

theorem rowsExpanded (keyed : params.Keyed) {document : Document} {root : Outline}
    (holds : document.Holds [root]) (id : root.id = document.root)
    (notRow : document.isAny rowTags document.root = false) :
    ∃ after, RowsExpanded params document root after (expandRows document params) := by
  cases root with
  | node top children =>
      rw [Outline.id_node] at id
      subst id
      obtain ⟨outlines, expanded⟩ := expandRows_spec keyed holds
      generalize expandRows document params = result at expanded ⊢
      refine ⟨.node document.root outlines, rfl, ?_, ?_, expanded.grown, expanded.runs⟩
      · simpa [Context.fill] using expanded.holds
      · have bound : document.root < document.size :=
          holds.lt_size (by simp [idsAll, Outline.ids])
        have here := expanded.grown.toElement document.root bound
        have inner := expanded.expands
        rw [inRow_under] at inner
        rw [Outline.toTree, Outline.toTree, here]
        exact .keeps (listsOfRow_of_not_row notRow) inner .nil

section Complete

variable {document : Document}

theorem settled_of_fill {context : Context} {outline : Outline}
    (settled : SettledAll params false (Outline.toTrees document (context.fill [outline]))) :
    Settled params (inRow document context) (outline.toTree document) := by
  induction context generalizing outline with
  | top before after =>
      simp only [Context.fill, Outline.toTrees_append, settledAll_append, Outline.toTrees] at settled
      exact settled.1.2.1
  | under outer before after id ih =>
      have above := (ih settled).2
      rw [Outline.toTrees_append, Outline.toTrees_append, settledAll_append, settledAll_append,
        ← inRow_under before after] at above
      exact above.1.2.1

theorem exists_context_of_closest? {tags : List String} {context : Context} (outline : Outline)
    {found : NodeId} (closest : context.closest? document tags = some found) :
    ∃ (above : Context) (top : Outline), top.id = found ∧
      context.fill [outline] = above.fill [top] ∧ ∀ id ∈ outline.ids, id ∈ idsAll top.children := by
  induction context generalizing outline with
  | top before after => simp [Context.closest?] at closest
  | under outer before after id ih =>
      have below : ∀ inner ∈ outline.ids, inner ∈ idsAll (before ++ [outline] ++ after) := by
        intro inner member
        simp [idsAll, member]
      rw [Context.closest?] at closest
      split at closest
      · simp only [Option.some.injEq] at closest
        exact ⟨outer, .node id (before ++ [outline] ++ after), closest, rfl, below⟩
      · obtain ⟨above, top, same, whole, inside⟩ :=
          ih (.node id (before ++ [outline] ++ after)) closest
        refine ⟨above, top, same, whole, fun inner member => inside inner ?_⟩
        rw [Outline.ids, List.mem_cons]
        exact .inr (below inner member)

theorem closest?_rowTags (context : Context) :
    (context.closest? document rowTags).isSome = (ownerOf? document context).isSome := by
  induction context with
  | top before after => rfl
  | under outer before after id ih =>
      by_cases isRow : document.tag id = Wordml.row
      · rw [ownerOf?_of_row isRow, Context.closest?, if_pos (by simp [Document.isAny, rowTags, isRow])]
      · by_cases isParagraph : document.tag id = Wordml.paragraph
        · rw [ownerOf?_of_paragraph isParagraph, Context.closest?,
            if_pos (by simp [Document.isAny, rowTags, isParagraph])]
          split
          · rename_i inside
            rw [inRow, Context.isInside] at inside
            rw [ownerOf?, Option.isSome_or, inside]
            rfl
          · rfl
        · rw [ownerOf?_of_other isRow isParagraph, Context.closest?,
            if_neg (by simp [Document.isAny, rowTags, isRow, isParagraph]), ih]

/-- No text inside of a row of a settled document asks for a repetition. -/
theorem repeating?_of_settled {root : Outline} (holds : document.Holds [root])
    (settled : Settled params false (root.toTree document)) {id : NodeId}
    (live : document.isLive id = true) (isText : document.tag id = Wordml.text)
    (inside : (document.closest? id rowTags).isSome = true) :
    ∀ placeholder ∈ Placeholder.scan (document.text id),
      repeating? params placeholder = none := by
  obtain ⟨context, outline, rfl, whole⟩ := Document.exists_context (holds.mem_of_isLive id live)
  rw [whole] at holds
  have notRow : document.isAny rowTags outline.id = false := by
    rw [Document.isAny, isText]
    decide
  rw [holds.closest?, if_neg (Bool.eq_false_iff.mp notRow), closest?_rowTags,
    Option.isSome_iff_exists] at inside
  obtain ⟨row, owner⟩ := inside
  have owning : owningRow? document outline.id = some row := by
    rw [owningRow?_eq holds [] [], ownerOf?_of_other _ _, owner]
    · rw [isText]
      decide
    · rw [isText]
      decide
  have found : ∃ tags, context.closest? document tags = some row := by
    rw [ownerOf?, Option.or_eq_some_iff] at owner
    rcases owner with first | ⟨-, second⟩
    · exact ⟨_, first⟩
    · exact ⟨_, second⟩
  obtain ⟨tags, closest⟩ := found
  obtain ⟨above, top, rfl, same, below⟩ :=
    exists_context_of_closest? outline closest
  have listed := below outline.id outline.id_mem_ids
  rw [same] at holds whole
  have forest : SettledAll params false (Outline.toTrees document (above.fill [top])) := by
    rw [← whole]
    exact ⟨settled, trivial⟩
  have none := (settled_of_fill forest)
  have lists : listsOfRow params (inRow document above) (top.toTree document) = [] := by
    cases top
    exact none.1
  rw [listsOfRow, ← rowTexts_own holds, listsOf_eq_nil_iff] at lists
  apply lists
  apply List.mem_map_of_mem
  rw [rowTexts, Document.findAll, holds.descendants, List.filter_filter, List.mem_filter]
  refine ⟨listed, ?_⟩
  simp [owning, Document.isAny_singleton.mpr isText]

end Complete

section Leftovers

def nextPending? (params : Params) (document : Document) (skipped : List NodeId) :
    Option NodeId :=
  (document.findAll document.root [Wordml.text]).find? fun id =>
    !skipped.contains id && isPending document params id

def expandAround? (params : Params) (document : Document) (id : NodeId) :
    Option (Document × List NodeId) :=
  (document.closest? id rowTags).bind (expandRow? params .below document)

/-- A run over the leftovers without a bound on its steps. -/
inductive RunsOver (params : Params) : List NodeId → Document × Nat → Document × Nat → Prop
  | done {skipped : List NodeId} {document : Document} {count : Nat}
      (none : nextPending? params document skipped = none) :
      RunsOver params skipped (document, count) (document, count)
  | skips {skipped : List NodeId} {document : Document} {count : Nat} {id : NodeId}
      {final : Document × Nat} (found : nextPending? params document skipped = some id)
      (outside : expandAround? params document id = none)
      (next : RunsOver params (id :: skipped) (document, count) final) :
      RunsOver params skipped (document, count) final
  | expands {skipped : List NodeId} {document expanded : Document} {count : Nat} {id : NodeId}
      {copies : List NodeId} {middle final : Document × Nat}
      (found : nextPending? params document skipped = some id)
      (expand : expandAround? params document id = some (expanded, copies))
      (inner : Runs params (copies.map .copy) (expanded, count + 1) middle)
      (next : RunsOver params skipped middle final) :
      RunsOver params skipped (document, count) final

def Quiet (params : Params) (document : Document) : Prop :=
  ∀ id ∈ document.findAll document.root [Wordml.text],
    (document.closest? id rowTags).isSome = true → isPending document params id = false

variable {document : Document}

theorem expandAround?_of_quiet (quiet : Quiet params document) {skipped : List NodeId} {id : NodeId}
    (found : nextPending? params document skipped = some id) :
    expandAround? params document id = none := by
  have pending := List.find?_some found
  have listed := List.mem_of_find?_eq_some found
  rw [expandAround?]
  cases closest : document.closest? id rowTags with
  | none => rfl
  | some row =>
      have still := quiet id listed (by rw [closest]; rfl)
      rw [still] at pending
      simp at pending

theorem expandPending_succ (fuel : Nat) (skipped : List NodeId) (count : Nat) :
    expandPending params (fuel + 1) skipped (document, count) =
      match nextPending? params document skipped with
      | none => (document, count)
      | some id =>
        match expandAround? params document id with
        | none => expandPending params fuel (id :: skipped) (document, count)
        | some (expanded, copies) =>
          expandPending params fuel skipped
            (copies.foldl (expandCopy params (expansionFuel expanded params)) (expanded, count + 1)) :=
  rfl

theorem expandPending_of_quiet (quiet : Quiet params document) (fuel : Nat)
    (skipped : List NodeId) (count : Nat) :
    expandPending params fuel skipped (document, count) = (document, count) := by
  induction fuel generalizing skipped with
  | zero => rfl
  | succ fuel ih =>
      rw [expandPending_succ]
      cases found : nextPending? params document skipped with
      | none => rfl
      | some id => simp only [expandAround?_of_quiet quiet found, ih]

/-- A run over a document without leftovers skips the texts outside of rows, one after the other. -/
theorem runsOver_of_quiet (quiet : Quiet params document) (count left : Nat)
    (skipped : List NodeId)
    (bound : ((document.findAll document.root [Wordml.text]).filter
      fun id => !skipped.contains id).length ≤ left) :
    RunsOver params skipped (document, count) (document, count) := by
  induction left generalizing skipped with
  | zero =>
      apply RunsOver.done
      rw [nextPending?, List.find?_eq_none]
      intro id listed pending
      have none := List.length_eq_zero_iff.mp (Nat.le_zero.mp bound)
      rw [List.filter_eq_nil_iff] at none
      simp only [Bool.and_eq_true] at pending
      exact none id listed pending.1
  | succ left ih =>
      cases found : nextPending? params document skipped with
      | none => exact .done found
      | some id =>
          refine .skips found (expandAround?_of_quiet quiet found) (ih (id :: skipped) ?_)
          have listed := List.mem_of_find?_eq_some found
          have pending := List.find?_some found
          simp only [Bool.and_eq_true] at pending
          have fewer : ((document.findAll document.root [Wordml.text]).filter
              fun other => !(id :: skipped).contains other).length <
              ((document.findAll document.root [Wordml.text]).filter
                fun other => !skipped.contains other).length := by
            have split : (document.findAll document.root [Wordml.text]).filter
                (fun other => !(id :: skipped).contains other) =
                ((document.findAll document.root [Wordml.text]).filter
                  fun other => !skipped.contains other).filter fun other => other ≠ id := by
              rw [List.filter_filter]
              apply List.filter_congr
              intro other _
              simp
            rw [split]
            apply List.length_filter_lt_length_iff_exists.mpr
            exact ⟨id, List.mem_filter.mpr ⟨listed, pending.1⟩, by simp⟩
          omega

theorem RowsExpanded.quiet {root after : Outline} {result : Document × Nat}
    (done : RowsExpanded params document root after result) : Quiet params result.1 := by
  intro id listed inside
  rw [Document.findAll, done.grown.root, ← done.id] at listed
  have atRoot : result.1.Holds ((Context.top [] []).fill [after]) := done.holds
  rw [atRoot.descendants, List.mem_filter] at listed
  have live : result.1.isLive id = true := done.holds.isLive_of_mem (by
    cases after
    simp only [idsAll, Outline.ids, List.append_nil, List.mem_cons]
    exact .inr listed.1)
  have none := repeating?_of_settled done.holds done.expands.settled.1 live
    (Document.isAny_singleton.mp listed.2) inside
  rw [isPending, Bool.eq_false_iff, ne_eq, List.any_eq_true, not_exists]
  rintro placeholder ⟨scanned, repeats⟩
  rw [none placeholder scanned] at repeats
  simp at repeats

end Leftovers

section Completeness

/-- Expansion leaves no text inside of rows pending, and so nothing for the leftovers; both runs come to
an end without fuel. -/
theorem expandRows_complete {text : String} {document : Document}
    (parsed : Document.parse text = .ok document)
    (notRow : document.isAny rowTags document.root = false) {json : Json}
    (built : Params.ofJson json = .ok params) :
    Runs params [.within document.root] (document, 0) (expandRows document params) ∧
      (∀ id, (expandRows document params).1.isLive id = true →
        (expandRows document params).1.tag id = Wordml.text →
        ((expandRows document params).1.closest? id rowTags).isSome = true →
        ∀ placeholder ∈ Placeholder.scan ((expandRows document params).1.text id),
          placeholder.isInline = false → params.pendingList? placeholder.key = none) ∧
      expandLeftovers (expandRows document params).1 params =
        ((expandRows document params).1, 0) ∧
      RunsOver params [] ((expandRows document params).1, 0)
        ((expandRows document params).1, 0) := by
  have keyed := Params.keyed_ofJson built
  obtain ⟨declared, tree, rfl⟩ := Document.exists_ofTree_of_parse parsed
  obtain ⟨after, done⟩ := rowsExpanded keyed (Document.holds_ofTree declared tree)
    (Tree.id_outline 0 tree) notRow
  generalize expandRows (Document.ofTree declared tree) params = result at done ⊢
  have settled := done.expands.settled.1
  have complete := fun id (live : result.1.isLive id = true) isText inside =>
    repeating?_of_settled done.holds settled live isText inside
  refine ⟨done.runs, ?_, ?_, ?_⟩
  · intro id live isText inside placeholder scanned single
    have none := complete id live isText inside placeholder scanned
    cases found : params.pendingList? placeholder.key with
    | none => rfl
    | some pending =>
        rw [repeating?_eq_some.mpr ⟨single, pending, found, rfl⟩] at none
        simp at none
  · exact expandPending_of_quiet done.quiet _ _ _
  · exact runsOver_of_quiet done.quiet 0 _ [] (Nat.le_refl _)

/-- A paragraph that repeats for lists of unequal lengths, one of them empty. -/
def unevenText : String :=
  "<w:document><w:body><w:p><w:r><w:t>\x7b\x7bRooms.Seats\x7d\x7d \x7b\x7bGuests.Name\x7d\x7d " ++
    "\x7b\x7bNotes.Line\x7d\x7d</w:t></w:r></w:p></w:body></w:document>"

def unevenDocument : Document :=
  Document.ofTree false <|
    .node { tag := "w:document" } [.node { tag := "w:body" } [.node { tag := "w:p" }
      [.node { tag := "w:r" } [.node
        { tag := "w:t"
          text := "\x7b\x7bRooms.Seats\x7d\x7d \x7b\x7bGuests.Name\x7d\x7d " ++
            "\x7b\x7bNotes.Line\x7d\x7d" } []]]]]

def unevenJson : Json :=
  .object
    [("Rooms", .array [.object [("Seats", .array [.integer 1, .integer 2])]]),
      ("Guests", .array [.object [("Name", .string "Ada")], .object [("Name", .string "Bob")]]),
      ("Notes", .array [])]

def unevenParams : Params :=
  ((Params.ofJson unevenJson).toOption).getD {}

theorem expandRows_complete_uneven :
    expandLeftovers (expandRows unevenDocument unevenParams).1 unevenParams =
        ((expandRows unevenDocument unevenParams).1, 0) ∧
      ∀ id, (expandRows unevenDocument unevenParams).1.isLive id = true →
        (expandRows unevenDocument unevenParams).1.tag id = Wordml.text →
        ((expandRows unevenDocument unevenParams).1.closest? id rowTags).isSome = true →
        ∀ placeholder ∈ Placeholder.scan ((expandRows unevenDocument unevenParams).1.text id),
          placeholder.isInline = false →
            unevenParams.pendingList? placeholder.key = none := by
  have parsed : Document.parse unevenText = .ok unevenDocument := by cbv
  have built : Params.ofJson unevenJson = .ok unevenParams := rfl
  have complete := expandRows_complete parsed (by decide) built
  exact ⟨complete.2.2.1, complete.2.1⟩

end Completeness

section SoleMarker

theorem foldl_fixed {α β : Type} {step : α → β → α} {state : α} {items : List β}
    (fixed : ∀ item ∈ items, step state item = state) : items.foldl step state = state := by
  induction items with
  | nil => rfl
  | cons item rest ih =>
      rw [List.foldl_cons, fixed item (by simp)]
      exact ih fun other member => fixed other (by simp [member])

/-- A walk changes nothing where no row repeats. -/
theorem walkNode_of_settled (depth : Nat) {context : Context} {outline : Outline}
    {state : Document × Nat × List NodeId} (holds : state.1.Holds (context.fill [outline]))
    (settled : Settled params (inRow state.1 context) (outline.toTree state.1)) :
    Document.walkNode (expandVisited params) depth state outline.id = state := by
  induction depth generalizing context outline with
  | zero => rfl
  | succ depth ih =>
      obtain ⟨document, count, copies⟩ := state
      simp only at holds settled
      cases outline with
      | node id children =>
          have visited : expandVisited params document (count, copies) id =
              (document, (count, copies), .descend) :=
            expandVisited_of_settled holds settled.1 (count, copies)
          have live : document.isLive id = true := (Document.holds_fill_iff.mp holds).top.live
          have childIds : document.children id = children.map Outline.id :=
            (Document.holds_fill_iff.mp holds).top.children
          have run : Document.walkNode (expandVisited params) (depth + 1)
              (document, count, copies) id =
              (children.map Outline.id).foldl (Document.walkNode (expandVisited params) depth)
                (document, count, copies) := by
            simp only [Document.walkNode, live, visited, childIds]
            rfl
          rw [Outline.id_node, run]
          apply foldl_fixed
          intro child listed
          obtain ⟨outline, member, rfl⟩ := List.mem_map.mp listed
          obtain ⟨front, back, rfl⟩ := List.append_of_mem member
          refine ih (Context.holds_child holds) ?_
          have below := settled.2
          rw [Outline.toTrees_append, settledAll_append, Outline.toTrees,
            ← inRow_under front back] at below
          exact below.2.1

theorem expandRows_of_settled {document : Document} (children : List Outline)
    (holds : document.Holds [.node document.root children])
    (settled : SettledAll params (entersRow false (document.node document.root).toElement)
      (Outline.toTrees document children)) : expandRows document params = (document, 0) := by
  have inside : document.Holds ((Context.top [] []).fill [.node document.root children]) := holds
  have childIds : document.children document.root = children.map Outline.id :=
    (Document.holds_fill_iff.mp inside).top.children
  have walk : document.walk document.root (expandVisited params) (0, []) = (document, 0, []) := by
    rw [Document.walk, childIds]
    apply foldl_fixed
    intro child listed
    obtain ⟨outline, member, rfl⟩ := List.mem_map.mp listed
    obtain ⟨front, back, rfl⟩ := List.append_of_mem member
    refine walkNode_of_settled _ (Context.holds_child inside) ?_
    rw [Outline.toTrees_append, settledAll_append, Outline.toTrees] at settled
    rw [inRow_under]
    exact settled.2.1
  rw [expandRows]
  cases expansionFuel document params with
  | zero => rfl
  | succ fuel => simp only [expandBelow, walk, List.foldl_nil]

theorem expandRows_of_expands {text : String} {document : Document}
    (parsed : Document.parse text = .ok document)
    (notRow : document.isAny rowTags document.root = false) {json : Json}
    (built : Params.ofJson json = .ok params) {trees : List Tree}
    (expands : Expands params false [document.liveTree document.root] trees) :
    Runs params [.within document.root] (document, 0) (expandRows document params) ∧
      (expandRows document params).1.root = document.root ∧
      (expandRows document params).1.declared = document.declared ∧
      [(expandRows document params).1.liveTree (expandRows document params).1.root] = trees := by
  have keyed := Params.keyed_ofJson built
  obtain ⟨declared, tree, rfl⟩ := Document.exists_ofTree_of_parse parsed
  have holds := Document.holds_ofTree declared tree
  obtain ⟨after, done⟩ := rowsExpanded keyed holds (Tree.id_outline 0 tree) notRow
  have atAfter : (expandRows (Document.ofTree declared tree) params).1.Holds
      ((Context.top [] []).fill [after]) := done.holds
  rw [Document.liveTree_ofTree, ← Document.toTree_ofTree declared tree] at expands
  refine ⟨done.runs, done.grown.root, done.grown.declared, ?_⟩
  rw [done.grown.root, ← done.id, atAfter.liveTree]
  exact done.expands.unique expands

/-- In a document with one placeholder, which stands in a row, the row is replaced by one copy for each
key that the key of the placeholder leads to, in their order, and all else stays. A key that is not
pending leaves the document as it is. -/
theorem expandRows_sole {text : String} {document : Document}
    (parsed : Document.parse text = .ok document)
    (notRow : document.isAny rowTags document.root = false) {json : Json}
    (built : Params.ofJson json = .ok params) {path : List Nat} {row : Tree}
    {marker : Placeholder}
    (leads : Tree.at? path (document.liveTree document.root) = some row)
    (lowest : IsLowestRow
      ((Tree.tagsAlong path (document.liveTree document.root)).contains Wordml.row) row)
    (sole : treePlaceholders (document.liveTree document.root) = [marker])
    (inside : HoldsSole row marker) (single : marker.isInline = false) :
    Runs params [.within document.root] (document, 0) (expandRows document params) ∧
      (expandRows document params).1.root = document.root ∧
      (expandRows document params).1.declared = document.declared ∧
      [(expandRows document params).1.liveTree (expandRows document params).1.root] =
        Tree.splice ((expandedKeys params marker.key).map fun key => rekey key row) path
          (document.liveTree document.root) ∧
      (params.pendingList? marker.key = none → expandRows document params = (document, 0)) := by
  have keyed := Params.keyed_ofJson built
  have copies := expands_of_holdsSole keyed (params.depth + 1) inside lowest single (by omega)
  have spliced := expands_splice false leads inside.all sole
    (by simpa using lowest) (by simpa using copies)
  obtain ⟨runs, root, kept, expanded⟩ := expandRows_of_expands parsed notRow built spliced
  refine ⟨runs, root, kept, expanded, fun notPending => ?_⟩
  obtain ⟨declared, tree, rfl⟩ := Document.exists_ofTree_of_parse parsed
  have holds := Document.holds_ofTree declared tree
  have atRoot : (Document.ofTree declared tree).Holds
      ((Context.top [] []).fill [tree.outline 0]) := holds
  have before : (Document.ofTree declared tree).liveTree (Document.ofTree declared tree).root =
      tree := by
    have read := atRoot.liveTree
    rw [Tree.id_outline, Document.toTree_ofTree] at read
    exact read
  rw [before] at sole
  cases tree with
  | node element children =>
      apply expandRows_of_settled (Tree.outlines 1 children) holds
      have settled : Settled params false (.node element children) := by
        apply settled_of_placeholders
        intro placeholder member
        obtain ⟨other, listed, found⟩ := List.mem_flatMap.mp member
        have same : placeholder ∈ treePlaceholders (.node element children) :=
          List.mem_flatMap.mpr ⟨other, listed, List.mem_append_left _ found⟩
        rw [sole, List.mem_singleton] at same
        rw [same, repeating?, notPending]
        split <;> rfl
      have read := Document.toTree_ofTree declared (.node element children)
      rw [Tree.outline, Outline.toTree, Tree.node.injEq] at read
      have root : (Document.ofTree declared (.node element children)).root = 0 := rfl
      rw [root, read.1, read.2]
      exact settled.2

/-- A table whose one row repeats for a list inside of another one. -/
def teamRow : Tree :=
  .node { tag := "w:tr" } [.node { tag := "w:tc" } [.node { tag := "w:p" } [.node { tag := "w:r" }
    [.node { tag := "w:t", text := "\x7b\x7bTeams.Members.Name\x7d\x7d" } []]]]]

def teamTable : Tree :=
  .node { tag := "w:document" } [.node { tag := "w:body" } [.node { tag := "w:tbl" } [teamRow]]]

def teamText : String :=
  "<w:document><w:body><w:tbl><w:tr><w:tc><w:p><w:r><w:t>\x7b\x7bTeams.Members.Name\x7d\x7d" ++
    "</w:t></w:r></w:p></w:tc></w:tr></w:tbl></w:body></w:document>"

def teamMarker : Placeholder :=
  ⟨false, "Teams.Members.Name", "", none, []⟩

def member (name : String) : Json :=
  .object [("Name", .string name)]

def teamJson : Json :=
  .object [("Teams", .array
    [.object [("Members", .array [member "Ada", .null, member "Eve"])],
      .object [("Members", .array [])],
      .object [("Members", .array [member "Bob"])]])]

def teamParams : Params :=
  ((Params.ofJson teamJson).toOption).getD {}

theorem expandRows_sole_teams :
    expandedKeys teamParams teamMarker.key =
        ["Teams.1.Members.1.Name", "Teams.1.Members.3.Name", "Teams.3.Members.1.Name"] ∧
      [(expandRows (Document.ofTree false teamTable) teamParams).1.liveTree
          (expandRows (Document.ofTree false teamTable) teamParams).1.root] =
        Tree.splice ((expandedKeys teamParams teamMarker.key).map fun key => rekey key teamRow)
          [0, 0, 0] ((Document.ofTree false teamTable).liveTree 0) := by
  have parsed : Document.parse teamText = .ok (Document.ofTree false teamTable) := by cbv
  have built : Params.ofJson teamJson = .ok teamParams := rfl
  have inside : HoldsSole teamRow teamMarker := ⟨by decide +kernel, by decide +kernel⟩
  have leads : Tree.at? [0, 0, 0] ((Document.ofTree false teamTable).liveTree 0) = some teamRow :=
    rfl
  have done := expandRows_sole parsed (by decide) built leads
    (.inl (by decide)) (by decide +kernel) inside rfl
  exact ⟨by decide +kernel, done.2.2.2.1⟩

end SoleMarker

end WordTemplate.Filling
