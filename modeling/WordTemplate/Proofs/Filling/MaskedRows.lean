import Mathlib.Data.List.Find
import WordTemplate.Proofs.Filling.Expansion
import WordTemplate.Proofs.Filling.MaskedSingles
import WordTemplate.Proofs.Filling.Repeats

/-! Repeating rows with the braces of values hidden. The same rows repeat for the same lists, and the
placeholders in their copies are turned to the same items. -/

namespace WordTemplate

open Markup

namespace Filling

section Recode

variable {change : Char → Char} {params : Params}

theorem repeating?_recode (placeholder : Placeholder) :
    repeating? (params.recode change) placeholder =
      (repeating? params placeholder).map (Param.recode change) := by
  rw [repeating?, repeating?]
  split
  · rfl
  · rw [Params.pendingList?_recode, Option.map_map, Option.map_map]
    rfl

theorem distinct_recode (lists : List Param) :
    distinct (lists.map (Param.recode change)) = (distinct lists).map (Param.recode change) := by
  suffices ∀ kept : List Param, (lists.map (Param.recode change)).foldl
      (fun (kept : List Param) list =>
        if kept.any fun other => other.absoluteKey = list.absoluteKey then kept else kept ++ [list])
      (kept.map (Param.recode change)) =
      (lists.foldl (fun (kept : List Param) list =>
        if kept.any fun other => other.absoluteKey = list.absoluteKey then kept else kept ++ [list])
        kept).map (Param.recode change) from this []
  induction lists with
  | nil => exact fun _ => rfl
  | cons list rest ih =>
      intro kept
      have same : (kept.map (Param.recode change)).any
          (fun other => other.absoluteKey = (list.recode change).absoluteKey) =
            kept.any fun other => other.absoluteKey = list.absoluteKey := by
        rw [List.any_map]
        simp only [Function.comp_def, Param.absoluteKey_recode]
      rw [List.map_cons, List.foldl_cons, List.foldl_cons, same]
      split
      · exact ih kept
      · have extended := ih (kept ++ [list])
        rwa [List.map_append, List.map_singleton] at extended

theorem itemKey_recode (list : Param) (position : Nat) :
    itemKey (list.recode change) position = itemKey list position := by
  rw [itemKey, itemKey, Param.children_recode, List.getElem?_map]
  cases list.children[position]? with
  | none => rfl
  | some item => exact Param.key_recode item

theorem indexed_recode (pending : PendingList) (item : String) :
    (pending.recode change).indexed item = pending.indexed item := by
  simp only [PendingList.indexed, PendingList.recode, Param.absoluteKey_recode]

theorem indexedKey?_recode (lists : List Param) (position : Nat) (key : String) :
    indexedKey? (params.recode change) (lists.map (Param.recode change)) position key =
      indexedKey? params lists position key := by
  simp only [indexedKey?, Params.pendingList?_recode, Option.bind_eq_bind]
  cases params.pendingList? key with
  | none => rfl
  | some pending =>
      have sameKey : (pending.recode change).list.absoluteKey = pending.list.absoluteKey :=
        Param.absoluteKey_recode pending.list
      simp only [Option.map_some, Option.bind_some, sameKey, List.find?_map, Function.comp_def,
        Param.absoluteKey_recode]
      cases lists.find? fun list => list.absoluteKey = pending.list.absoluteKey with
      | none => rfl
      | some list =>
          simp only [Option.map_some, Option.bind_some, itemKey_recode, indexed_recode]

theorem indexPlaceholder_recode (lists : List Param) (position : Nat) (placeholder : Placeholder) :
    indexPlaceholder (params.recode change) (lists.map (Param.recode change)) position placeholder =
      indexPlaceholder params lists position placeholder := by
  rw [indexPlaceholder, indexPlaceholder, indexedKey?_recode]

end Recode

theorem expandRow?_of_lists {document : Document} {params : Params} {ownership : Ownership}
    {row : NodeId} {lists : List Param} (due : rowLists document params ownership row = lists)
    (some : lists ≠ []) : expandRow? params ownership document row =
      .some ((copyRow params lists row document row (List.range (copyCount lists))).1.delete row,
        (copyRow params lists row document row (List.range (copyCount lists))).2) := by
  subst due
  rw [expandRow?]
  split
  · rename_i none
    exact absurd none some
  · rfl

variable {mask : Mask} {params : Params} {lists : List Param}

theorem free_indexPlaceholder (keyed : params.Keyed) (pendings : Pendings params lists)
    (position : Nat) {placeholder : Placeholder} (proper : placeholder.Proper)
    (free : mask.Free placeholder.body) :
    mask.Free (indexPlaceholder params lists position placeholder).body := by
  have parts : ∀ {other : Placeholder}, mask.Free other.body ↔
      mask.Free (if other.asksKey then ['#'] else []) ∧ mask.Free other.key.toList ∧
        mask.Free other.suffix.toList := by
    intro other
    rw [Placeholder.body, Mask.free_append, Mask.free_append, and_assoc]
  obtain ⟨sign, key, suffix⟩ := parts.mp free
  refine parts.mpr ⟨sign, ?_, suffix⟩
  rw [indexPlaceholder]
  cases indexed : indexedKey? params lists position placeholder.key with
  | none => exact key
  | some next =>
      obtain ⟨pending, found, list, member, -, rfl⟩ := indexedKey?_eq_some indexed
      obtain ⟨other, former, foundOther, same⟩ := pendings list member
      have positions := PendingList.isPosition_of_pendingList? keyed foundOther
      rw [same] at positions
      exact Mask.free_indexed keyed found proper.isKey key (isPosition_itemKey positions position)

theorem masked_indexText (keyed : params.Keyed) (pendings : Pendings params lists) (position : Nat)
    {content : String} (masked : mask.Masked content) :
    mask.Masked (indexText params lists position content) := by
  rw [indexText_eq, Placeholder.rewrite]
  refine masked.render fun placeholder member => ?_
  obtain ⟨proper, free⟩ := masked.of_mem_scan member
  exact Mask.masked_source (proper.withKey (isKey_indexPlaceholder keyed pendings position proper.isKey))
    (free_indexPlaceholder keyed pendings position proper free)

theorem indexText_reveal (keyed : params.Keyed) (pendings : Pendings params lists) (position : Nat)
    {content : String} (masked : mask.Masked content) :
    indexText (params.recode mask.reveal) (lists.map (Param.recode mask.reveal)) position
        (content.map mask.reveal) =
      (indexText params lists position content).map mask.reveal := by
  rw [indexText_eq, indexText_eq, Placeholder.rewrite, Placeholder.rewrite]
  refine masked.render_reveal fun placeholder member => ?_
  obtain ⟨proper, free⟩ := masked.of_mem_scan member
  rw [indexPlaceholder_recode,
    source_reveal (free_indexPlaceholder keyed pendings position proper free)]

end Filling

namespace Mask.Covers

open Filling

variable {mask : Mask} {gone : Nat → Prop} {shown hidden : Document} {params : Params}
  {lists : List Param}

theorem rowTexts (covers : mask.Covers gone shown hidden) (ownership : Ownership) (row : NodeId) :
    rowTexts shown ownership row = rowTexts hidden ownership row := by
  have owner : owningRow? shown = owningRow? hidden := by
    funext id
    rw [← covers.reveals, owningRow?, owningRow?, Document.closest?_recode, Document.closest?_recode]
  rw [Filling.rowTexts, Filling.rowTexts, owner, ← covers.reveals, Document.findAll_recode]

theorem rowLists (covers : mask.Covers gone shown hidden) (ownership : Ownership) (row : NodeId) :
    rowLists shown (params.recode mask.reveal) ownership row =
      (rowLists hidden params ownership row).map (Param.recode mask.reveal) := by
  rw [Filling.rowLists, Filling.rowLists, ← distinct_recode, List.map_flatMap, covers.rowTexts]
  congr 1
  refine List.flatMap_congr fun id member => ?_
  have masked := covers.text_of_mem_findAll (List.mem_filter.mp member).1
  rw [covers.scan_text masked, List.map_filterMap]
  exact List.filterMap_congr fun placeholder _ => repeating?_recode placeholder

theorem indexNode (covers : mask.Covers gone shown hidden) (keyed : params.Keyed)
    (pendings : Pendings params lists) (position : Nat) {id : NodeId} (kept : ¬ gone id) :
    mask.Covers gone
      (indexNode (params.recode mask.reveal) (lists.map (Param.recode mask.reveal)) position shown id)
      (indexNode params lists position hidden id) := by
  have sameTag : shown.tag id = hidden.tag id := by
    rw [← covers.reveals, Document.tag_recode]
  simp only [Filling.indexNode, sameTag]
  split
  · rename_i isText
    have masked := covers.text kept isText
    have turned := covers.setText id (masked_indexText keyed pendings position masked)
    rw [covers.text_reveal, indexText_reveal keyed pendings position masked]
    exact turned.mapValues kept (masked_indexText keyed pendings position)
      (indexText_reveal keyed pendings position)
  · exact covers.mapValues kept (masked_indexText keyed pendings position)
      (indexText_reveal keyed pendings position)

theorem indexSubtree (covers : mask.Covers gone shown hidden) (keyed : params.Keyed)
    (pendings : Pendings params lists) (position : Nat) {id : NodeId} (kept : ¬ gone id) :
    mask.Covers gone
      (indexSubtree (params.recode mask.reveal) (lists.map (Param.recode mask.reveal)) position shown id)
      (indexSubtree params lists position hidden id) := by
  have sameBelow : shown.descendants id = hidden.descendants id := by
    rw [← covers.reveals, Document.descendants_recode]
  have keptBelow : ∀ inner ∈ hidden.descendants id, ¬ gone inner :=
    fun inner below => covers.severed.kept_of_mem_descendants below
  rw [Filling.indexSubtree, Filling.indexSubtree, sameBelow]
  refine covers.foldl fun inner member shown hidden covers => ?_
  refine covers.indexNode keyed pendings position ?_
  rcases List.mem_cons.mp member with here | below
  · exact here ▸ kept
  · exact keptBelow inner below

theorem copyRow (covers : mask.Covers gone shown hidden) (keyed : params.Keyed)
    (pendings : Pendings params lists) {row anchor : NodeId} (rowKept : ¬ gone row)
    (anchorKept : ¬ gone anchor) (positions : List Nat) :
    mask.Covers gone
        (copyRow (params.recode mask.reveal) (lists.map (Param.recode mask.reveal)) row shown anchor
          positions).1
        (copyRow params lists row hidden anchor positions).1 ∧
      (copyRow (params.recode mask.reveal) (lists.map (Param.recode mask.reveal)) row shown anchor
          positions).2 = (copyRow params lists row hidden anchor positions).2 ∧
      ∀ copy ∈ (copyRow params lists row hidden anchor positions).2, ¬ gone copy := by
  induction positions generalizing shown hidden anchor with
  | nil => exact ⟨covers, rfl, by simp [Filling.copyRow]⟩
  | cons position rest ih =>
      have copyKept : ¬ gone hidden.size := covers.kept_of_size_le (Nat.le_refl _)
      have sameCopy : (shown.cloneSubtree row).2 = hidden.size := by
        rw [← covers.reveals, Document.cloneSubtree_recode]
        rfl
      have placed := (covers.cloneSubtree rowKept).insertAfter anchorKept copyKept
      obtain ⟨next, same, kept⟩ := ih (placed.indexSubtree keyed pendings position copyKept) copyKept
      simp only [Filling.copyRow, sameCopy]
      exact ⟨next, congrArg (hidden.size :: ·) same, List.forall_mem_cons.mpr ⟨copyKept, kept⟩⟩

variable (mask gone) in
structure Expanded (next after : Document × List NodeId) : Prop where
  covers : mask.Covers gone next.1 after.1
  copies : next.2 = after.2
  kept : ∀ copy ∈ after.2, ¬ gone copy

theorem expandRow? (covers : mask.Covers gone shown hidden) (keyed : params.Keyed)
    (ownership : Ownership) {row : NodeId} (kept : ¬ gone row) :
    Option.Rel (Expanded mask gone) (expandRow? (params.recode mask.reveal) ownership shown row)
      (expandRow? params ownership hidden row) := by
  have pendings : Pendings params (Filling.rowLists hidden params ownership row) := by
    rw [rowLists_eq]
    exact pendings_listsOf params _
  have shownLists : Filling.rowLists shown (params.recode mask.reveal) ownership row =
      (Filling.rowLists hidden params ownership row).map (Param.recode mask.reveal) :=
    covers.rowLists ownership row
  generalize due : Filling.rowLists hidden params ownership row = lists at pendings shownLists
  by_cases none : lists = []
  · rw [none] at due shownLists
    rw [Filling.expandRow?, Filling.expandRow?, due, shownLists]
    exact .none
  · have counts : copyCount (lists.map (Param.recode mask.reveal)) = copyCount lists := by
      rw [copyCount, copyCount, List.map_map]
      exact congrArg _ (List.map_congr_left fun list _ => Param.itemCount_recode list)
    obtain ⟨copied, same, copiesKept⟩ := covers.copyRow keyed pendings kept kept
      (List.range (copyCount lists))
    rw [expandRow?_of_lists due none, expandRow?_of_lists shownLists (by simpa using none), counts]
    exact .some ⟨copied.delete row, same, copiesKept⟩

theorem expandVisited (keyed : params.Keyed) :
    Visits mask gone (fun own other : Nat × List NodeId => own = other ∧ ∀ copy ∈ other.2, ¬ gone copy)
      (expandVisited (params.recode mask.reveal)) (expandVisited params) := by
  rintro shown hidden own ⟨count, copies⟩ id covers ⟨rfl, copiesKept⟩ live
  have sameRow : shown.isAny rowTags id = hidden.isAny rowTags id := by
    rw [← covers.reveals, Document.isAny_recode]
  simp only [Filling.expandVisited, sameRow]
  split
  · have related := covers.expandRow? keyed .own (covers.severed.kept_of_isLive live)
    generalize Filling.expandRow? (params.recode mask.reveal) .own shown id = next at related
    generalize Filling.expandRow? params .own hidden id = after at related
    cases related with
    | none => exact ⟨covers, ⟨rfl, copiesKept⟩, rfl⟩
    | some expanded =>
        refine ⟨expanded.covers, ⟨?_, List.forall_mem_append.mpr ⟨copiesKept, expanded.kept⟩⟩, rfl⟩
        simp only [expanded.copies]
  · exact ⟨covers, ⟨rfl, copiesKept⟩, rfl⟩

variable (mask gone) in
def StepsAlike (first second : Document × Nat → NodeId → Document × Nat) : Prop :=
  ∀ id, ¬ gone id → ∀ (shown hidden : Document) (count : Nat), mask.Covers gone shown hidden →
    mask.Covers gone (first (shown, count) id).1 (second (hidden, count) id).1 ∧
      (first (shown, count) id).2 = (second (hidden, count) id).2

theorem StepsAlike.foldl {first second : Document × Nat → NodeId → Document × Nat}
    (alike : StepsAlike mask gone first second) {ids : List NodeId} (kept : ∀ id ∈ ids, ¬ gone id)
    (count : Nat) (covers : mask.Covers gone shown hidden) :
    mask.Covers gone (ids.foldl first (shown, count)).1 (ids.foldl second (hidden, count)).1 ∧
      (ids.foldl first (shown, count)).2 = (ids.foldl second (hidden, count)).2 := by
  refine foldl_walkers (fun id member shown hidden covers agrees => ?_) covers rfl
  obtain ⟨shown, own⟩ := shown
  obtain ⟨hidden, other⟩ := hidden
  obtain rfl : own = other := agrees
  exact alike id (kept id member) shown hidden own covers

theorem expandBelow_succ (keyed : params.Keyed) {fuel : Nat}
    (copy : StepsAlike mask gone (expandCopy (params.recode mask.reveal) fuel)
      (expandCopy params fuel)) :
    StepsAlike mask gone (expandBelow (params.recode mask.reveal) (fuel + 1))
      (expandBelow params (fuel + 1)) := by
  intro scope _ shown hidden count covers
  have none : (count, ([] : List NodeId)) = (count, []) ∧
      ∀ copy ∈ (count, ([] : List NodeId)).2, ¬ gone copy := by simp
  obtain ⟨walked, same, kept⟩ := walk (expandVisited keyed) covers none scope
  rw [expandBelow, expandBelow]
  generalize shown.walk scope (Filling.expandVisited (params.recode mask.reveal)) (count, []) = next
    at walked same
  generalize hidden.walk scope (Filling.expandVisited params) (count, []) = after at walked same kept
  obtain ⟨expanded, counted, copies⟩ := next
  obtain ⟨other, _, _⟩ := after
  cases same
  exact copy.foldl kept counted walked

theorem expandCopy_succ (keyed : params.Keyed) {fuel : Nat}
    (below : StepsAlike mask gone (expandBelow (params.recode mask.reveal) fuel)
      (expandBelow params fuel))
    (copy : StepsAlike mask gone (expandCopy (params.recode mask.reveal) fuel)
      (expandCopy params fuel)) :
    StepsAlike mask gone (expandCopy (params.recode mask.reveal) (fuel + 1))
      (expandCopy params (fuel + 1)) := by
  intro row kept shown hidden count covers
  have related := covers.expandRow? keyed .own kept
  rw [expandCopy, expandCopy]
  generalize Filling.expandRow? (params.recode mask.reveal) .own shown row = next at related
  generalize Filling.expandRow? params .own hidden row = after at related
  cases related with
  | none => exact below row kept shown hidden count covers
  | some expanded =>
      simp only [expanded.copies]
      exact copy.foldl expanded.kept _ expanded.covers

theorem expand (keyed : params.Keyed) (fuel : Nat) :
    StepsAlike mask gone (expandBelow (params.recode mask.reveal) fuel) (expandBelow params fuel) ∧
      StepsAlike mask gone (expandCopy (params.recode mask.reveal) fuel) (expandCopy params fuel) := by
  induction fuel with
  | zero =>
      refine ⟨fun scope _ shown hidden count covers => ?_, fun row _ shown hidden count covers => ?_⟩
      · rw [expandBelow, expandBelow]
        exact ⟨covers, rfl⟩
      · rw [expandCopy, expandCopy]
        exact ⟨covers, rfl⟩
  | succ fuel ih => exact ⟨expandBelow_succ keyed ih.2, expandCopy_succ keyed ih.1 ih.2⟩

theorem expansionFuel (covers : mask.Covers gone shown hidden) :
    expansionFuel shown (params.recode mask.reveal) = expansionFuel hidden params := by
  rw [Filling.expansionFuel, Filling.expansionFuel, ← covers.reveals, Document.size_recode,
    Params.depth_recode]

theorem expandRows (covers : mask.Covers gone shown hidden) (keyed : params.Keyed) :
    mask.Covers gone (expandRows shown (params.recode mask.reveal)).1 (expandRows hidden params).1 := by
  have sameRoot : shown.root = hidden.root := by
    rw [← covers.reveals, Document.root_recode]
  rw [Filling.expandRows, Filling.expandRows, covers.expansionFuel, sameRoot]
  exact ((expand keyed _).1 hidden.root covers.root shown hidden 0 covers).1

theorem isPending (covers : mask.Covers gone shown hidden) {id : NodeId}
    (masked : mask.Masked (hidden.text id)) :
    isPending shown (params.recode mask.reveal) id = isPending hidden params id := by
  simp only [Filling.isPending, covers.scan_text masked, repeating?_recode, Option.isSome_map]

theorem nextPending? (covers : mask.Covers gone shown hidden) (skipped : List NodeId) :
    nextPending? (params.recode mask.reveal) shown skipped = nextPending? params hidden skipped := by
  have same : shown.findAll shown.root [Wordml.text] = hidden.findAll hidden.root [Wordml.text] := by
    rw [← covers.reveals, Document.root_recode, Document.findAll_recode]
  rw [Filling.nextPending?, Filling.nextPending?, same]
  refine List.find?_congr fun id member => ?_
  rw [covers.isPending (covers.text_of_mem_findAll member)]

theorem expandAround? (covers : mask.Covers gone shown hidden) (keyed : params.Keyed) {id : NodeId}
    (kept : ¬ gone id) :
    Option.Rel (Expanded mask gone) (expandAround? (params.recode mask.reveal) shown id)
      (expandAround? params hidden id) := by
  have around : shown.closest? id rowTags = hidden.closest? id rowTags := by
    rw [← covers.reveals, Document.closest?_recode]
  rw [Filling.expandAround?, Filling.expandAround?, around]
  cases found : hidden.closest? id rowTags with
  | none => exact .none
  | some row => exact covers.expandRow? keyed .below (covers.severed.kept_of_closest? kept found)

theorem expandPending (keyed : params.Keyed) (fuel : Nat) (skipped : List NodeId)
    {shown hidden : Document} (count : Nat) (covers : mask.Covers gone shown hidden) :
    mask.Covers gone
      (expandPending (params.recode mask.reveal) fuel skipped (shown, count)).1
      (expandPending params fuel skipped (hidden, count)).1 := by
  induction fuel generalizing skipped shown hidden count with
  | zero =>
      rw [Filling.expandPending, Filling.expandPending]
      exact covers
  | succ fuel ih =>
      rw [expandPending_succ, expandPending_succ, covers.nextPending?]
      cases due : Filling.nextPending? params hidden skipped with
      | none => exact covers
      | some id =>
          have kept := covers.kept_of_mem_findAll (List.mem_of_find?_eq_some due)
          have related := covers.expandAround? keyed kept
          simp only
          generalize Filling.expandAround? (params.recode mask.reveal) shown id = next at related
          generalize Filling.expandAround? params hidden id = after at related
          cases related with
          | none => exact ih _ count covers
          | @some next after expanded =>
              obtain ⟨shown, copies⟩ := next
              obtain ⟨hidden, same⟩ := after
              obtain rfl : copies = same := expanded.copies
              simp only [expanded.covers.expansionFuel]
              have expandedCopies :=
                (expand keyed (Filling.expansionFuel hidden params)).2.foldl expanded.kept (count + 1)
                  expanded.covers
              generalize copies.foldl (expandCopy (params.recode mask.reveal)
                (Filling.expansionFuel hidden params)) (shown, count + 1) = first at expandedCopies
              generalize copies.foldl (expandCopy params (Filling.expansionFuel hidden params))
                (hidden, count + 1) = second at expandedCopies
              obtain ⟨first, total⟩ := first
              obtain ⟨second, other⟩ := second
              obtain ⟨covers, rfl⟩ := expandedCopies
              exact ih skipped total covers

theorem copyBound (covers : mask.Covers gone shown hidden) :
    copyBound shown (params.recode mask.reveal) = copyBound hidden params := by
  rw [Filling.copyBound, Filling.copyBound, ← covers.reveals, Document.depth_recode,
    Params.depth_recode, Params.all_recode, List.length_map]

theorem expandLeftovers (covers : mask.Covers gone shown hidden) (keyed : params.Keyed) :
    mask.Covers gone (expandLeftovers shown (params.recode mask.reveal)).1
      (expandLeftovers hidden params).1 := by
  have sameSize : shown.size = hidden.size := by
    rw [← covers.reveals, Document.size_recode]
  rw [Filling.expandLeftovers, Filling.expandLeftovers, covers.copyBound, sameSize]
  exact expandPending keyed _ [] 0 covers

end Mask.Covers

end WordTemplate
