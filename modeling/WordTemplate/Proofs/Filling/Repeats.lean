import WordTemplate.Proofs.Filling.RowCopies
import WordTemplate.Proofs.Filling.RowKeys
import WordTemplate.Proofs.Filling.Visits

/-! Expanding rows and filling inline placeholders keep a document rooted and tidy. The placeholders in
a copy of a row are placeholders again, and the joined values bring in no brace. -/

namespace WordTemplate.Filling

open Markup
open Markup.Document (Keeps Ages SameLinks)
open Placeholder (Tidy)
open Outline (idsAll)

variable {params : Params} {document : Document}

theorem tidy_indexText (keyed : params.Keyed) {lists : List Param} (pendings : Pendings params lists)
    (position : Nat) {text : String} (tidy : Tidy text) :
    Tidy (indexText params lists position text) := by
  have written : indexText params lists position text = String.ofList (Piece.sources
      ((Piece.ofText text).map (Piece.mapPlaceholder (indexPlaceholder params lists position)))) := by
    rw [← String.toList_inj, String.toList_ofList, indexText_eq, Placeholder.toList_rewrite]
  rw [written]
  apply Placeholder.tidy_ofList_sources
  intro piece member
  obtain ⟨origin, listed, rfl⟩ := List.mem_map.mp member
  have neat := tidy.neat origin listed
  cases origin with
  | literal content => exact neat
  | marker placeholder =>
      have proper : placeholder.Proper := neat
      exact proper.withKey (isKey_indexPlaceholder keyed pendings position proper.isKey)

theorem keeps_indexSubtree (keyed : params.Keyed) {lists : List Param}
    (pendings : Pendings params lists) (position : Nat) (document : Document) (id : NodeId) :
    Keeps Tidy document (indexSubtree params lists position document id) := by
  refine .foldl ?_ document
  intro document id _
  have attributes : ∀ document : Document, Keeps Tidy document
      (document.setAttributes id ((document.node id).attributes.map fun entry =>
        { entry with value := indexText params lists position entry.value })) := by
    intro document
    refine Document.keeps_setAttributes document id fun slots entry member => ?_
    obtain ⟨origin, listed, rfl⟩ := List.mem_map.mp member
    exact tidy_indexText keyed pendings position (slots.value id origin listed)
  simp only [indexNode]
  split
  · refine (Document.keeps_setText document id fun slots isText => ?_).trans (attributes _)
    exact tidy_indexText keyed pendings position (slots.text isText)
  · exact attributes document

theorem rowLists_eq (document : Document) (params : Params) (ownership : Ownership) (row : NodeId) :
    rowLists document params ownership row =
      listsOf params ((rowTexts document ownership row).map document.text) := by
  rw [rowLists, listsOf, List.flatMap_map]

theorem sameLinks_indexNode (lists : List Param) (position : Nat) (document : Document)
    (id : NodeId) : SameLinks document (indexNode params lists position document id) := by
  have node := @node_indexNode params lists position document id
  refine ⟨?_, ?_, ?_⟩ <;> intro other
  · rw [Document.isLive, node]
    split <;> rfl
  · rw [Document.parent?, node]
    split <;> rfl
  · rw [Document.children, node]
    split <;> rfl

theorem isLive_indexSubtree (lists : List Param) (position : Nat) (document : Document)
    (id other : NodeId) :
    (indexSubtree params lists position document id).isLive other = document.isLive other := by
  rw [indexSubtree]
  generalize id :: document.descendants id = ids
  induction ids generalizing document with
  | nil => rfl
  | cons first rest ih =>
      exact (ih _).trans ((sameLinks_indexNode lists position document first).isLive other)

theorem isLive_insertAfter (document : Document) (anchor id other : NodeId) :
    (document.insertAfter anchor id).1.isLive other = document.isLive other := by
  have detached : (document.detach id).isLive other = document.isLive other := by
    rw [Document.detach]
    split
    · rfl
    · rw [Document.isLive, Document.node_modify, Document.node_modify]
      split <;> split <;> rfl
  simp only [Document.insertAfter, Document.insertBeside]
  split
  · exact detached
  · split
    · exact detached
    · rw [← detached, Document.isLive, Document.node_modify, Document.node_modify]
      split <;> split <;> rfl

theorem isLive_cloneSubtree {row : NodeId} {id : Nat} (bound : id < document.size) :
    (document.cloneSubtree row).1.isLive id = document.isLive id :=
  Document.isLive_graft_of_lt bound

theorem isLive_clone {row : NodeId} (live : document.isLive row = true) :
    (document.cloneSubtree row).1.isLive document.size = true :=
  (Document.isLive_graft_top document document row).trans live

/-- The document with one more copy of a row. -/
def copied (params : Params) (lists : List Param) (row : NodeId) (document : Document)
    (anchor : NodeId) (position : Nat) : Document :=
  indexSubtree params lists position
    ((document.cloneSubtree row).1.insertAfter anchor document.size).1 document.size

theorem copyRow_cons (lists : List Param) (row : NodeId) (document : Document) (anchor : NodeId)
    (position : Nat) (rest : List Nat) :
    (copyRow params lists row document anchor (position :: rest)).1 =
      (copyRow params lists row (copied params lists row document anchor position) document.size
        rest).1 := by
  rw [copyRow, copied]
  rfl

section Copied

variable {lists : List Param} {row anchor : NodeId} (keyed : params.Keyed)
  (pendings : Pendings params lists)

include keyed pendings

theorem ages_copied (position : Nat) :
    Ages document (copied params lists row document anchor position) :=
  ((Document.ages_cloneSubtree document row).trans
    (Document.ages_insertAfter _ anchor document.size)).trans
      (keeps_indexSubtree keyed pendings position _ document.size).ages

theorem slots_copied (slots : document.AllSlots Tidy) (position : Nat) :
    (copied params lists row document anchor position).AllSlots Tidy := by
  have cloned := Document.slots_cloneSubtree slots row
  have placed := Document.slots_insertAfter cloned anchor document.size
  exact (keeps_indexSubtree keyed pendings position _ document.size).slots placed

omit keyed pendings in
theorem isLive_copied (position : Nat) {id : Nat} (bound : id < document.size) :
    (copied params lists row document anchor position).isLive id = document.isLive id := by
  rw [copied, isLive_indexSubtree, isLive_insertAfter, isLive_cloneSubtree bound]

omit keyed pendings in
theorem isLive_copy (rowLive : document.isLive row = true) (position : Nat) :
    (copied params lists row document anchor position).isLive document.size = true := by
  rw [copied, isLive_indexSubtree, isLive_insertAfter]
  exact isLive_clone rowLive

theorem standsBeside_copied (stands : document.StandsBeside [])
    (rowLive : document.isLive row = true) (anchorLive : document.isLive anchor = true)
    (below : anchor ≠ document.root) (position : Nat) :
    (copied params lists row document anchor position).StandsBeside [] := by
  have bound := Document.lt_size_of_isLive anchorLive
  have grafted := Document.standsBeside_graft stands rowLive
  have outside : anchor ∉ idsAll [(document.liveTree row).outline document.size] := by
    intro member
    simp only [idsAll, List.append_nil, Tree.ids_outline, List.mem_range'_1] at member
    exact Nat.not_le.mpr bound member.1
  have placed := Document.standsBeside_insertAfter grafted outside
    ((isLive_cloneSubtree bound).trans anchorLive) below
  rw [Tree.id_outline] at placed
  have indexed := keeps_indexSubtree keyed pendings position
    ((document.cloneSubtree row).1.insertAfter anchor document.size).1 document.size
  rcases indexed.rooted (.inr placed) with dead | done
  · have rootLive : document.isLive document.root = true := by
      obtain ⟨tree, top, holds⟩ := stands
      apply holds.isLive_of_mem
      rw [← top, Outline.mem_idsAll]
      exact ⟨tree, by simp, tree.id_mem_ids⟩
    have same : (copied params lists row document anchor position).isLive document.root = _ :=
      isLive_copied position stands.root_lt_size
    have root : (copied params lists row document anchor position).root = document.root :=
      (ages_copied keyed pendings position).root
    rw [copied] at same root
    rw [root, same, rootLive] at dead
    exact absurd dead.2 (by decide)
  · exact done

theorem standsBeside_copyRow {positions : List Nat} (stands : document.StandsBeside [])
    (rowLive : document.isLive row = true) (anchorLive : document.isLive anchor = true)
    (below : anchor ≠ document.root) :
    (copyRow params lists row document anchor positions).1.StandsBeside [] := by
  induction positions generalizing document anchor with
  | nil => exact stands
  | cons position rest ih =>
      rw [copyRow_cons]
      have rowBound := Document.lt_size_of_isLive rowLive
      have root : (copied params lists row document anchor position).root = document.root :=
        (ages_copied keyed pendings position).root
      refine ih (standsBeside_copied keyed pendings stands rowLive anchorLive below position) ?_
        (isLive_copy rowLive position) ?_
      · rw [isLive_copied position rowBound, rowLive]
      · rw [root]
        exact (Nat.ne_of_lt stands.root_lt_size).symm

theorem ages_copyRow (document : Document) (anchor : NodeId) (positions : List Nat) :
    Ages document (copyRow params lists row document anchor positions).1 := by
  induction positions generalizing document anchor with
  | nil => exact .refl document
  | cons position rest ih =>
      rw [copyRow_cons]
      exact (ages_copied keyed pendings position).trans (ih _ _)

theorem slots_copyRow (slots : document.AllSlots Tidy) (anchor : NodeId) (positions : List Nat) :
    (copyRow params lists row document anchor positions).1.AllSlots Tidy := by
  induction positions generalizing document anchor with
  | nil => exact slots
  | cons position rest ih =>
      rw [copyRow_cons]
      exact ih (slots_copied keyed pendings slots position) _

end Copied

theorem isLive_of_rowLists {ownership : Ownership} {row : NodeId}
    (stands : document.StandsBeside []) (some : rowLists document params ownership row ≠ []) :
    document.isLive row = true := by
  obtain ⟨tree, top, holds⟩ := stands
  by_contra dead
  apply some
  have bare := holds.bare row (by simpa using dead)
  have childless : document.descendants row = [] := by
    rw [Document.descendants]
    cases document.size with
    | zero => rfl
    | succ depth => simp [Document.descendantsTo, bare]
  simp [rowLists, rowTexts, Document.findAll, childless, distinct]

theorem keeps_expandRow? (keyed : params.Keyed) {ownership : Ownership} {row : NodeId}
    {next : Document × List NodeId}
    (expanded : expandRow? params ownership document row = some next) :
    Keeps Tidy document next.1 := by
  have pendings : Pendings params (rowLists document params ownership row) := by
    rw [rowLists_eq]
    exact pendings_listsOf params _
  unfold expandRow? at expanded
  split at expanded
  · simp at expanded
  · rename_i lists some
    simp only [Option.some.injEq] at expanded
    subst expanded
    generalize List.range _ = positions
    have ages : Ages document (copyRow params (rowLists document params ownership row) row document row
        positions).1 := ages_copyRow keyed pendings document row positions
    have deleted := Document.ages_delete
      (copyRow params (rowLists document params ownership row) row document row positions).1 row
    refine ⟨ages.trans deleted, ?_, fun slots =>
      Document.slots_delete (slots_copyRow keyed pendings slots row positions) row⟩
    rintro (dead | stands)
    · exact .inl ((ages.trans deleted).rootDead dead)
    · by_cases atRoot : row = document.root
      · have bound := Nat.lt_of_lt_of_le stands.root_lt_size ages.size_le
        generalize (copyRow params (rowLists document params ownership row) row document row
          positions).1 = copied at ages bound
        obtain rfl : row = copied.root := by rw [atRoot, ages.root]
        exact Document.rooted_delete_root (by rw [ages.root]; exact bound)
      · have live := isLive_of_rowLists stands some
        exact Document.rooted_delete
          (.inr (standsBeside_copyRow keyed pendings stands live live atRoot)) row

section Induction

variable {motive : Document → Prop} (expands : ∀ document row next,
  expandRow? params .own document row = some next → motive document → motive next.1)
include expands

theorem expand_induction (fuel : Nat) :
    (∀ state scope, motive state.1 → motive (expandBelow params fuel state scope).1) ∧
      ∀ state row, motive state.1 → motive (expandCopy params fuel state row).1 := by
  induction fuel with
  | zero => exact ⟨fun _ _ kept => kept, fun _ _ kept => kept⟩
  | succ fuel ih =>
      obtain ⟨below, copy⟩ := ih
      have copies : ∀ (ids : List NodeId) (state : Document × Nat), motive state.1 →
          motive (ids.foldl (expandCopy params fuel) state).1 := fun ids state kept =>
        List.foldlRecOn ids _ (motive := fun state => motive state.1) kept fun state kept id _ =>
          copy state id kept
      refine ⟨fun (document, count) scope kept => ?_, fun (document, count) row kept => ?_⟩
      · rw [expandBelow]
        refine copies _ (_, _) (Document.walk_induction (motive := fun state => motive state.1)
          (fun document own id _ kept => ?_) scope kept)
        simp only [expandVisited]
        split
        · split
          · rename_i next copies expanded
            exact expands document id _ expanded kept
          · exact kept
        · exact kept
      · rw [expandCopy]
        split
        · rename_i next copied expanded
          exact copies _ (_, _) (expands document row _ expanded kept)
        · exact below _ _ kept

theorem expandRows_induction {document : Document} (kept : motive document) :
    motive (expandRows document params).1 :=
  (expand_induction expands _).1 (document, 0) document.root kept

end Induction

theorem keeps_expandRows (keyed : params.Keyed) (document : Document) :
    Keeps Tidy document (expandRows document params).1 :=
  expandRows_induction (fun _ _ _ expanded kept => kept.trans (keeps_expandRow? keyed expanded))
    (.refl document)

theorem keeps_expandPending (keyed : params.Keyed) (fuel : Nat) (skipped : List NodeId)
    (state : Document × Nat) :
    Keeps Tidy state.1 (expandPending params fuel skipped state).1 := by
  induction fuel generalizing skipped state with
  | zero =>
      rw [expandPending]
      exact .refl state.1
  | succ fuel ih =>
      obtain ⟨document, count⟩ := state
      rw [expandPending]
      split
      · exact .refl document
      · split
        · exact ih _ (document, count)
        · rename_i next copies expanded
          obtain ⟨row, _, found⟩ := Option.bind_eq_some_iff.mp expanded
          have copied := List.foldlRecOn copies (expandCopy params (expansionFuel next params))
            (motive := fun state => Keeps Tidy document state.1) (b := (next, count + 1))
            (keeps_expandRow? keyed found) fun state kept row _ => (expand_induction
              (fun _ _ _ expanded kept => kept.trans (keeps_expandRow? keyed expanded)) _).2 state row kept
          exact copied.trans (ih _ _)

theorem keeps_expandLeftovers (keyed : params.Keyed) (document : Document) :
    Keeps Tidy document (expandLeftovers document params).1 :=
  keeps_expandPending keyed _ [] (document, 0)

theorem keeps_fillInline (plain : Plain params) (document : Document) :
    Keeps Tidy document (fillInline document params) := by
  refine Keeps.trans (.foldl ?_ document) (keeps_evaluateAll _ _ tidy_empty)
  intro document id _
  simp only [fillInlineText]
  split
  · exact (Document.keeps_setText document id fun slots isText =>
      tidy_inline plain (slots.text isText)).trans (Document.keeps_preserveSpace _ id tidy_preserve)
  · exact .refl document

end WordTemplate.Filling
