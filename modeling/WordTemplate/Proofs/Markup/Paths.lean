import WordTemplate.Proofs.Markup.Copies
import WordTemplate.Proofs.Markup.Forest

/-! The positions among siblings that lead from a node down to another one. They are counted on the way up
and followed on the way down, and lead to the same place in a copy. -/

namespace WordTemplate.Markup.Document

open Relation (ReflTransGen TransGen)

variable {document : Document}

theorem follow?_append (document : Document) (start : NodeId) (path : List Nat) (position : Nat) :
    document.follow? start (path ++ [position]) =
      (document.follow? start path).bind fun id => (document.children id)[position]? := by
  induction path generalizing start with
  | nil => cases found : (document.children start)[position]? <;> simp [follow?, found]
  | cons first path ih =>
      rw [List.cons_append, follow?, follow?]
      cases (document.children start)[first]? with
      | none => rfl
      | some child => exact ih child

theorem follow?_of_path? {ancestor id : NodeId} {path : List Nat}
    (leads : document.path? ancestor id = some path) : document.follow? ancestor path = some id := by
  rw [path?] at leads
  generalize document.size + 1 = depth at leads
  induction depth generalizing id path with
  | zero => simp [pathTo?] at leads
  | succ depth ih =>
      rw [pathTo?] at leads
      split at leads
      · rename_i here
        cases leads
        rw [here, follow?]
      · simp only [Option.bind_eq_bind, Option.bind_eq_some_iff, place?, Option.pure_def] at leads
        obtain ⟨_, ⟨parent, above, position, found, same⟩, upper, again, front, further, whole⟩ :=
          leads
        rw [above, Option.some.injEq] at again
        subst again
        cases same
        cases whole
        rw [follow?_append, ih further, Option.bind_some]
        obtain ⟨bound, here, -⟩ := List.findIdx?_eq_some_iff_getElem.mp found
        rw [List.getElem?_eq_getElem bound]
        exact congrArg some (by simpa using here)

theorem exists_isChain_of_follow? {start id : NodeId} {path : List Nat}
    (leads : document.follow? start path = some id) :
    ∃ passed, (start :: passed).IsChain document.Lists ∧ passed.length = path.length ∧
      (start :: passed).getLast (List.cons_ne_nil _ _) = id := by
  induction path generalizing start with
  | nil =>
      rw [follow?, Option.some.injEq] at leads
      exact ⟨[], .singleton start, rfl, leads⟩
  | cons position path ih =>
      rw [follow?, Option.bind_eq_bind, Option.bind_eq_some_iff] at leads
      obtain ⟨child, here, further⟩ := leads
      obtain ⟨passed, chain, length, last⟩ := ih further
      refine ⟨child :: passed, .cons_cons (List.mem_of_getElem? here) chain, ?_, ?_⟩
      · rw [List.length_cons, List.length_cons, length]
      · rw [List.getLast_cons (List.cons_ne_nil _ _)]
        exact last

/-- Some positions lead to a slot exactly when the lists of children do. -/
theorem exists_follow?_iff {start id : NodeId} :
    (∃ path, document.follow? start path = some id) ↔ ReflTransGen document.Lists start id := by
  constructor
  · rintro ⟨path, leads⟩
    obtain ⟨passed, chain, -, last⟩ := exists_isChain_of_follow? leads
    exact last ▸ List.relationReflTransGen_of_exists_isChain_cons passed chain rfl
  · intro reached
    induction reached with
    | refl => exact ⟨[], rfl⟩
    | tail _ lists ih =>
        obtain ⟨path, leads⟩ := ih
        obtain ⟨position, here⟩ := List.mem_iff_getElem?.mp lists
        exact ⟨path ++ [position], by rw [follow?_append, leads, Option.bind_some, here]⟩

namespace WellFormed

variable (wellFormed : document.WellFormed)
include wellFormed

/-- Going up from where positions lead to, the same positions are counted. -/
theorem pathTo?_of_follow? {start id : NodeId} {path : List Nat} {depth : Nat}
    (leads : document.follow? start path = some id) (deep : path.length < depth) :
    document.pathTo? start depth id = some path := by
  induction path using List.reverseRecOn generalizing id depth with
  | nil =>
      rw [follow?, Option.some.injEq] at leads
      cases depth with
      | zero => simp at deep
      | succ depth => rw [pathTo?, if_pos leads.symm]
  | append_singleton path position ih =>
      rw [List.length_append, List.length_singleton] at deep
      cases depth with
      | zero => omega
      | succ depth =>
          rw [follow?_append, Option.bind_eq_some_iff] at leads
          obtain ⟨parent, upper, here⟩ := leads
          have lists : document.Lists parent id := List.mem_of_getElem? here
          have below : id ≠ start := by
            rintro rfl
            have reached := exists_follow?_iff.mp ⟨path, upper⟩
            exact wellFormed.acyclic_lists id (.tail' reached lists)
          have above : document.parent? id = some parent := wellFormed.above lists
          have place : (document.children parent).idxOf? id = some position := by
            obtain ⟨bound, same⟩ := List.getElem?_eq_some_iff.mp here
            obtain ⟨other, found⟩ := Option.isSome_iff_exists.mp (List.isSome_idxOf?.mpr lists)
            obtain ⟨otherBound, again, -⟩ := List.findIdx?_eq_some_iff_getElem.mp found
            have equal := (wellFormed.nodup parent).getElem_inj_iff.mp
              ((beq_iff_eq.mp again).trans same.symm)
            exact equal ▸ found
          have further := ih upper (by omega : path.length < depth)
          rw [pathTo?, if_neg below]
          simp [place?, above, place, further]

theorem path?_eq_some_iff {start id : NodeId} {path : List Nat} :
    document.path? start id = some path ↔ document.follow? start path = some id := by
  refine ⟨follow?_of_path?, fun leads => wellFormed.pathTo?_of_follow? leads ?_⟩
  obtain ⟨passed, chain, length, -⟩ := exists_isChain_of_follow? leads
  have short := length_of_isChain wellFormed.tied wellFormed.acyclic_lists chain
  omega

theorem exists_path?_iff {start id : NodeId} :
    (∃ path, document.path? start id = some path) ↔
      id = start ∨ id ∈ document.descendants start := by
  simp only [wellFormed.path?_eq_some_iff]
  rw [exists_follow?_iff, (wellFormed.stands.descendants start).2,
    Relation.reflTransGen_iff_eq_or_transGen]
  refine or_congr_right (and_iff_right_of_imp fun path => ?_).symm
  obtain ⟨parent, -, lists⟩ := TransGen.tail'_iff.mp path
  exact wellFormed.child_live lists

end WellFormed

/-- The positions that are counted on the way up from a node are those that lead down to it. They exist for
a node and what is below it, lead to one node only, and lead to its copy in a copy of the subtree. -/
theorem path?_exact (wellFormed : document.WellFormed) :
    (∀ start id path,
      document.path? start id = some path ↔ document.follow? start path = some id) ∧
    (∀ start, document.isLive start = true → ∀ id,
      ((∃ path, document.path? start id = some path) ↔
        id = start ∨ id ∈ document.descendants start) ∧
      ∀ path other, document.follow? start path = some id → document.follow? start other = some id →
        path = other) ∧
    ∀ start, document.isLive start = true → ∃ twin : NodeId → NodeId,
      (∀ id ∈ start :: document.descendants start, ∃ path,
        document.path? start id = some path ∧
          (document.cloneSubtree start).1.follow? (document.cloneSubtree start).2 path = some (twin id) ∧
          ((document.cloneSubtree start).1.node (twin id)).toElement = (document.node id).toElement) ∧
      ∀ id ∈ start :: document.descendants start, ∀ other ∈ start :: document.descendants start,
        twin id = twin other → id = other := by
  refine ⟨fun start id path => wellFormed.path?_eq_some_iff, fun start _ id => ⟨?_, ?_⟩, fun start live => ?_⟩
  · exact wellFormed.exists_path?_iff
  · intro path other leads also
    rw [← wellFormed.path?_eq_some_iff] at leads also
    exact Option.some.inj (leads.symm.trans also)
  · obtain ⟨outline, twin, rfl, grafted⟩ := wellFormed.stands.exists_grafted wellFormed.stands live
    have ids := grafted.ids
    refine ⟨twin, fun id member => ?_, fun id member other also same => ?_⟩
    · obtain ⟨path, leads⟩ := wellFormed.exists_path?_iff.mpr (List.mem_cons.mp member)
      have followed := grafted.copies.follow? outline.id_mem_ids path
      rw [grafted.twin_top, follow?_of_path? leads, Option.map_some] at followed
      exact ⟨path, leads, followed, grafted.element id (ids ▸ member)⟩
    · exact grafted.copies.injective (ids ▸ member) (ids ▸ also) same

/-- A row with a cell that holds a paragraph, and a cell without content. -/
def cellsRow : Document :=
  .ofTree false (.node { tag := "w:tr" }
    [.node { tag := "w:tc" } [.node { tag := "w:p", text := "a" } []], .node { tag := "w:tc" } []])

theorem path?_exact_cellsRow :
    cellsRow.path? 0 2 = some [0, 0] ∧ cellsRow.follow? 0 [0, 0] = some 2 ∧
      ∃ twin, (cellsRow.cloneSubtree 0).1.follow? 4 [0, 0] = some twin ∧
        (cellsRow.cloneSubtree 0).1.text twin = "a" := by
  have exact := path?_exact (sound_ofTree false _ : cellsRow.Sound).wellFormed
  obtain ⟨twin, leads, -⟩ := exact.2.2 0 (by decide)
  obtain ⟨path, counted, followed, shows⟩ := leads 2 (by decide)
  have positions : cellsRow.path? 0 2 = some [0, 0] := by decide
  obtain rfl : path = [0, 0] := Option.some.inj (counted.symm.trans positions)
  exact ⟨counted, (exact.1 0 2 [0, 0]).mp counted, twin 2, followed, congrArg Element.text shows⟩

end WordTemplate.Markup.Document
