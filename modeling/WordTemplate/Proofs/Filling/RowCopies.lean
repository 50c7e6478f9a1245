import WordTemplate.Proofs.Filling.RowStores

/-! Replacing a row by its copies in a store. -/

namespace WordTemplate.Filling

open Markup
open Outline (idsAll)
open Document (Extends)

variable {params : Params} {lists : List Param}

/-- A node whose element is turned to the items at a position. -/
def indexed (params : Params) (lists : List Param) (position : Nat) (node : Node) : Node :=
  { node with toElement := indexElement params lists position node.toElement }

theorem size_indexNode (position : Nat) (document : Document) (id : NodeId) :
    (indexNode params lists position document id).size = document.size := by
  rw [indexNode]
  simp only [Document.setAttributes, Document.setText, Document.size_modify]
  split
  · exact Document.size_modify ..
  · rfl

theorem node_indexNode (position : Nat) (document : Document) (id other : NodeId) :
    (indexNode params lists position document id).node other =
      if other = id ∧ other < document.size then
        indexed params lists position (document.node other)
      else document.node other := by
  by_cases isText : document.tag id = Wordml.text
  · have tag : (document.node id).tag = Wordml.text := isText
    simp only [indexNode, isText, if_true, Document.setAttributes, Document.setText,
      Document.node_modify, Document.size_modify]
    by_cases here : other = id ∧ other < document.size
    · obtain ⟨rfl, bound⟩ := here
      simp [bound, indexed, indexElement, tag, Document.text]
    · simp [here]
  · have tag : (document.node id).tag ≠ Wordml.text := isText
    simp only [indexNode, isText, if_false, Document.setAttributes, Document.node_modify]
    by_cases here : other = id ∧ other < document.size
    · obtain ⟨rfl, bound⟩ := here
      simp [bound, indexed, indexElement, tag]
    · simp [here]

theorem root_indexNode (position : Nat) (document : Document) (id : NodeId) :
    (indexNode params lists position document id).root = document.root := by
  rw [indexNode]
  simp only [Document.setAttributes, Document.modify]
  split <;> rfl

theorem declared_indexNode (position : Nat) (document : Document) (id : NodeId) :
    (indexNode params lists position document id).declared = document.declared := by
  rw [indexNode]
  simp only [Document.setAttributes, Document.modify]
  split <;> rfl

theorem node_indexSubtree (params : Params) (lists : List Param) {document : Document}
    {context : Context} {outline : Outline}
    (holds : document.Holds (context.fill [outline])) (position : Nat) (id : NodeId) :
    (indexSubtree params lists position document outline.id).node id =
      if id ∈ outline.ids then indexed params lists position (document.node id)
      else document.node id := by
  have inside := Document.holds_fill_iff.mp holds
  have ids : outline.id :: document.descendants outline.id = outline.ids := by
    rw [holds.descendants]
    cases outline
    rfl
  rw [indexSubtree, ids, Document.node_foldl (size_indexNode position) (node_indexNode position)
    outline.ids document id inside.nodup_ids]
  by_cases member : id ∈ outline.ids
  · have bound : id < document.size :=
      inside.lt_size (by simpa [Outline.idsAll] using member)
    simp [member, bound]
  · simp [member]

theorem sameLinks_indexSubtree (params : Params) (lists : List Param) {document : Document}
    {context : Context} {outline : Outline}
    (holds : document.Holds (context.fill [outline])) (position : Nat) :
    Document.SameLinks document (indexSubtree params lists position document outline.id) := by
  have node := node_indexSubtree params lists holds position
  refine ⟨?_, ?_, ?_⟩ <;> intro id
  · rw [Document.isLive, node]
    split <;> rfl
  · rw [Document.parent?, node]
    split <;> rfl
  · rw [Document.children, node]
    split <;> rfl

theorem foldl_induction {α β : Type} {motive : α → Prop} {step : α → β → α}
    (kept : ∀ state item, motive state → motive (step state item)) (items : List β) {state : α}
    (start : motive state) : motive (items.foldl step state) := by
  induction items generalizing state with
  | nil => exact start
  | cons item rest ih => exact ih (kept state item start)

theorem size_indexSubtree (position : Nat) (document : Document) (id : NodeId) :
    (indexSubtree params lists position document id).size = document.size :=
  Document.size_foldl (size_indexNode position) _ _

theorem root_indexSubtree (position : Nat) (document : Document) (id : NodeId) :
    (indexSubtree params lists position document id).root = document.root :=
  foldl_induction (motive := fun changed => changed.root = document.root)
    (fun changed id same => (root_indexNode position changed id).trans same) _ rfl

theorem declared_indexSubtree (position : Nat) (document : Document) (id : NodeId) :
    (indexSubtree params lists position document id).declared = document.declared :=
  foldl_induction (motive := fun changed => changed.declared = document.declared)
    (fun changed id same => (declared_indexNode position changed id).trans same) _ rfl

theorem toTree_indexSubtree (params : Params) (lists : List Param) {document : Document}
    {context : Context} {outline : Outline}
    (holds : document.Holds (context.fill [outline])) (position : Nat) :
    outline.toTree (indexSubtree params lists position document outline.id) =
      (outline.toTree document).map (indexElement params lists position) := by
  have node := node_indexSubtree params lists holds position
  have element : ∀ id ∈ outline.ids,
      ((indexSubtree params lists position document outline.id).node id).toElement =
        indexElement params lists position (document.node id).toElement := by
    intro id member
    rw [node, if_pos member]
    rfl
  generalize indexSubtree params lists position document outline.id = turned at element
  clear node holds
  induction outline using Outline.induction with
  | node id children ih =>
      rw [Outline.toTree, Outline.toTree, Markup.Tree.map, Tree.mapAll_eq, Outline.toTrees_eq,
        Outline.toTrees_eq, List.map_map, element id (by simp [Outline.ids])]
      congr 1
      apply List.map_congr_left
      intro child member
      apply ih child member
      intro inner below
      apply element
      simp only [Outline.ids, List.mem_cons, Outline.mem_idsAll]
      exact .inr ⟨child, member, below⟩

/-- One more copy of a row behind the last node that stands for the row. -/
theorem placeCopy {document : Document} {outer : Context} {before after : List Outline}
    {parent : NodeId} {row last : Outline} {done front : List Outline}
    (holds : document.Holds ((Context.under outer before after parent).fill (row :: done)))
    (whole : row :: done = front ++ [last]) :
    ∃ copy : Outline, copy.id = document.size ∧ (∀ id ∈ copy.ids, document.size ≤ id) ∧
      ((document.cloneSubtree row.id).1.insertAfter last.id document.size).1.Holds
        ((Context.under outer before after parent).fill (row :: (done ++ [copy]))) ∧
      copy.toTree ((document.cloneSubtree row.id).1.insertAfter last.id document.size).1 =
        row.toTree document ∧
      Extends document ((document.cloneSubtree row.id).1.insertAfter last.id document.size).1 := by
  have atRow : document.Holds
      (((Context.under outer before after parent).beside [] done).fill [row]) := by
    simpa [Context.fill_beside] using holds
  obtain ⟨copy, isCopy⟩ : ∃ copy, copy = (row.toTree document).outline document.size :=
    ⟨_, rfl⟩
  have id : copy.id = document.size := by rw [isCopy, Tree.id_outline]
  have cloned := atRow.cloneSubtree
  rw [← isCopy, Context.fill_beside] at cloned
  have clonedTree : copy.toTree (document.cloneSubtree row.id).1 = row.toTree document := by
    rw [isCopy]
    exact Document.toTree_cloneSubtree atRow
  have clonedExtends := Document.extends_cloneSubtree document row.id
  generalize (document.cloneSubtree row.id).1 = clone at cloned clonedTree clonedExtends ⊢
  have atLast : clone.Holds
      (copy :: (Context.under outer (before ++ front) after parent).fill [last]) := by
    simpa [Context.fill, whole] using cloned
  have inserted := atLast.insertAfter
  have insertedTree : copy.toTree (clone.insertAfter last.id copy.id).1 = row.toTree document := by
    rw [← clonedTree]
    exact Outline.toTree_congr fun inner _ => Document.toElement_insertAfter atLast inner
  have insertedExtends := clonedExtends.trans (Document.extends_insertAfter clone last.id copy.id)
  rw [id] at inserted insertedTree insertedExtends
  refine ⟨copy, id, ?_, ?_, insertedTree, insertedExtends⟩
  · intro inner member
    rw [isCopy, Tree.ids_outline] at member
    exact (List.mem_range'_1.mp member).1
  · have same : row :: (done ++ [copy]) = front ++ [last] ++ [copy] := by
      rw [← whole]
      rfl
    rw [same]
    simpa [Context.fill] using inserted

/-- One more copy of a row, turned to a position, behind the last node that stands for the row. -/
theorem copyOnce (params : Params) (lists : List Param) {document : Document} {outer : Context}
    {before after : List Outline}
    {parent : NodeId} {row last : Outline} {done front : List Outline} (position : Nat)
    (holds : document.Holds ((Context.under outer before after parent).fill (row :: done)))
    (whole : row :: done = front ++ [last]) :
    ∃ copy : Outline, copy.id = document.size ∧
      (indexSubtree params lists position
        ((document.cloneSubtree row.id).1.insertAfter last.id document.size).1
        document.size).Holds
        ((Context.under outer before after parent).fill (row :: (done ++ [copy]))) ∧
      copy.toTree (indexSubtree params lists position
        ((document.cloneSubtree row.id).1.insertAfter last.id document.size).1 document.size) =
        (row.toTree document).map (indexElement params lists position) ∧
      Extends document (indexSubtree params lists position
        ((document.cloneSubtree row.id).1.insertAfter last.id document.size).1
        document.size) := by
  obtain ⟨copy, id, new, placed, placedTree, grown⟩ := placeCopy holds whole
  generalize ((document.cloneSubtree row.id).1.insertAfter last.id document.size).1 = next
    at placed placedTree grown ⊢
  have atCopy : next.Holds
      (((Context.under outer before after parent).beside (row :: done) []).fill [copy]) := by
    simpa [Context.fill_beside] using placed
  have sameLinks := sameLinks_indexSubtree params lists atCopy position
  have turnedTree := toTree_indexSubtree params lists atCopy position
  have turnedNode := node_indexSubtree params lists atCopy position
  rw [id] at sameLinks turnedTree turnedNode
  refine ⟨copy, id, placed.congr sameLinks, by rw [turnedTree, placedTree], ?_⟩
  refine ⟨?_, ?_, ?_, ?_⟩
  · rw [size_indexSubtree]
    exact grown.size_le
  · intro other bound
    rw [turnedNode, if_neg fun member => Nat.not_le.mpr bound (new other member)]
    exact grown.toElement other bound
  · rw [root_indexSubtree]
    exact grown.root
  · rw [declared_indexSubtree]
    exact grown.declared

/-- The copies for positions stand behind a row in order, and each is the row turned to its
position. -/
theorem copyRow_spec (params : Params) (lists : List Param) {document : Document} {outer : Context}
    {before after : List Outline}
    {parent : NodeId} {row last : Outline} {done front : List Outline} (positions : List Nat)
    (holds : document.Holds ((Context.under outer before after parent).fill (row :: done)))
    (whole : row :: done = front ++ [last]) :
    ∃ copies : List Outline,
      (copyRow params lists row.id document last.id positions).1.Holds
        ((Context.under outer before after parent).fill (row :: (done ++ copies))) ∧
      (copyRow params lists row.id document last.id positions).2 = copies.map Outline.id ∧
      Outline.toTrees (copyRow params lists row.id document last.id positions).1 copies =
        positions.map (fun position =>
          (row.toTree document).map (indexElement params lists position)) ∧
      Extends document (copyRow params lists row.id document last.id positions).1 := by
  induction positions generalizing document done front last with
  | nil => exact ⟨[], by simpa [copyRow] using holds, rfl, rfl, .refl document⟩
  | cons position rest ih =>
      obtain ⟨copy, id, copied, copyTree, grown⟩ :=
        copyOnce params lists position holds whole
      obtain ⟨copies, held, ids, trees, further⟩ :=
        ih copied (show row :: (done ++ [copy]) = (row :: done) ++ [copy] from rfl)
      have atRow : document.Holds
          (((Context.under outer before after parent).beside [] done).fill [row]) := by
        simpa [Context.fill_beside] using holds
      have bound : ∀ inner : Nat, inner ∈ row.ids → inner < document.size := fun inner member =>
        (Document.holds_fill_iff.mp atRow).lt_size (by simpa [Outline.idsAll] using member)
      have rowTree := grown.toTree bound
      have atCopy : (indexSubtree params lists position
          ((document.cloneSubtree row.id).1.insertAfter last.id document.size).1
          document.size).Holds
          (((Context.under outer before after parent).beside (row :: done) []).fill [copy]) := by
        simpa [Context.fill_beside] using copied
      have copyBound : ∀ inner : Nat, inner ∈ copy.ids → inner < (indexSubtree params lists position
          ((document.cloneSubtree row.id).1.insertAfter last.id document.size).1
          document.size).size := fun inner member =>
        (Document.holds_fill_iff.mp atCopy).lt_size (by simpa [Outline.idsAll] using member)
      have copyKept := further.toTree copyBound
      rw [id] at held ids trees further copyKept
      refine ⟨copy :: copies, ?_, ?_, ?_, ?_⟩
      · simpa [copyRow] using held
      · simp only [copyRow, Document.cloneSubtree_snd, List.map_cons, id, ids]
      · simp only [copyRow, Document.cloneSubtree_snd, Outline.toTrees, List.map_cons]
        rw [copyKept, copyTree, trees, rowTree]
      · simpa only [copyRow, Document.cloneSubtree_snd] using grown.trans further

/-- A row that does not repeat stays; one that repeats is replaced by slots that hold its copies. -/
theorem expandRow?_of_settled {document : Document} {context : Context} {row : Outline}
    (holds : document.Holds (context.fill [row]))
    (settled : listsOfRow params (inRow document context) (row.toTree document) = []) :
    expandRow? params .own document row.id = none := by
  rw [expandRow?, rowLists_own holds, settled]

theorem expandRow?_of_due {document : Document} {outer : Context} {before after : List Outline}
    {parent : NodeId} {row : Outline}
    (holds : document.Holds ((Context.under outer before after parent).fill [row]))
    (due : listsOfRow params (inRow document (.under outer before after parent))
      (row.toTree document) ≠ []) :
    ∃ (expanded : Document) (copies : List Outline),
      expandRow? params .own document row.id = some (expanded, copies.map Outline.id) ∧
      expanded.Holds ((Context.under outer before after parent).fill copies) ∧
      Outline.toTrees expanded copies =
        copiesOf params (listsOfRow params (inRow document (.under outer before after parent))
          (row.toTree document)) (row.toTree document) ∧
      Extends document expanded := by
  rw [← rowLists_own holds] at due ⊢
  obtain ⟨copies, held, ids, trees, grown⟩ :=
    copyRow_spec params (rowLists document params .own row.id)
      (List.range (copyCount (rowLists document params .own row.id))) holds
      (show [row] = [] ++ [row] from rfl)
  have atRow : (copyRow params (rowLists document params .own row.id) row.id document row.id
      (List.range (copyCount (rowLists document params .own row.id)))).1.Holds
      (((Context.under outer before after parent).beside [] copies).fill [row]) := by
    simpa [Context.fill_beside] using held
  have deleted := atRow.delete
  have copiesBound : ∀ id : Nat, id ∈ idsAll copies →
      id < (copyRow params (rowLists document params .own row.id) row.id document row.id
        (List.range (copyCount (rowLists document params .own row.id)))).1.size := by
    intro id member
    refine (Document.holds_fill_iff.mp held).lt_size ?_
    simp [Outline.idsAll, member]
  have removed := Document.extends_delete (copyRow params (rowLists document params .own row.id)
    row.id document row.id (List.range (copyCount (rowLists document params .own row.id)))).1 row.id
  refine ⟨_, copies, ?_, ?_, ?_, grown.trans removed⟩
  · rw [expandRow?]
    cases found : rowLists document params .own row.id with
    | nil => exact absurd found due
    | cons list rest =>
        rw [found] at ids
        simp only [copyCount] at ids
        simp only [← ids]
        rfl
  · simpa [Context.fill_beside] using deleted
  · rw [removed.toTrees copiesBound, trees]
    rfl

end WordTemplate.Filling
