import WordTemplate.Proofs.Markup.RoundTrip

/-! A document that lists entries below its root, to which one more is added. What is written of it lists the
entries in the same order when it is read again, with the new one behind the others. -/

namespace WordTemplate.Markup

theorem Element.writable_of_names {element : Element} (tag : String) (keys : List String)
    (named : element.tag = tag ∧ element.attributes.map Attribute.key = keys)
    (proper : IsName tag.toList ∧ (tag.toList.head? ≠ some '!' ∧ tag.toList.head? ≠ some '?') ∧
      (∀ key ∈ keys, IsName key.toList) ∧ keys.Nodup) : element.Writable := by
  obtain ⟨rfl, rfl⟩ := named
  obtain ⟨isName, head, isKey, distinct⟩ := proper
  exact ⟨isName, head, fun entry member => isKey entry.key (List.mem_map_of_mem member), distinct⟩

namespace Tree

/-- The tree as it is read again: blank text beside children is dropped. -/
def reread (tree : Tree) : Tree :=
  (Frame.mk tree.element tree.children.reverse).close

theorem reread_eq (tree : Tree) : tree.reread =
    if tree.children ≠ [] ∧ Text.isAllBlank tree.element.text.toList = true then
      .node { tree.element with text := "" } tree.children
    else tree := by
  rw [reread, Frame.close, Frame.tree, Frame.dropLayout]
  simp only [List.isEmpty_reverse, Bool.and_eq_true, Bool.not_eq_true', List.isEmpty_eq_false_iff]
  split
  · simp
  · rw [List.reverse_reverse, node_eta]

@[simp]
theorem children_reread (tree : Tree) : tree.reread.children = tree.children := by
  rw [reread_eq]
  split <;> rfl

theorem writable_reread {tree : Tree} (writable : tree.element.Writable)
    (below : ∀ child ∈ tree.children, child.Writable) : tree.reread.Writable := by
  rw [reread_eq]
  split
  · exact .node ⟨writable.tag, writable.head, writable.key, writable.distinct⟩ (fun _ _ => rfl) below
  · rename_i kept
    rw [← node_eta tree]
    exact .node writable (fun some blank => absurd ⟨some, blank⟩ kept) below

theorem Writable.element {tree : Tree} (writable : tree.Writable) : tree.element.Writable := by
  cases writable
  assumption

theorem Writable.child {tree : Tree} (writable : tree.Writable) :
    ∀ child ∈ tree.children, child.Writable := by
  cases writable
  assumption

def appendEntry (tree : Tree) (entry : Element) : Tree :=
  .node tree.element (tree.children ++ [.node entry []])

theorem child_appendEntry {tree : Tree} (writable : tree.Writable) {entry : Element}
    (proper : entry.Writable) : ∀ child ∈ (tree.appendEntry entry).children, child.Writable := by
  intro child member
  rcases List.mem_append.mp member with old | new
  · exact writable.child child old
  · rw [List.mem_singleton.mp new]
    exact .node proper (by simp) (by simp)

theorem writable_appendEntry {tree : Tree} (writable : tree.Writable) {entry : Element}
    (proper : entry.Writable) : (tree.appendEntry entry).reread.Writable :=
  writable_reread writable.element (child_appendEntry writable proper)

end Tree

namespace Document

open Outline (idsAll)

theorem Holds.write {document : Document} {outline : Outline} (holds : document.Holds [outline])
    (root : document.root = outline.id) : document.write =
      (if document.declared then declarationLine else "") ++
        String.ofList (outline.toTree document).write := by
  have live : document.isLive document.root = true :=
    holds.isLive_of_mem (by simp [idsAll, root, Outline.id_mem_ids])
  have filled : document.Holds ((Context.top [] []).fill [outline]) := holds
  rw [Document.write, writeNode, if_pos live, root, filled.linkedTree]

theorem write_ofTree (declared : Bool) (tree : Tree) : (ofTree declared tree).write =
    (if declared then declarationLine else "") ++ String.ofList tree.write := by
  rw [(holds_ofTree declared tree).write (Tree.id_outline 0 tree).symm, toTree_ofTree]
  rfl

theorem toList_write_ofTree (declared : Bool) (tree : Tree) : (ofTree declared tree).write.toList =
    (if declared then declarationLine.toList else []) ++ tree.write := by
  rw [write_ofTree, String.toList_append, String.toList_ofList]
  cases declared <;> rfl

theorem parse_write_ofTree {tree : Tree} (writable : tree.element.Writable)
    (below : ∀ child ∈ tree.children, child.Writable) (declared : Bool) :
    parse (ofTree declared tree).write = .ok (ofTree declared tree.reread) := by
  have read := Stage.outcome_element id writable.legible
    (fun child member => Stage.outcome_write (below child member)) [] []
  rw [Tree.node_eta, List.map_id] at read
  exact parse_of_outcome (toList_write_ofTree declared tree) (Stage.outcome_root read)

def appendEntry (document : Document) (entry : Element) : Document :=
  (document.push [{ toElement := entry }]).1.append document.root document.size

theorem createElement_snd (document : Document) (tag : String) :
    (document.createElement tag).2 = document.size := rfl

theorem modify_push (document : Document) (node : Node) (change : Node → Node) :
    (document.push [node]).1.modify document.size change = (document.push [change node]).1 := by
  have nodes : (document.nodes ++ #[node]).modify document.nodes.size change =
      document.nodes ++ #[change node] := by
    apply Array.ext
    · simp
    · intro index bound _
      rw [Array.getElem_modify, Array.getElem_append, Array.getElem_append]
      rw [Array.size_modify, Array.size_append, Array.size_singleton] at bound
      by_cases before : index < document.nodes.size
      · simp [before, Nat.ne_of_gt before]
      · have last : document.nodes.size = index := by omega
        simp [last]
  exact congrArg (fun nodes => ({ document with nodes } : Document)) nodes

theorem setAttribute_push (document : Document) (element : Element) (key value : String) :
    (document.push [{ toElement := element }]).1.setAttribute document.size key value =
      (document.push [{ toElement := element.setAttribute key value }]).1 :=
  modify_push document _ _

theorem toElement_link (document : Document) (id parent : NodeId) (change : List NodeId → List NodeId)
    (other : NodeId) :
    ((document.link id parent change).node other).toElement = (document.node other).toElement := by
  rw [link, node_modify]
  split <;> rw [node_modify] <;> split <;> rfl

theorem appendEntry_eq_link (document : Document) (entry : Element) :
    document.appendEntry entry =
      (document.push [{ toElement := entry }]).1.link document.size document.root
        (· ++ [document.size]) := by
  have detached : (document.push [{ toElement := entry }]).1.parent? document.size = none := by
    rw [parent?, ← Nat.add_zero document.size, node_push_add]
    rfl
  rw [appendEntry, append_eq_link, detach, detached]

/-- A document with one more entry is written as the tree with that entry. -/
theorem write_appendEntry (declared : Bool) (tree : Tree) (entry : Element) :
    ((ofTree declared tree).appendEntry entry).write =
      (ofTree declared (tree.appendEntry entry)).write := by
  obtain ⟨element, children⟩ := tree
  rw [appendEntry_eq_link, write_ofTree]
  have start : (ofTree declared (.node element children)).Holds
      [.node 0 (Tree.outlines 1 children)] := holds_ofTree declared (.node element children)
  have shown := toTree_ofTree declared (.node element children)
  have declares : (ofTree declared (.node element children)).declared = declared := rfl
  have root : (ofTree declared (.node element children)).root = 0 := rfl
  generalize ofTree declared (.node element children) = document at start shown declares root ⊢
  -- The new leaf is first a tree of its own, then the last child of the root.
  have pushed : (document.push [{ toElement := entry }]).1.Holds
      [.node document.size [], .node 0 (Tree.outlines 1 children)] :=
    start.push false (.node entry [])
  have beside : (document.push [{ toElement := entry }]).1.Holds (.node document.size [] ::
      (Context.under (.top [] []) (Tree.outlines 1 children) [] 0).fill []) := by
    simpa [Context.fill] using pushed
  have placed := beside.link (· ++ [document.size]) (by simp)
  have old : ∀ id ∈ (Outline.node 0 (Tree.outlines 1 children)).ids,
      (((document.push [{ toElement := entry }]).1.link document.size 0
        (· ++ [document.size])).node id).toElement = (document.node id).toElement := by
    intro id member
    have listed : id ∈ idsAll [Outline.node 0 (Tree.outlines 1 children)] := by
      simpa [idsAll] using member
    have inside := lt_size_of_isLive (start.isLive_of_mem listed)
    rw [toElement_link, node_push_of_lt _ inside]
  have new : (((document.push [{ toElement := entry }]).1.link document.size 0
      (· ++ [document.size])).node document.size).toElement = entry := by
    have last := node_push_add document [{ toElement := entry }] 0
    rw [Nat.add_zero] at last
    rw [toElement_link, last]
    rfl
  have kept := (Outline.toTree_congr old).trans shown
  rw [Outline.toTree, Tree.node.injEq] at kept
  have whole : (Outline.node 0 (Tree.outlines 1 children ++ [.node document.size []])).toTree
      ((document.push [{ toElement := entry }]).1.link document.size 0 (· ++ [document.size])) =
        .node element (children ++ [.node entry []]) := by
    simp only [Outline.toTree, Outline.toTrees_append, Outline.toTrees, kept, new]
  rw [root, Holds.write (by simpa [Context.fill] using placed) root, whole]
  rw [show ((document.push [{ toElement := entry }]).1.link document.size 0
    (· ++ [document.size])).declared = declared from declares]
  rfl

theorem parse_write_appendEntry {tree : Tree} (writable : tree.Writable) {entry : Element}
    (proper : entry.Writable) (declared : Bool) :
    parse ((ofTree declared tree).appendEntry entry).write =
      .ok (ofTree declared (tree.appendEntry entry).reread) := by
  have element : (tree.appendEntry entry).element.Writable := writable.element
  rw [write_appendEntry]
  exact parse_write_ofTree element (Tree.child_appendEntry writable proper) declared

end Document

end WordTemplate.Markup
