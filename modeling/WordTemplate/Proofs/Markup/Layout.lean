import WordTemplate.Proofs.Markup.Surgery
import WordTemplate.Proofs.Markup.Trees

/-! Laying trees out in a store. A tree that is laid out behind the other slots is a new tree of the
forest of the store, and it is read back from its slots. -/

namespace WordTemplate.Markup

open Outline (idsAll linksAll)

namespace Tree

mutual

/-- The slots of a tree that is laid out from a first slot on. -/
def outline (first : NodeId) : Tree → Outline
  | node _ children => .node first (outlines (first + 1) children)

def outlines (first : NodeId) : List Tree → List Outline
  | [] => []
  | tree :: rest => tree.outline first :: outlines (first + tree.size) rest

end

@[simp]
theorem id_outline (first : NodeId) (tree : Tree) : (tree.outline first).id = first := by
  cases tree
  rfl

theorem le_of_mem_roots {first id : Nat} {trees : List Tree} (member : id ∈ roots first trees) :
    first ≤ id := by
  induction trees generalizing first with
  | nil => simp [roots] at member
  | cons tree rest ih =>
      rcases List.mem_cons.mp member with here | later
      · omega
      · exact Nat.le_trans (Nat.le_add_right ..) (ih later)

theorem map_id_outlines (first : NodeId) (trees : List Tree) :
    (outlines first trees).map Outline.id = roots first trees := by
  induction trees generalizing first with
  | nil => rfl
  | cons tree rest ih => simp [outlines, roots, ih]

mutual

theorem ids_outline (first : NodeId) (tree : Tree) :
    (tree.outline first).ids = List.range' first tree.size := by
  cases tree with
  | node element children =>
      rw [outline, Outline.ids, idsAll_outlines, size, List.range'_succ]

theorem idsAll_outlines (first : NodeId) (trees : List Tree) :
    idsAll (outlines first trees) = List.range' first (sizeAll trees) := by
  cases trees with
  | nil => rfl
  | cons tree rest =>
      rw [outlines, Outline.idsAll, ids_outline, idsAll_outlines, sizeAll,
        List.range'_append_1]

end

mutual

theorem length_layOut (isNew : Bool) (parent : Option NodeId) (first : NodeId) (tree : Tree) :
    (tree.layOut isNew parent first).length = tree.size := by
  cases tree with
  | node element children => simp [layOut, size, length_layOutAll]

theorem length_layOutAll (isNew : Bool) (parent : Option NodeId) (first : NodeId)
    (trees : List Tree) : (layOutAll isNew parent first trees).length = sizeAll trees := by
  cases trees with
  | nil => rfl
  | cons tree rest => simp [layOutAll, sizeAll, length_layOut, length_layOutAll]

end

end Tree

namespace Document

/-- The nodes stand in the slots of the store from a first one on. -/
def Laid (document : Document) : NodeId → List Node → Prop
  | _, [] => True
  | first, node :: rest => document.node first = node ∧ Laid document (first + 1) rest

theorem laid_append {document : Document} {first : NodeId} {front back : List Node} :
    document.Laid first (front ++ back) ↔
      document.Laid first front ∧ document.Laid (first + front.length) back := by
  induction front generalizing first with
  | nil => simp [Laid]
  | cons node rest ih =>
      have shift : first + 1 + rest.length = first + (rest.length + 1) :=
        Nat.add_right_comm first 1 rest.length
      simp [Laid, ih, and_assoc, shift]

theorem laid_of_node_add {document : Document} {first : NodeId} {nodes : List Node}
    (placed : ∀ index, document.node (first + index) = nodes.getD index Node.absent) :
    document.Laid first nodes := by
  induction nodes generalizing first with
  | nil => trivial
  | cons node rest ih =>
      refine ⟨by simpa using placed 0, ih fun index => ?_⟩
      have later := placed (index + 1)
      rw [Nat.add_right_comm first 1 index]
      refine Eq.trans later ?_
      simp

mutual

theorem has_of_laid {document : Document} {isNew : Bool} {parent : Option NodeId}
    {first : NodeId} {tree : Tree} (laid : document.Laid first (tree.layOut isNew parent first)) :
    ∀ link ∈ (tree.outline first).links parent, document.Has link := by
  cases tree with
  | node element children =>
      obtain ⟨top, below⟩ := laid
      intro link member
      simp only [Tree.outline, Outline.links, List.mem_cons] at member
      rcases member with here | inside
      · subst here
        refine ⟨?_, ?_, ?_⟩
        · rw [isLive, top]
        · rw [Document.parent?, top]
        · rw [Document.children, top, Tree.map_id_outlines]
      · exact has_of_laidAll below link inside

theorem has_of_laidAll {document : Document} {isNew : Bool} {parent : Option NodeId}
    {first : NodeId} {trees : List Tree}
    (laid : document.Laid first (Tree.layOutAll isNew parent first trees)) :
    ∀ link ∈ linksAll parent (Tree.outlines first trees), document.Has link := by
  cases trees with
  | nil => simp [Tree.outlines, linksAll]
  | cons tree rest =>
      rw [Tree.layOutAll, laid_append, Tree.length_layOut] at laid
      intro link member
      simp only [Tree.outlines, linksAll, List.mem_append] at member
      rcases member with front | back
      · exact has_of_laid laid.1 link front
      · exact has_of_laidAll laid.2 link back

end

mutual

theorem toTree_of_laid {document : Document} {isNew : Bool} {parent : Option NodeId}
    {first : NodeId} {tree : Tree} (laid : document.Laid first (tree.layOut isNew parent first)) :
    (tree.outline first).toTree document = tree := by
  cases tree with
  | node element children =>
      obtain ⟨top, below⟩ := laid
      rw [Tree.outline, Outline.toTree, toTrees_of_laidAll below, top]

theorem toTrees_of_laidAll {document : Document} {isNew : Bool} {parent : Option NodeId}
    {first : NodeId} {trees : List Tree}
    (laid : document.Laid first (Tree.layOutAll isNew parent first trees)) :
    Outline.toTrees document (Tree.outlines first trees) = trees := by
  cases trees with
  | nil => rfl
  | cons tree rest =>
      rw [Tree.layOutAll, laid_append, Tree.length_layOut] at laid
      rw [Tree.outlines, Outline.toTrees, toTree_of_laid laid.1, toTrees_of_laidAll laid.2]

end

theorem laid_push (document : Document) (nodes : List Node) :
    (document.push nodes).1.Laid document.size nodes :=
  laid_of_node_add (node_push_add document nodes)

/-- A tree that is laid out behind all slots is one more tree of the forest. -/
theorem Holds.push {document : Document} {forest : List Outline} (holds : document.Holds forest)
    (isNew : Bool) (tree : Tree) :
    (document.push (tree.layOut isNew none document.size)).1.Holds
      (tree.outline document.size :: forest) := by
  have old : ∀ id : Nat, id < document.size →
      (document.push (tree.layOut isNew none document.size)).1.node id = document.node id :=
    fun id bound => node_push_of_lt _ bound
  have laid := laid_push document (tree.layOut isNew none document.size)
  have size := size_push document (tree.layOut isNew none document.size)
  rw [Tree.length_layOut] at size
  generalize (document.push (tree.layOut isNew none document.size)).1 = pushed at old laid size ⊢
  have bound : ∀ id : Nat, id ∈ idsAll forest → id < document.size := fun id member =>
    lt_size_of_isLive (holds.isLive_of_mem member)
  refine ⟨?_, ?_, ?_, ?_⟩
  · rw [idsAll, Tree.ids_outline, List.nodup_append]
    refine ⟨List.nodup_range', holds.nodup, ?_⟩
    intro fresh above id member equal
    subst equal
    have before := bound fresh member
    have behind := (List.mem_range'_1.mp above).1
    omega
  · intro link member
    rw [linksAll, List.mem_append] at member
    rcases member with new | kept
    · exact has_of_laid laid link new
    · have listed : link.id ∈ idsAll forest := by
        rw [← Outline.map_id_linksAll none]
        exact List.mem_map_of_mem kept
      exact (holds.has link kept).of_same (old _ (bound _ listed))
  · intro id live
    rw [idsAll, List.mem_append, Tree.ids_outline]
    rcases Nat.lt_or_ge id document.size with before | beyond
    · rw [isLive, old id before] at live
      exact .inr (holds.mem_of_isLive id live)
    · have inside := lt_size_of_isLive live
      exact .inl (List.mem_range'_1.mpr ⟨by omega, by omega⟩)
  · intro id dead
    rcases Nat.lt_or_ge id document.size with before | beyond
    · rw [isLive, old id before] at dead
      rw [Document.children, old id before]
      exact holds.bare id dead
    · rcases Nat.lt_or_ge id pushed.size with inside | outside
      · have listed : id ∈ (tree.outline document.size).ids := by
          rw [Tree.ids_outline]
          exact List.mem_range'_1.mpr ⟨by omega, by omega⟩
        rw [← Outline.map_id_links none] at listed
        obtain ⟨link, member, equal⟩ := List.mem_map.mp listed
        have live := (has_of_laid laid link member).live
        rw [equal, dead] at live
        exact absurd live (by decide)
      · rw [Document.children, node_of_le_size (by omega)]
        rfl

theorem holds_ofTree (declared : Bool) (tree : Tree) :
    (ofTree declared tree).Holds [tree.outline 0] := by
  have empty : Document.Holds { nodes := #[], declared } [] := by
    refine ⟨by simp [idsAll], by simp [linksAll], ?_, ?_⟩
    · intro id live
      exact absurd (lt_size_of_isLive live) (by simp [size])
    · intro id _
      rw [Document.children, node_of_le_size (by simp [size])]
      rfl
  have pushed := empty.push false tree
  simpa [Document.push, ofTree, size] using pushed

theorem toTree_ofTree (declared : Bool) (tree : Tree) :
    (tree.outline 0).toTree (ofTree declared tree) = tree := by
  have laid := laid_push { nodes := #[], declared } (tree.layOut false none 0)
  have placed : (ofTree declared tree).Laid 0 (tree.layOut false none 0) := by
    simpa [Document.push, ofTree, size] using laid
  exact toTree_of_laid placed

theorem liveTree_ofTree (declared : Bool) (tree : Tree) :
    (ofTree declared tree).liveTree (ofTree declared tree).root = tree := by
  have holds : (ofTree declared tree).Holds ((Context.top [] []).fill [tree.outline 0]) :=
    holds_ofTree declared tree
  have read := holds.liveTree
  rw [Tree.id_outline, toTree_ofTree] at read
  exact read

theorem exists_ofTree_of_parse {text : String} {document : Document}
    (parsed : parse text = .ok document) : ∃ declared tree, document = ofTree declared tree := by
  simp only [parse, bind, Except.bind] at parsed
  split at parsed
  · simp at parsed
  · cases parsed
    exact ⟨_, _, rfl⟩

theorem exists_ofTree_of_parseFragment {content : String} {fragment : Document}
    (parsed : parseFragment content = .ok fragment) : ∃ tree, fragment = ofTree false tree := by
  simp only [parseFragment, bind, Except.bind] at parsed
  split at parsed
  · simp at parsed
  · cases parsed
    exact ⟨_, rfl⟩

/-- The elements that are written of a document. -/
def written (document : Document) : List Element :=
  if document.isLive document.root then (document.linkedTree document.root).elements else []

theorem written_ofTree (declared : Bool) (tree : Tree) :
    (ofTree declared tree).written = tree.elements := by
  have holds : (ofTree declared tree).Holds ((Context.top [] []).fill [tree.outline 0]) :=
    holds_ofTree declared tree
  have live : (ofTree declared tree).isLive (tree.outline 0).id = true :=
    (holds_fill_iff.mp holds).top.live
  have shown := holds.linkedTree
  rw [Tree.id_outline] at live
  rw [Tree.id_outline, toTree_ofTree] at shown
  rw [written, show (ofTree declared tree).root = 0 from rfl, if_pos live, shown]

mutual

theorem elements_toTree (document : Document) (outline : Outline) :
    (outline.toTree document).elements = outline.ids.map fun id => (document.node id).toElement := by
  cases outline with
  | node id children =>
      rw [Outline.toTree, Tree.elements, elementsAll_toTrees, Outline.ids, List.map_cons]

theorem elementsAll_toTrees (document : Document) (outlines : List Outline) :
    Tree.elementsAll (Outline.toTrees document outlines) =
      (idsAll outlines).map fun id => (document.node id).toElement := by
  cases outlines with
  | nil => rfl
  | cons outline rest =>
      rw [Outline.toTrees, Tree.elementsAll, elements_toTree, elementsAll_toTrees, Outline.idsAll,
        List.map_append]

end

theorem size_ofTree (declared : Bool) (tree : Tree) : (ofTree declared tree).size = tree.size := by
  rw [size, ofTree, List.size_toArray, Tree.length_layOut]

theorem toElement_mem_ofTree {declared : Bool} {tree : Tree} {id : Nat}
    (inside : id < (ofTree declared tree).size) :
    ((ofTree declared tree).node id).toElement ∈ tree.elements := by
  have size := size_ofTree declared tree
  have shown := elements_toTree (ofTree declared tree) (tree.outline 0)
  rw [toTree_ofTree] at shown
  rw [shown]
  refine List.mem_map_of_mem ?_
  rw [Tree.ids_outline, List.mem_range'_1]
  omega

theorem allText_ofTree (declared : Bool) (tree : Tree) :
    (ofTree declared tree).allText (ofTree declared tree).root =
      String.join (tree.elements.map Element.text) := by
  have holds : (ofTree declared tree).Holds ((Context.top [] []).fill [tree.outline 0]) :=
    holds_ofTree declared tree
  have below := holds.descendants
  have elements := elements_toTree (ofTree declared tree) (tree.outline 0)
  rw [toTree_ofTree, ← Outline.node_eta (tree.outline 0), Tree.id_outline, Outline.ids] at elements
  rw [Tree.id_outline] at below
  rw [allText, show (ofTree declared tree).root = 0 from rfl, below, elements]
  rw [List.map_map, List.map_cons]
  rfl

theorem modify_of_same {document : Document} {id : NodeId} {change : Node → Node}
    (same : change (document.node id) = document.node id) :
    document.modify id change = document := by
  have nodes : document.nodes.modify id change = document.nodes := by
    apply Array.ext
    · simp
    · intro index bound bound'
      rw [Array.getElem_modify]
      split
      · rename_i equal
        subst equal
        simpa [node, Array.getD_eq_getD_getElem?, bound'] using same
      · rfl
  rw [modify, nodes]

theorem size_graft (document source : Document) (id : NodeId) :
    (document.graft source id).1.size = document.size + (source.liveTree id).size := by
  rw [graft]
  refine (size_modify ..).trans ?_
  rw [size_push, Tree.length_layOut]

theorem lt_size_graft (document source : Document) (id : NodeId) :
    document.size < (document.graft source id).1.size := by
  rw [size_graft, ← Tree.node_eta (source.liveTree id), Tree.size]
  omega

theorem node_graft (document source : Document) (id other : NodeId) :
    ((document.graft source id).1.node other) =
      if other = document.size then { (document.push ((source.liveTree id).layOut true none
        document.size)).1.node other with live := source.isLive id }
      else (document.push ((source.liveTree id).layOut true none document.size)).1.node other := by
  have bound := lt_size_graft document source id
  rw [graft] at bound ⊢
  replace bound := Nat.lt_of_lt_of_eq bound (size_modify ..)
  refine (node_modify _ _ _ _).trans ?_
  by_cases here : other = document.size
  · subst here
    rw [if_pos ⟨rfl, bound⟩, if_pos rfl]
  · rw [if_neg fun both => here both.1, if_neg here]

theorem node_graft_of_lt {document : Document} (source : Document) (top : NodeId) {id : Nat}
    (old : id < document.size) : (document.graft source top).1.node id = document.node id := by
  rw [node_graft, if_neg (Nat.ne_of_lt old), node_push_of_lt _ old]

theorem isLive_graft_of_lt {document source : Document} {id other : NodeId}
    (old : other < document.size) :
    (document.graft source id).1.isLive other = document.isLive other :=
  congrArg Node.live (node_graft_of_lt source id old)

theorem isLive_graft_top (document source : Document) (id : NodeId) :
    (document.graft source id).1.isLive document.size = source.isLive id := by
  rw [isLive, node_graft, if_pos rfl]

/-- The live tree of a live node is laid out as it is. -/
theorem graft_of_isLive (document : Document) {source : Document} {id : NodeId}
    (live : source.isLive id = true) :
    document.graft source id =
      document.push ((source.liveTree id).layOut true none document.size) := by
  have laid := laid_push document ((source.liveTree id).layOut true none document.size)
  have modified : (document.push ((source.liveTree id).layOut true none document.size)).1.modify
      document.size (fun node => { node with live := source.isLive id }) =
      (document.push ((source.liveTree id).layOut true none document.size)).1 := by
    apply modify_of_same
    cases tree : source.liveTree id with
    | node element children =>
        rw [tree] at laid
        rw [laid.1, live]
  simp only [graft]
  rw [show (document.push ((source.liveTree id).layOut true none document.size)).2 =
    document.size from rfl, modified]
  rfl

theorem Holds.cloneSubtree {document : Document} {context : Context} {outline : Outline}
    (holds : document.Holds (context.fill [outline])) :
    (document.cloneSubtree outline.id).1.Holds
      ((outline.toTree document).outline document.size :: context.fill [outline]) := by
  have live : document.isLive outline.id = true := (holds_fill_iff.mp holds).top.live
  rw [Document.cloneSubtree, graft_of_isLive document live, holds.liveTree]
  exact holds.push true _

@[simp]
theorem cloneSubtree_snd (document : Document) (id : NodeId) :
    (document.cloneSubtree id).2 = document.size := rfl

theorem cloneAfter_fst (document : Document) (id : NodeId) : (document.cloneAfter id).1 =
    ((document.cloneSubtree id).1.insertAfter id document.size).1 := rfl

theorem node_cloneSubtree {document : Document} (top : NodeId) {id : Nat} (bound : id < document.size) :
    (document.cloneSubtree top).1.node id = document.node id :=
  node_graft_of_lt document top bound

theorem toTree_cloneSubtree {document : Document} {context : Context} {outline : Outline}
    (holds : document.Holds (context.fill [outline])) :
    ((outline.toTree document).outline document.size).toTree
      (document.cloneSubtree outline.id).1 = outline.toTree document := by
  have live : document.isLive outline.id = true := (holds_fill_iff.mp holds).top.live
  rw [Document.cloneSubtree, graft_of_isLive document live, holds.liveTree]
  exact toTree_of_laid (laid_push document _)

end Document

end WordTemplate.Markup
