import WordTemplate.Proofs.Markup.Reading
import WordTemplate.Proofs.Markup.Trees
import WordTemplate.Wordml.Vocabulary

/-! Documents with all characters of their texts and values changed. Looking around in such a document
gives the same nodes, and removing, moving and copying nodes goes together with the change. -/

namespace WordTemplate.Markup

def Attribute.recode (change : Char → Char) (entry : Attribute) : Attribute :=
  { entry with value := entry.value.map change }

/-- Changes every character of the text and the values. -/
def Element.recode (change : Char → Char) (element : Element) : Element :=
  { element with
    attributes := element.attributes.map (Attribute.recode change)
    text := element.text.map change }

def Node.recode (change : Char → Char) (node : Node) : Node :=
  { node with toElement := node.toElement.recode change }

def Document.recode (change : Char → Char) (document : Document) : Document :=
  { document with nodes := document.nodes.map (Node.recode change) }

variable {change : Char → Char}

theorem Node.recode_absent : Node.absent.recode change = Node.absent := by
  have empty : ("" : String).map change = "" := String.map_eq_empty.mpr rfl
  simp [Node.recode, Element.recode, Node.absent, empty]

namespace Document

variable (document : Document)

@[simp]
theorem size_recode : (document.recode change).size = document.size := by
  simp [recode, size]

@[simp]
theorem root_recode : (document.recode change).root = document.root := rfl

theorem node_recode (id : NodeId) :
    (document.recode change).node id = (document.node id).recode change := by
  rw [node, node, recode, Array.getD_eq_getD_getElem?, Array.getD_eq_getD_getElem?,
    Array.getElem?_map]
  cases document.nodes[id]? with
  | none => exact Node.recode_absent.symm
  | some node => rfl

@[simp]
theorem tag_recode (id : NodeId) : (document.recode change).tag id = document.tag id := by
  rw [tag, node_recode]
  rfl

@[simp]
theorem text_recode (id : NodeId) :
    (document.recode change).text id = (document.text id).map change := by
  rw [text, node_recode]
  rfl

@[simp]
theorem parent?_recode (id : NodeId) : (document.recode change).parent? id = document.parent? id := by
  rw [parent?, node_recode]
  rfl

@[simp]
theorem children_recode (id : NodeId) :
    (document.recode change).children id = document.children id := by
  rw [children, node_recode]
  rfl

@[simp]
theorem isLive_recode (id : NodeId) : (document.recode change).isLive id = document.isLive id := by
  rw [isLive, node_recode]
  rfl

@[simp]
theorem isAny_recode (tags : List String) (id : NodeId) :
    (document.recode change).isAny tags id = document.isAny tags id := by
  rw [isAny, isAny, tag_recode]

theorem attribute?_recode (id : NodeId) (key : String) :
    (document.recode change).attribute? id key = (document.attribute? id key).map (·.map change) := by
  simp only [attribute?, node_recode, Node.recode, Element.recode, Element.attribute?,
    List.find?_map, Option.map_map]
  rfl

@[simp]
theorem childByTag?_recode (id : NodeId) (tag : String) :
    (document.recode change).childByTag? id tag = document.childByTag? id tag := by
  simp [childByTag?]

@[simp]
theorem descendants_recode (id : NodeId) :
    (document.recode change).descendants id = document.descendants id := by
  rw [descendants, descendants, size_recode]
  generalize document.size = depth
  induction depth generalizing id with
  | zero => rfl
  | succ depth ih => simp [descendantsTo, ih]

@[simp]
theorem findAll_recode (start : NodeId) (tags : List String) :
    (document.recode change).findAll start tags = document.findAll start tags := by
  rw [findAll, findAll, descendants_recode]
  exact List.filter_congr fun id _ => isAny_recode document tags id

@[simp]
theorem closest?_recode (id : NodeId) (tags : List String) :
    (document.recode change).closest? id tags = document.closest? id tags := by
  rw [closest?, closest?, size_recode]
  generalize document.size + 1 = depth
  induction depth generalizing id with
  | zero => rfl
  | succ depth ih =>
      have above : (document.recode change).closestTo? tags depth = document.closestTo? tags depth :=
        funext ih
      simp [closestTo?, above]

@[simp]
theorem place?_recode (id : NodeId) : (document.recode change).place? id = document.place? id := by
  simp [place?]

@[simp]
theorem path?_recode (ancestor id : NodeId) :
    (document.recode change).path? ancestor id = document.path? ancestor id := by
  rw [path?, path?, size_recode]
  generalize document.size + 1 = depth
  induction depth generalizing id with
  | zero => rfl
  | succ depth ih => simp [pathTo?, ih]

@[simp]
theorem follow?_recode (start : NodeId) (path : List Nat) :
    (document.recode change).follow? start path = document.follow? start path := by
  induction path generalizing start with
  | nil => rfl
  | cons position rest ih => simp [follow?, ih]

@[simp]
theorem linkedTo_recode (depth : Nat) (id : NodeId) :
    (document.recode change).linkedTo depth id = document.linkedTo depth id := by
  induction depth generalizing id with
  | zero => rfl
  | succ depth ih =>
      have below : (document.recode change).linkedTo depth = document.linkedTo depth := funext ih
      simp [linkedTo, below]

theorem liveTree_recode (id : NodeId) :
    (document.recode change).liveTree id = (document.liveTree id).map (Element.recode change) := by
  have shown : (document.recode change).isLive = document.isLive := funext (isLive_recode document)
  rw [liveTree, liveTree, size_recode, shown]
  generalize document.size = depth
  induction depth generalizing id with
  | zero =>
      rw [treeTo, treeTo, Tree.map, Tree.mapAll, node_recode]
      rfl
  | succ depth ih =>
      rw [treeTo, treeTo, Tree.map, Tree.mapAll_eq, List.map_map, node_recode, children_recode]
      congr 1
      exact List.map_congr_left fun child _ => ih child

@[simp]
theorem depth_recode : (document.recode change).depth = document.depth := by
  rw [depth, depth, liveTree_recode, Tree.depth_map, root_recode]

/-! Changing nodes -/

theorem modify_recode (id : NodeId) {first second : Node → Node}
    (same : ∀ node : Node, second (node.recode change) = (first node).recode change) :
    (document.recode change).modify id second = (document.modify id first).recode change := by
  have nodes : (document.nodes.map (Node.recode change)).modify id second =
      (document.nodes.modify id first).map (Node.recode change) := by
    apply Array.ext_getElem?
    intro other
    simp only [Array.getElem?_modify, Array.getElem?_map]
    split
    · rw [Option.map_map, Option.map_map]
      exact congrArg (Option.map · document.nodes[other]?) (funext same)
    · rfl
  simp only [recode, modify, nodes]

theorem relink_recode (id : NodeId) {relink : Node → Node}
    (same : ∀ node : Node, relink (node.recode change) = (relink node).recode change) :
    (document.recode change).modify id relink = (document.modify id relink).recode change :=
  modify_recode document id same

theorem foldl_recode {α : Type} {step : Document → α → Document}
    (same : ∀ (document : Document) (item : α),
      step (document.recode change) item = (step document item).recode change) (items : List α) :
    items.foldl step (document.recode change) = (items.foldl step document).recode change := by
  induction items generalizing document with
  | nil => rfl
  | cons item rest ih => rw [List.foldl_cons, List.foldl_cons, same, ih]

theorem setText_recode (id : NodeId) (content : String) :
    (document.recode change).setText id (content.map change) =
      (document.setText id content).recode change :=
  modify_recode document id fun _ => rfl

theorem pushText_recode (id : NodeId) (content : String) :
    (document.recode change).pushText id (content.map change) =
      (document.pushText id content).recode change :=
  modify_recode document id fun node => by
    simp [Node.recode, Element.recode, ← String.toList_inj]

theorem setAttributes_recode (id : NodeId) (attributes : List Attribute) :
    (document.recode change).setAttributes id (attributes.map (Attribute.recode change)) =
      (document.setAttributes id attributes).recode change :=
  modify_recode document id fun _ => rfl

theorem set_recode (key value : String) (attributes : List Attribute) :
    Element.setAttribute.set key (value.map change) (attributes.map (Attribute.recode change)) =
      (Element.setAttribute.set key value attributes).map (Attribute.recode change) := by
  induction attributes with
  | nil => rfl
  | cons entry rest ih =>
      have sameKey : (entry.recode change).key = entry.key := rfl
      rw [List.map_cons, Element.setAttribute.set, Element.setAttribute.set, sameKey]
      split
      · rfl
      · rw [ih, List.map_cons]

theorem setAttribute_recode (id : NodeId) (key value : String) :
    (document.recode change).setAttribute id key (value.map change) =
      (document.setAttribute id key value).recode change := by
  refine modify_recode document id fun node => ?_
  simp only [Node.recode, Element.recode, Element.setAttribute, set_recode]

theorem removeAttribute_recode (id : NodeId) (key : String) :
    (document.recode change).removeAttribute id key =
      (document.removeAttribute id key).recode change := by
  refine modify_recode document id fun node => ?_
  simp only [Node.recode, Element.recode, Element.removeAttribute, List.eraseP_map]
  rfl

theorem clearTextDeep_recode (id : NodeId) :
    (document.recode change).clearTextDeep id = (document.clearTextDeep id).recode change := by
  have empty : ("" : String).map change = "" := String.map_eq_empty.mpr rfl
  rw [clearTextDeep, clearTextDeep, descendants_recode]
  refine foldl_recode document (fun document inner => ?_) _
  have cleared := @setText_recode change document inner ""
  rwa [empty] at cleared

theorem removeAttributeDeep_recode (id : NodeId) (key : String) :
    (document.recode change).removeAttributeDeep id key =
      (document.removeAttributeDeep id key).recode change := by
  rw [removeAttributeDeep, removeAttributeDeep, descendants_recode]
  exact foldl_recode document (fun document inner => removeAttribute_recode document inner key) _

theorem detach_recode (id : NodeId) :
    (document.recode change).detach id = (document.detach id).recode change := by
  rw [detach, detach, parent?_recode]
  split
  · rfl
  · rw [relink_recode document id, relink_recode]
    · exact fun _ => rfl
    · exact fun _ => rfl

theorem delete_recode (id : NodeId) :
    (document.recode change).delete id = (document.delete id).recode change := by
  simp only [delete, isLive_recode, size_recode, linkedTo_recode]
  split
  · rw [foldl_recode document]
    · exact detach_recode _ id
    · intro document inner
      refine relink_recode document inner ?_
      exact fun _ => rfl
  · rfl

theorem insertAfter_recode (anchor id : NodeId) :
    (document.recode change).insertAfter anchor id =
      ((document.insertAfter anchor id).1.recode change, (document.insertAfter anchor id).2) := by
  simp only [insertAfter, insertBeside, detach_recode, parent?_recode, children_recode]
  split
  · rfl
  · split
    · rfl
    · rw [relink_recode, relink_recode]
      · exact fun _ => rfl
      · exact fun _ => rfl

theorem push_recode (nodes : List Node) :
    (document.recode change).push (nodes.map (Node.recode change)) =
      ((document.push nodes).1.recode change, (document.push nodes).2) := by
  simp [push, recode, size]

theorem createElement_recode (tag : String) :
    (document.recode change).createElement tag =
      ((document.createElement tag).1.recode change, (document.createElement tag).2) := by
  have empty : ("" : String).map change = "" := String.map_eq_empty.mpr rfl
  have same : [Node.recode change { tag }] = [{ tag }] := by
    simp [Node.recode, Element.recode, empty]
  rw [createElement, createElement, ← push_recode, List.map_singleton, same]

end Document

namespace Tree

mutual

theorem size_map (change : Element → Element) (tree : Tree) : (tree.map change).size = tree.size := by
  cases tree with
  | node element children => rw [map, size, size, sizeAll_mapAll]

theorem sizeAll_mapAll (change : Element → Element) (trees : List Tree) :
    sizeAll (mapAll change trees) = sizeAll trees := by
  cases trees with
  | nil => rfl
  | cons tree rest => rw [mapAll, sizeAll, sizeAll, size_map, sizeAll_mapAll]

end

theorem roots_mapAll (change : Element → Element) (first : NodeId) (trees : List Tree) :
    roots first (mapAll change trees) = roots first trees := by
  induction trees generalizing first with
  | nil => rfl
  | cons tree rest ih => rw [mapAll, roots, roots, size_map, ih]

mutual

theorem layOut_recode (isNew : Bool) (parent : Option NodeId) (first : NodeId) (tree : Tree) :
    (tree.map (Element.recode change)).layOut isNew parent first =
      (tree.layOut isNew parent first).map (Node.recode change) := by
  cases tree with
  | node element children =>
      rw [map, layOut, layOut, roots_mapAll, layOutAll_recode, List.map_cons]
      rfl

theorem layOutAll_recode (isNew : Bool) (parent : Option NodeId) (first : NodeId)
    (trees : List Tree) :
    layOutAll isNew parent first (mapAll (Element.recode change) trees) =
      (layOutAll isNew parent first trees).map (Node.recode change) := by
  cases trees with
  | nil => rfl
  | cons tree rest =>
      rw [mapAll, layOutAll, layOutAll, size_map, layOut_recode, layOutAll_recode, List.map_append]

end

end Tree

namespace Document

variable (document : Document)

theorem graft_recode (source : Document) (id : NodeId) :
    (document.recode change).graft (source.recode change) id =
      ((document.graft source id).1.recode change, (document.graft source id).2) := by
  simp only [graft, liveTree_recode, size_recode, Tree.layOut_recode, push_recode, isLive_recode]
  rw [relink_recode]
  exact fun _ => rfl

theorem cloneSubtree_recode (id : NodeId) :
    (document.recode change).cloneSubtree id =
      ((document.cloneSubtree id).1.recode change, (document.cloneSubtree id).2) :=
  graft_recode document document id

theorem graftAll_recode (source : Document) (ids : List NodeId) :
    (document.recode change).graftAll (source.recode change) ids =
      ((document.graftAll source ids).1.recode change, (document.graftAll source ids).2) := by
  induction ids generalizing document with
  | nil => rfl
  | cons id rest ih => simp only [graftAll, graft_recode, ih]

/-- No character is changed anywhere in the document. -/
def FixedBy (change : Char → Char) (document : Document) : Prop :=
  document.recode change = document

theorem fixedBy_of_nodes {document : Document}
    (same : document.nodes.map (Node.recode change) = document.nodes) : document.FixedBy change := by
  rw [FixedBy, recode, same]

namespace FixedBy

variable {document : Document}

theorem node (fixed : document.FixedBy change) (id : NodeId) :
    (document.node id).recode change = document.node id := by
  rw [← node_recode, fixed]

theorem text (fixed : document.FixedBy change) (id : NodeId) :
    (document.text id).map change = document.text id :=
  congrArg (fun node : Node => node.text) (fixed.node id)

theorem value (fixed : document.FixedBy change) {id : NodeId} {entry : Attribute}
    (member : entry ∈ (document.node id).attributes) : entry.value.map change = entry.value := by
  have attributes : (document.node id).attributes.map (Attribute.recode change) =
      (document.node id).attributes.map fun entry => entry := by
    rw [List.map_id']
    exact congrArg (fun node : Node => node.attributes) (fixed.node id)
  exact congrArg Attribute.value (List.map_inj_left.mp attributes entry member)

theorem pushText (fixed : document.FixedBy change) (target source : NodeId) :
    (document.pushText target (document.text source)).FixedBy change := by
  rw [FixedBy, ← pushText_recode, fixed.text, fixed]

theorem delete (fixed : document.FixedBy change) (id : NodeId) :
    (document.delete id).FixedBy change := by
  rw [FixedBy, ← delete_recode, fixed]

end FixedBy

end Document

end WordTemplate.Markup

namespace WordTemplate.Wordml

open Markup

theorem deleteText_recode (change : Char → Char) (document : Document) (id : NodeId) :
    deleteText (document.recode change) id = (deleteText document id).recode change := by
  simp only [deleteText, Document.delete_recode, Document.parent?_recode, Document.tag_recode,
    Document.children_recode]
  split
  · rfl
  · split
    · rfl
    · rfl

end WordTemplate.Wordml
