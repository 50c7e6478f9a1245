import Mathlib.Data.List.Basic
import WordTemplate.Markup.Document

/-! Outlines: how the slots of a document hang together, as trees of slots. A context is a forest
with a hole at one place, so that a change at one node is a change of what fills the hole. -/

namespace WordTemplate.Markup

/-- The slots of a node and of all below it. -/
inductive Outline
  | node (id : NodeId) (children : List Outline)

/-- What a store says about a live slot: its parent and its children. -/
structure Link where
  id : NodeId
  parent : Option NodeId
  children : List NodeId
deriving DecidableEq

namespace Outline

def id : Outline → NodeId
  | node id _ => id

def children : Outline → List Outline
  | node _ children => children

mutual

def ids : Outline → List NodeId
  | node id children => id :: idsAll children

def idsAll : List Outline → List NodeId
  | [] => []
  | outline :: rest => outline.ids ++ idsAll rest

end

mutual

def links (parent : Option NodeId) : Outline → List Link
  | node id children => ⟨id, parent, children.map Outline.id⟩ :: linksAll (some id) children

def linksAll (parent : Option NodeId) : List Outline → List Link
  | [] => []
  | outline :: rest => outline.links parent ++ linksAll parent rest

end

mutual

def height : Outline → Nat
  | node _ children => heightAll children + 1

def heightAll : List Outline → Nat
  | [] => 0
  | outline :: rest => max outline.height (heightAll rest)

end

mutual

def toTree (document : Document) : Outline → Tree
  | node id children => .node (document.node id).toElement (toTrees document children)

def toTrees (document : Document) : List Outline → List Tree
  | [] => []
  | outline :: rest => outline.toTree document :: toTrees document rest

end

@[elab_as_elim]
theorem induction {motive : Outline → Prop} (outline : Outline)
    (node : ∀ id children, (∀ child ∈ children, motive child) → motive (.node id children)) :
    motive outline :=
  @Outline.rec motive (fun outlines => ∀ child ∈ outlines, motive child)
    node (by simp) (fun outline rest first others => by
      intro child member
      rcases List.mem_cons.mp member with same | later
      · exact same ▸ first
      · exact others child later) outline

theorem idsAll_eq (outlines : List Outline) : idsAll outlines = outlines.flatMap ids := by
  induction outlines with
  | nil => simp [idsAll]
  | cons outline rest ih => simp [idsAll, ih]

theorem linksAll_eq (parent : Option NodeId) (outlines : List Outline) :
    linksAll parent outlines = outlines.flatMap (links parent) := by
  induction outlines with
  | nil => simp [linksAll]
  | cons outline rest ih => simp [linksAll, ih]

theorem toTrees_eq (document : Document) (outlines : List Outline) :
    toTrees document outlines = outlines.map (toTree document) := by
  induction outlines with
  | nil => simp [toTrees]
  | cons outline rest ih => simp [toTrees, ih]

@[simp]
theorem idsAll_append (first second : List Outline) :
    idsAll (first ++ second) = idsAll first ++ idsAll second := by
  simp [idsAll_eq]

@[simp]
theorem linksAll_append (parent : Option NodeId) (first second : List Outline) :
    linksAll parent (first ++ second) = linksAll parent first ++ linksAll parent second := by
  simp [linksAll_eq]

@[simp]
theorem toTrees_append (document : Document) (first second : List Outline) :
    toTrees document (first ++ second) = toTrees document first ++ toTrees document second := by
  simp [toTrees_eq]

@[simp]
theorem id_node (id : NodeId) (children : List Outline) : (node id children).id = id := rfl

@[simp]
theorem children_node (id : NodeId) (children : List Outline) :
    (node id children).children = children := rfl

theorem node_eta (outline : Outline) : node outline.id outline.children = outline := by
  cases outline
  rfl

theorem id_mem_ids (outline : Outline) : outline.id ∈ outline.ids := by
  cases outline
  simp [ids]

theorem mem_idsAll {outlines : List Outline} {id : NodeId} :
    id ∈ idsAll outlines ↔ ∃ outline ∈ outlines, id ∈ outline.ids := by
  simp [idsAll_eq]

theorem map_id_links (parent : Option NodeId) (outline : Outline) :
    (outline.links parent).map Link.id = outline.ids := by
  induction outline using Outline.induction generalizing parent with
  | node id children ih =>
      simp only [links, ids, List.map_cons, linksAll_eq, idsAll_eq, List.map_flatMap]
      congr 1
      exact List.flatMap_congr fun child member => ih child member _

theorem map_id_linksAll (parent : Option NodeId) (outlines : List Outline) :
    (linksAll parent outlines).map Link.id = idsAll outlines := by
  induction outlines with
  | nil => simp [linksAll, idsAll]
  | cons outline rest ih => simp [linksAll, idsAll, map_id_links, ih]

theorem height_le_of_mem {outlines : List Outline} {outline : Outline}
    (member : outline ∈ outlines) : outline.height ≤ heightAll outlines := by
  induction outlines with
  | nil => simp at member
  | cons first rest ih =>
      rcases List.mem_cons.mp member with same | later
      · subst same
        simp only [heightAll]
        omega
      · have := ih later
        simp only [heightAll]
        omega

theorem heightAll_le {outlines : List Outline} {bound : Nat}
    (bounded : ∀ outline ∈ outlines, outline.height ≤ bound) : heightAll outlines ≤ bound := by
  induction outlines with
  | nil => simp [heightAll]
  | cons outline rest ih =>
      have first := bounded outline (by simp)
      have others := ih fun other member => bounded other (by simp [member])
      simp only [heightAll]
      omega

theorem length_ids_le_of_mem {outlines : List Outline} {outline : Outline}
    (member : outline ∈ outlines) : outline.ids.length ≤ (idsAll outlines).length := by
  induction outlines with
  | nil => simp at member
  | cons first rest ih =>
      simp only [idsAll, List.length_append]
      rcases List.mem_cons.mp member with same | later
      · subst same
        omega
      · have := ih later
        omega

theorem height_le_length_ids (outline : Outline) : outline.height ≤ outline.ids.length := by
  induction outline using Outline.induction with
  | node id children ih =>
      have inner : heightAll children ≤ (idsAll children).length := by
        apply heightAll_le
        intro child member
        exact Nat.le_trans (ih child member) (length_ids_le_of_mem member)
      simp only [height, ids, List.length_cons]
      omega

theorem toTree_congr {first second : Document} {outline : Outline}
    (same : ∀ id ∈ outline.ids, (second.node id).toElement = (first.node id).toElement) :
    outline.toTree second = outline.toTree first := by
  induction outline using Outline.induction with
  | node id children ih =>
      simp only [toTree, toTrees_eq]
      congr 1
      · exact same id (by simp [ids])
      · apply List.map_congr_left
        intro child member
        apply ih child member
        intro inner below
        exact same inner (by simp only [ids, List.mem_cons, mem_idsAll]; exact .inr ⟨child, member, below⟩)

theorem toTrees_congr {first second : Document} {outlines : List Outline}
    (same : ∀ id ∈ idsAll outlines, (second.node id).toElement = (first.node id).toElement) :
    toTrees second outlines = toTrees first outlines := by
  rw [toTrees_eq, toTrees_eq]
  apply List.map_congr_left
  intro outline member
  exact toTree_congr fun id below => same id (mem_idsAll.mpr ⟨outline, member, below⟩)

end Outline

open Outline (idsAll linksAll)

/-- A forest with a hole, which is among the trees or below a node. -/
inductive Context
  | top (before after : List Outline)
  | under (outer : Context) (before after : List Outline) (id : NodeId)

namespace Context

def fill : Context → List Outline → List Outline
  | top before after, outlines => before ++ outlines ++ after
  | under outer before after id, outlines => outer.fill [.node id (before ++ outlines ++ after)]

/-- The node that the hole is below. -/
def parent? : Context → Option NodeId
  | top _ _ => none
  | under _ _ _ id => some id

def rim (filling : List NodeId) : Context → List Link
  | top _ _ => []
  | under outer before after id =>
    [⟨id, outer.parent?, before.map Outline.id ++ filling ++ after.map Outline.id⟩]

/-- The links that do not depend on what fills the hole. -/
def frame : Context → List Link
  | top before after => linksAll none before ++ linksAll none after
  | under outer before after id =>
    outer.frame ++ outer.rim [id] ++ (linksAll (some id) before ++ linksAll (some id) after)

def ids (context : Context) : List NodeId :=
  (context.frame ++ context.rim []).map Link.id

def depth : Context → Nat
  | top _ _ => 0
  | under outer _ _ _ => outer.depth + 1

def beside (before after : List Outline) : Context → Context
  | top left right => top (left ++ before) (after ++ right)
  | under outer left right id => under outer (left ++ before) (after ++ right) id

def behind (outlines : List Outline) : Context → Context
  | top before after => top (outlines ++ before) after
  | under outer before after id => under (outer.behind outlines) before after id

theorem fill_beside (context : Context) (before after outlines : List Outline) :
    (context.beside before after).fill outlines = context.fill (before ++ outlines ++ after) := by
  cases context <;> simp [beside, fill]

theorem fill_behind (context : Context) (front outlines : List Outline) :
    (context.behind front).fill outlines = front ++ context.fill outlines := by
  induction context generalizing outlines with
  | top before after => simp [behind, fill]
  | under outer before after id ih => simp [behind, fill, ih]

@[simp]
theorem parent?_behind (context : Context) (front : List Outline) :
    (context.behind front).parent? = context.parent? := by
  cases context <;> rfl

theorem rim_under (outer : Context) (before after : List Outline) (id : NodeId)
    (filling : List NodeId) :
    (under outer before after id).rim filling =
      [⟨id, outer.parent?, before.map Outline.id ++ filling ++ after.map Outline.id⟩] := rfl

theorem map_id_rim (context : Context) (filling other : List NodeId) :
    (context.rim filling).map Link.id = (context.rim other).map Link.id := by
  cases context <;> rfl

theorem linksAll_fill (context : Context) (outlines : List Outline) :
    (linksAll none (context.fill outlines)).Perm
      (context.frame ++ context.rim (outlines.map Outline.id) ++
        linksAll context.parent? outlines) := by
  induction context generalizing outlines with
  | top before after =>
      simp only [fill, frame, rim, parent?, Outline.linksAll_append, List.append_nil,
        List.append_assoc]
      exact List.Perm.append_left _ List.perm_append_comm
  | under outer before after id ih =>
      refine (ih [.node id (before ++ outlines ++ after)]).trans ?_
      simp only [frame, rim, parent?, Outline.linksAll, Outline.links, Outline.linksAll_append,
        List.map_append, List.map_cons, List.map_nil, Outline.id_node, List.perm_iff_count,
        List.count_append, List.count_cons, List.count_nil]
      intro link
      omega

end Context

end WordTemplate.Markup
