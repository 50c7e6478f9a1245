import Mathlib.Data.List.Nodup
import WordTemplate.Proofs.Markup.Outline

/-! Stores that hold a forest of outlines: the live slots are those of the forest, and the links of
each slot are those that the forest gives it. Looking around in such a store follows the outlines. -/

namespace WordTemplate.Markup

namespace Document

open Outline (idsAll linksAll)

@[simp]
theorem size_modify (document : Document) (id : NodeId) (change : Node → Node) :
    (document.modify id change).size = document.size := by
  simp [modify, size]

theorem node_modify (document : Document) (id other : NodeId) (change : Node → Node) :
    (document.modify id change).node other =
      if other = id ∧ other < document.size then change (document.node other)
      else document.node other := by
  simp only [modify, node, size, Array.getD_eq_getD_getElem?, Array.getElem?_modify]
  by_cases same : id = other
  · subst same
    by_cases bound : id < document.nodes.size
    · simp [bound]
    · simp [bound]
  · simp [same, Ne.symm same]

section Unchanged

variable (document : Document) (id other : NodeId) {change : Node → Node}

theorem isLive_modify (live : ∀ node : Node, (change node).live = node.live) :
    (document.modify id change).isLive other = document.isLive other := by
  rw [isLive, node_modify]
  split
  · exact live _
  · rfl

theorem parent?_modify (parent : ∀ node : Node, (change node).parent = node.parent) :
    (document.modify id change).parent? other = document.parent? other := by
  rw [parent?, node_modify]
  split
  · exact parent _
  · rfl

theorem children_modify (children : ∀ node : Node, (change node).children = node.children) :
    (document.modify id change).children other = document.children other := by
  rw [Document.children, node_modify]
  split
  · exact children _
  · rfl

end Unchanged

theorem size_foldl {step : Document → NodeId → Document}
    (size : ∀ document id, (step document id).size = document.size) (ids : List NodeId)
    (document : Document) : (ids.foldl step document).size = document.size := by
  induction ids generalizing document with
  | nil => rfl
  | cons id rest ih => rw [List.foldl_cons, ih, size]

/-- Changing the slots of a list, each once, changes exactly those. -/
theorem node_foldl {step : Document → NodeId → Document} {change : Node → Node}
    (size : ∀ document id, (step document id).size = document.size)
    (node : ∀ document id other, (step document id).node other =
      if other = id ∧ other < document.size then change (document.node other)
      else document.node other)
    (ids : List NodeId) (document : Document) (other : NodeId) (nodup : ids.Nodup) :
    (ids.foldl step document).node other =
      if other ∈ ids ∧ other < document.size then change (document.node other)
      else document.node other := by
  induction ids generalizing document with
  | nil => simp
  | cons id rest ih =>
      obtain ⟨fresh, nodup⟩ := List.nodup_cons.mp nodup
      rw [List.foldl_cons, ih _ nodup, node, size]
      by_cases same : other = id
      · subst same
        simp [fresh]
      · simp [same]

theorem node_foldl_modify (change : Node → Node) (ids : List NodeId) (document : Document)
    (other : NodeId) (nodup : ids.Nodup) :
    (ids.foldl (fun document id => document.modify id change) document).node other =
      if other ∈ ids ∧ other < document.size then change (document.node other)
      else document.node other :=
  node_foldl (fun document id => size_modify document id change)
    (fun document id other => node_modify document id other change) ids document other nodup

theorem node_of_le_size {document : Document} {id : Nat} (beyond : document.size ≤ id) :
    document.node id = Node.absent := by
  simp only [node, Array.getD_eq_getD_getElem?]
  rw [Array.getElem?_eq_none beyond]
  rfl

theorem lt_size_of_isLive {document : Document} {id : Nat} (live : document.isLive id = true) :
    id < document.size := by
  by_contra beyond
  rw [isLive, node_of_le_size (Nat.le_of_not_lt beyond)] at live
  exact absurd live (by decide)

@[simp]
theorem size_push (document : Document) (nodes : List Node) :
    (document.push nodes).1.size = document.size + nodes.length := by
  simp [push, size]

theorem node_push_of_lt {document : Document} {id : Nat} (nodes : List Node)
    (bound : id < document.size) : (document.push nodes).1.node id = document.node id := by
  simp only [push, node, Array.getD_eq_getD_getElem?]
  rw [Array.getElem?_append_left bound]

theorem node_push_add (document : Document) (nodes : List Node) (index : Nat) :
    (document.push nodes).1.node (document.size + index) = nodes.getD index Node.absent := by
  simp only [push, node, size, Array.getD_eq_getD_getElem?]
  rw [Array.getElem?_append_right (by omega)]
  simp [List.getD_eq_getElem?_getD]

/-- A slot holds what it held, or one of the new nodes, or lies behind all of them. -/
theorem node_push_cases (document : Document) (nodes : List Node) (id : Nat) :
    id < document.size ∧ (document.push nodes).1.node id = document.node id ∨
      document.size ≤ id ∧ ((document.push nodes).1.node id ∈ nodes ∨
        (document.push nodes).1.node id = Node.absent) := by
  rcases Nat.lt_or_ge id document.size with before | beyond
  · exact .inl ⟨before, node_push_of_lt nodes before⟩
  · refine .inr ⟨beyond, ?_⟩
    obtain ⟨index, rfl⟩ := Nat.exists_eq_add_of_le beyond
    rw [node_push_add, List.getD_eq_getElem?_getD]
    cases found : nodes[index]? with
    | none => exact .inr rfl
    | some node => exact .inl (List.mem_of_getElem? found)

structure Has (document : Document) (link : Link) : Prop where
  live : document.isLive link.id = true
  parent : document.parent? link.id = link.parent
  children : document.children link.id = link.children

theorem Has.of_same {first second : Document} {link : Link} (has : first.Has link)
    (same : second.node link.id = first.node link.id) : second.Has link where
  live := by rw [isLive, same, ← isLive, has.live]
  parent := by rw [parent?, same, ← parent?, has.parent]
  children := by rw [Document.children, same, ← Document.children, has.children]

/-- The live slots are those of the forest, with its links; dead slots have no children. -/
structure Holds (document : Document) (forest : List Outline) : Prop where
  nodup : (idsAll forest).Nodup
  has : ∀ link ∈ linksAll none forest, document.Has link
  mem_of_isLive : ∀ id, document.isLive id = true → id ∈ idsAll forest
  bare : ∀ id, document.isLive id = false → document.children id = []

structure SameLinks (first second : Document) : Prop where
  isLive : ∀ id, second.isLive id = first.isLive id
  parent? : ∀ id, second.parent? id = first.parent? id
  children : ∀ id, second.children id = first.children id

theorem SameLinks.has {first second : Document} (same : SameLinks first second) {link : Link}
    (has : first.Has link) : second.Has link :=
  ⟨(same.isLive _).trans has.live, (same.parent? _).trans has.parent,
    (same.children _).trans has.children⟩

theorem SameLinks.refl (document : Document) : SameLinks document document :=
  ⟨fun _ => rfl, fun _ => rfl, fun _ => rfl⟩

theorem SameLinks.trans {first second third : Document} (left : SameLinks first second)
    (right : SameLinks second third) : SameLinks first third :=
  ⟨fun id => (right.isLive id).trans (left.isLive id),
    fun id => (right.parent? id).trans (left.parent? id),
    fun id => (right.children id).trans (left.children id)⟩

theorem Holds.congr {first second : Document} {forest : List Outline} (holds : first.Holds forest)
    (same : SameLinks first second) : second.Holds forest where
  nodup := holds.nodup
  has := fun link member => same.has (holds.has link member)
  mem_of_isLive := fun id live => holds.mem_of_isLive id ((same.isLive id) ▸ live)
  bare := fun id dead => (same.children id).trans (holds.bare id ((same.isLive id) ▸ dead))

theorem Holds.isLive_of_mem {document : Document} {forest : List Outline}
    (holds : document.Holds forest) {id : NodeId} (member : id ∈ idsAll forest) :
    document.isLive id = true := by
  rw [← Outline.map_id_linksAll none, List.mem_map] at member
  obtain ⟨link, listed, rfl⟩ := member
  exact (holds.has link listed).live

structure HoldsIn (document : Document) (context : Context) (outlines : List Outline) :
    Prop where
  nodup : (context.ids ++ idsAll outlines).Nodup
  frame : ∀ link ∈ context.frame, document.Has link
  rim : ∀ link ∈ context.rim (outlines.map Outline.id), document.Has link
  filling : ∀ link ∈ linksAll context.parent? outlines, document.Has link
  mem_of_isLive : ∀ id, document.isLive id = true → id ∈ context.ids ∨ id ∈ idsAll outlines
  bare : ∀ id, document.isLive id = false → document.children id = []

theorem idsAll_fill (context : Context) (outlines : List Outline) :
    (idsAll (context.fill outlines)).Perm (context.ids ++ idsAll outlines) := by
  have perm := (context.linksAll_fill outlines).map Link.id
  rw [Outline.map_id_linksAll, List.map_append, Outline.map_id_linksAll, List.map_append,
    context.map_id_rim _ [], ← List.map_append] at perm
  exact perm

theorem holds_fill_iff {document : Document} {context : Context} {outlines : List Outline} :
    document.Holds (context.fill outlines) ↔ document.HoldsIn context outlines := by
  have idPerm := idsAll_fill context outlines
  have linkPerm := context.linksAll_fill outlines
  constructor
  · intro holds
    have has : ∀ link ∈ context.frame ++ context.rim (outlines.map Outline.id) ++
        linksAll context.parent? outlines, document.Has link :=
      fun link member => holds.has link (linkPerm.mem_iff.mpr member)
    exact {
      nodup := idPerm.nodup_iff.mp holds.nodup
      frame := fun link member => has link (by simp [member])
      rim := fun link member => has link (by simp [member])
      filling := fun link member => has link (by simp [member])
      mem_of_isLive := fun id live =>
        List.mem_append.mp (idPerm.mem_iff.mp (holds.mem_of_isLive id live))
      bare := holds.bare }
  · intro holds
    refine ⟨idPerm.nodup_iff.mpr holds.nodup, ?_, ?_, holds.bare⟩
    · intro link member
      rcases List.mem_append.mp (linkPerm.mem_iff.mp member) with outside | inside
      · rcases List.mem_append.mp outside with framed | rimmed
        · exact holds.frame link framed
        · exact holds.rim link rimmed
      · exact holds.filling link inside
    · intro id live
      exact idPerm.mem_iff.mpr (List.mem_append.mpr (holds.mem_of_isLive id live))

theorem exists_context {forest : List Outline} {id : NodeId} (member : id ∈ idsAll forest) :
    ∃ (context : Context) (outline : Outline), outline.id = id ∧ forest = context.fill [outline] := by
  suffices ∀ (outline : Outline) (context : Context), id ∈ outline.ids →
      ∃ (inner : Context) (found : Outline), found.id = id ∧
        context.fill [outline] = inner.fill [found] by
    obtain ⟨outline, listed, below⟩ := Outline.mem_idsAll.mp member
    obtain ⟨before, after, rfl⟩ := List.append_of_mem listed
    obtain ⟨inner, found, same, filled⟩ := this outline (.top before after) below
    exact ⟨inner, found, same, by rw [← filled]; simp [Context.fill]⟩
  intro outline
  induction outline using Outline.induction with
  | node top children ih =>
      intro context below
      by_cases here : id = top
      · exact ⟨context, .node top children, here.symm, rfl⟩
      · simp only [Outline.ids, List.mem_cons, here, false_or] at below
        obtain ⟨child, listed, inside⟩ := Outline.mem_idsAll.mp below
        obtain ⟨before, after, rfl⟩ := List.append_of_mem listed
        obtain ⟨inner, found, same, filled⟩ :=
          ih child listed (.under context before after top) inside
        exact ⟨inner, found, same, by rw [← filled]; simp [Context.fill]⟩

section Looking

variable {document : Document} {context : Context} {outline : Outline}

theorem HoldsIn.isLive_of_mem_ids {outlines : List Outline}
    (holds : document.HoldsIn context outlines) {id : NodeId} (member : id ∈ context.ids) :
    document.isLive id = true :=
  (holds_fill_iff.mpr holds).isLive_of_mem
    ((idsAll_fill context outlines).mem_iff.mpr (List.mem_append_left _ member))

theorem HoldsIn.isLive_of_mem_idsAll {outlines : List Outline}
    (holds : document.HoldsIn context outlines) {id : NodeId} (member : id ∈ idsAll outlines) :
    document.isLive id = true :=
  (holds_fill_iff.mpr holds).isLive_of_mem
    ((idsAll_fill context outlines).mem_iff.mpr (List.mem_append_right _ member))

theorem HoldsIn.top (holds : document.HoldsIn context [outline]) :
    document.Has ⟨outline.id, context.parent?, outline.children.map Outline.id⟩ := by
  apply holds.filling
  cases outline
  simp [Outline.linksAll, Outline.links]

theorem HoldsIn.links (holds : document.HoldsIn context [outline]) :
    ∀ link ∈ outline.links context.parent?, document.Has link :=
  fun link member => holds.filling link (by simpa [Outline.linksAll] using member)

theorem HoldsIn.nodup_context {outlines : List Outline} (holds : document.HoldsIn context outlines) :
    context.ids.Nodup :=
  (List.nodup_append.mp holds.nodup).1

theorem HoldsIn.nodup_ids (holds : document.HoldsIn context [outline]) : outline.ids.Nodup := by
  have nodup := (List.nodup_append.mp holds.nodup).2.1
  rwa [idsAll, idsAll, List.append_nil] at nodup

theorem HoldsIn.not_mem_idsAll {outlines : List Outline} (holds : document.HoldsIn context outlines)
    {id : NodeId} (around : id ∈ context.ids) : id ∉ idsAll outlines :=
  fun inside => (List.nodup_append.mp holds.nodup).2.2 id around id inside rfl

theorem HoldsIn.not_mem_ids (holds : document.HoldsIn context [outline]) {id : NodeId}
    (around : id ∈ context.ids) : id ∉ outline.ids := by
  have outside := holds.not_mem_idsAll around
  rwa [idsAll, idsAll, List.append_nil] at outside

theorem HoldsIn.ne_top (holds : document.HoldsIn context [outline]) {id : NodeId}
    (around : id ∈ context.ids) : id ≠ outline.id :=
  fun same => holds.not_mem_ids around (same ▸ outline.id_mem_ids)

theorem Holds.length_le_size {forest : List Outline} (holds : document.Holds forest) :
    (idsAll forest).length ≤ document.size := by
  have subset : idsAll forest ⊆ List.range document.size := by
    intro id member
    exact List.mem_range.mpr (lt_size_of_isLive (holds.isLive_of_mem member))
  simpa using holds.nodup.length_le_of_subset subset

theorem HoldsIn.length_le_size {outlines : List Outline}
    (holds : document.HoldsIn context outlines) :
    context.ids.length + (idsAll outlines).length ≤ document.size := by
  have bound := (holds_fill_iff.mpr holds).length_le_size
  rw [(idsAll_fill context outlines).length_eq, List.length_append] at bound
  exact bound

theorem HoldsIn.height_le_size (holds : document.HoldsIn context [outline]) :
    outline.height ≤ document.size := by
  have length := holds.length_le_size
  have height := outline.height_le_length_ids
  simp only [Outline.idsAll, List.append_nil] at length
  omega

theorem depth_le_length_ids (context : Context) : context.depth ≤ context.ids.length := by
  induction context with
  | top before after => simp [Context.depth]
  | under outer before after id ih =>
      simp only [Context.ids, List.length_map, List.length_append] at ih
      have rimmed : (outer.rim [id]).length = (outer.rim []).length := by
        have := congrArg List.length (outer.map_id_rim [id] [])
        simpa using this
      simp only [Context.depth, Context.ids, Context.frame, Context.rim_under, List.length_map,
        List.length_append, List.length_cons, List.length_nil]
      omega

theorem top_mem_links (outline : Outline) (parent : Option NodeId) :
    ⟨outline.id, parent, outline.children.map Outline.id⟩ ∈ outline.links parent := by
  cases outline
  simp [Outline.links]

/-- A tree hangs elsewhere when its top does and the nodes below keep their links. -/
theorem has_links_of_top {second : Document} {old new : Option NodeId} (nodup : outline.ids.Nodup)
    (has : ∀ link ∈ outline.links old, document.Has link)
    (top : second.Has ⟨outline.id, new, outline.children.map Outline.id⟩)
    (kept : ∀ link : Link, link.id ∈ outline.ids → link.id ≠ outline.id → document.Has link →
      second.Has link) :
    ∀ link ∈ outline.links new, second.Has link := by
  cases outline with
  | node id children =>
      intro link member
      rw [Outline.links, List.mem_cons] at member
      rcases member with rfl | below
      · exact top
      · have listed : link.id ∈ idsAll children := by
          rw [← Outline.map_id_linksAll (some id)]
          exact List.mem_map_of_mem below
        rw [Outline.ids, List.nodup_cons] at nodup
        refine kept link (List.mem_cons_of_mem _ listed) (fun same => ?_)
          (has link (List.mem_cons_of_mem _ below))
        rw [same] at listed
        exact nodup.1 listed

theorem has_of_child {id : NodeId} {children : List Outline} {parent : Option NodeId}
    (has : ∀ link ∈ (Outline.node id children).links parent, document.Has link)
    {child : Outline} (member : child ∈ children) :
    ∀ link ∈ child.links (some id), document.Has link := by
  intro link inside
  apply has link
  simp only [Outline.links, List.mem_cons, Outline.linksAll_eq, List.mem_flatMap]
  exact .inr ⟨child, member, inside⟩

theorem heightAll_children_lt_height (outline : Outline) :
    Outline.heightAll outline.children < outline.height := by
  cases outline
  simp [Outline.height]

theorem shallow_of_child {id : NodeId} {children : List Outline} {depth : Nat}
    (deep : Outline.heightAll (Outline.node id children).children ≤ depth + 1)
    {child : Outline} (member : child ∈ children) :
    Outline.heightAll child.children ≤ depth := by
  have bound := Outline.height_le_of_mem member
  have smaller := heightAll_children_lt_height child
  simp only [Outline.children_node] at deep
  omega

theorem linkedTo_eq {parent : Option NodeId} {depth : Nat}
    (has : ∀ link ∈ outline.links parent, document.Has link)
    (deep : Outline.heightAll outline.children ≤ depth) :
    document.linkedTo depth outline.id = outline.ids := by
  induction outline using Outline.induction generalizing parent depth with
  | node id children ih =>
      have top := has ⟨id, parent, children.map Outline.id⟩ (by simp [Outline.links])
      cases depth with
      | zero =>
          cases children with
          | nil => simp [linkedTo, Outline.ids, Outline.idsAll]
          | cons child rest =>
              cases child
              simp [Outline.heightAll, Outline.height] at deep
      | succ depth =>
          simp only [linkedTo, Outline.id_node, top.children, Outline.ids, Outline.idsAll_eq,
            List.flatMap_map]
          congr 1
          apply List.flatMap_congr
          intro child member
          exact ih child member (has_of_child has member) (shallow_of_child deep member)

theorem descendantsTo_eq {parent : Option NodeId} {depth : Nat}
    (has : ∀ link ∈ outline.links parent, document.Has link)
    (deep : Outline.heightAll outline.children ≤ depth) :
    document.descendantsTo depth outline.id = idsAll outline.children := by
  induction outline using Outline.induction generalizing parent depth with
  | node id children ih =>
      have top := has ⟨id, parent, children.map Outline.id⟩ (by simp [Outline.links])
      cases depth with
      | zero =>
          cases children with
          | nil => simp [descendantsTo, Outline.idsAll]
          | cons child rest =>
              cases child
              simp [Outline.heightAll, Outline.height] at deep
      | succ depth =>
          simp only [descendantsTo, Outline.id_node, top.children, Outline.children_node,
            Outline.idsAll_eq, List.flatMap_map]
          apply List.flatMap_congr
          intro child member
          have below := has_of_child has member
          have live := (below _ (top_mem_links child (some id))).live
          rw [live, if_pos rfl, ih child member below (shallow_of_child deep member),
            ← Outline.node_eta child]
          rfl

theorem treeTo_eq {shown : NodeId → Bool} (shows : ∀ id, document.isLive id = true → shown id = true)
    {parent : Option NodeId} {depth : Nat}
    (has : ∀ link ∈ outline.links parent, document.Has link)
    (deep : Outline.heightAll outline.children ≤ depth) :
    document.treeTo shown depth outline.id = outline.toTree document := by
  induction outline using Outline.induction generalizing parent depth with
  | node id children ih =>
      have top := has ⟨id, parent, children.map Outline.id⟩ (by simp [Outline.links])
      cases depth with
      | zero =>
          cases children with
          | nil => simp [treeTo, Outline.toTree, Outline.toTrees]
          | cons child rest =>
              cases child
              simp [Outline.heightAll, Outline.height] at deep
      | succ depth =>
          have kept : (children.map Outline.id).filter shown = children.map Outline.id := by
            rw [List.filter_eq_self]
            intro id member
            obtain ⟨child, listed, rfl⟩ := List.mem_map.mp member
            exact shows _ (has_of_child has listed _ (top_mem_links child _)).live
          simp only [treeTo, Outline.id_node, top.children, kept, List.map_map, Outline.toTree,
            Outline.toTrees_eq]
          congr 1
          apply List.map_congr_left
          intro child member
          exact ih child member (has_of_child has member) (shallow_of_child deep member)

theorem Holds.linkedTo (holds : document.Holds (context.fill [outline])) :
    document.linkedTo document.size outline.id = outline.ids := by
  have inside := holds_fill_iff.mp holds
  have height := inside.height_le_size
  have smaller := heightAll_children_lt_height outline
  exact linkedTo_eq inside.links (by omega)

theorem Holds.descendants (holds : document.Holds (context.fill [outline])) :
    document.descendants outline.id = idsAll outline.children := by
  have inside := holds_fill_iff.mp holds
  have height := inside.height_le_size
  have smaller := heightAll_children_lt_height outline
  exact descendantsTo_eq inside.links (by omega)

theorem Holds.liveTree (holds : document.Holds (context.fill [outline])) :
    document.liveTree outline.id = outline.toTree document := by
  have inside := holds_fill_iff.mp holds
  have height := inside.height_le_size
  have smaller := heightAll_children_lt_height outline
  exact treeTo_eq (fun _ live => live) inside.links (by omega)

theorem Holds.linkedTree (holds : document.Holds (context.fill [outline])) :
    document.linkedTree outline.id = outline.toTree document := by
  have inside := holds_fill_iff.mp holds
  have height := inside.height_le_size
  have smaller := heightAll_children_lt_height outline
  exact treeTo_eq (fun _ _ => rfl) inside.links (by omega)

end Looking

end Document

namespace Context

/-- The nearest node above the hole that has one of the tags. -/
def closest? (document : Document) (tags : List String) : Context → Option NodeId
  | top _ _ => none
  | under outer _ _ id =>
    if document.isAny tags id then some id else outer.closest? document tags

end Context

namespace Document

theorem isAny_singleton {document : Document} {tag : String} {id : NodeId} :
    document.isAny [tag] id = true ↔ document.tag id = tag := by
  simp [isAny]

/-- What holds of the node that is found, and of every node without the tags that it holds above, holds
of the node where the search starts. -/
theorem closest?_induction {document : Document} {tags : List String} {id found : NodeId}
    {motive : NodeId → Prop} (here : document.isAny tags found = true → motive found)
    (above : ∀ id parent, ¬ document.isAny tags id = true → document.parent? id = some parent →
      motive parent → motive id)
    (closest : document.closest? id tags = some found) : motive id := by
  rw [closest?] at closest
  generalize document.size + 1 = depth at closest
  induction depth generalizing id with
  | zero => simp [closestTo?] at closest
  | succ depth ih =>
      rw [closestTo?] at closest
      split at closest
      · rename_i tagged
        cases closest
        exact here tagged
      · rename_i other
        obtain ⟨parent, stands, further⟩ := Option.bind_eq_some_iff.mp closest
        exact above id parent other stands (ih further)

theorem closestTo?_eq {document : Document} {context : Context} {outline : Outline}
    (holds : document.Holds (context.fill [outline])) (tags : List String) {depth : Nat}
    (deep : context.depth < depth) :
    document.closestTo? tags depth outline.id =
      if document.isAny tags outline.id then some outline.id
      else context.closest? document tags := by
  induction context generalizing outline depth with
  | top before after =>
      have parent := (holds_fill_iff.mp holds).top.parent
      cases depth with
      | zero => simp at deep
      | succ depth =>
          simp only [Context.parent?] at parent
          simp [closestTo?, parent, Context.closest?]
  | under outer before after id ih =>
      have parent := (holds_fill_iff.mp holds).top.parent
      cases depth with
      | zero => simp at deep
      | succ depth =>
          simp only [Context.parent?] at parent
          have outerHolds : document.Holds (outer.fill [.node id (before ++ [outline] ++ after)]) :=
            holds
          have above := ih outerHolds (show outer.depth < depth by
            simp only [Context.depth] at deep
            omega)
          simp only [Outline.id_node] at above
          simp only [closestTo?, parent, Option.bind_some, above, Context.closest?]
          rfl

theorem Holds.closest? {document : Document} {context : Context} {outline : Outline}
    (holds : document.Holds (context.fill [outline])) (tags : List String) :
    document.closest? outline.id tags =
      if document.isAny tags outline.id then some outline.id
      else context.closest? document tags := by
  apply closestTo?_eq holds
  have length := (holds_fill_iff.mp holds).length_le_size
  have depth := depth_le_length_ids context
  omega

theorem Holds.perm {document : Document} {first second : List Outline}
    (holds : document.Holds first) (perm : first.Perm second) : document.Holds second where
  nodup := by
    rw [Outline.idsAll_eq]
    exact (perm.flatMap_right Outline.ids).nodup_iff.mp (Outline.idsAll_eq first ▸ holds.nodup)
  has := by
    intro link member
    apply holds.has link
    rw [Outline.linksAll_eq] at member ⊢
    exact (perm.flatMap_right (Outline.links none)).mem_iff.mpr member
  mem_of_isLive := by
    intro id live
    have member := holds.mem_of_isLive id live
    rw [Outline.idsAll_eq] at member ⊢
    exact (perm.flatMap_right Outline.ids).mem_iff.mp member
  bare := holds.bare

theorem Holds.isLive_of_child {document : Document} {forest : List Outline}
    (holds : document.Holds forest) {id child : NodeId} (listed : child ∈ document.children id) :
    document.isLive child = true := by
  by_cases live : document.isLive id = true
  · obtain ⟨context, outline, rfl, rfl⟩ := exists_context (holds.mem_of_isLive id live)
    have inside := holds_fill_iff.mp holds
    have top := inside.top.children
    simp only at top
    rw [top] at listed
    obtain ⟨inner, below, rfl⟩ := List.mem_map.mp listed
    apply inside.isLive_of_mem_idsAll
    cases outline with
    | node id children =>
        simp only [Outline.idsAll, Outline.ids, List.append_nil, List.mem_cons]
        exact .inr (Outline.mem_idsAll.mpr ⟨inner, below, inner.id_mem_ids⟩)
  · rw [holds.bare id (by simpa using live)] at listed
    simp at listed

end Document

end WordTemplate.Markup
