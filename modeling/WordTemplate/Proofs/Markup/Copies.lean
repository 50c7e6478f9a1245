import WordTemplate.Proofs.Markup.Places
import WordTemplate.Proofs.Markup.Removal

/-! Copies of subtrees, slot by slot. A copy has the outline of what was copied with other slots in the place
of the old ones; where nodes are removed, their outlines are cut off. -/

namespace WordTemplate.Markup

open Outline (idsAll linksAll toTrees)

namespace Outline

mutual

def rename (twin : NodeId → NodeId) : Outline → Outline
  | node id children => node (twin id) (renameAll twin children)

def renameAll (twin : NodeId → NodeId) : List Outline → List Outline
  | [] => []
  | outline :: rest => outline.rename twin :: renameAll twin rest

end

mutual

def prune (gone : List NodeId) : Outline → Outline
  | node id children => node id (pruneAll gone children)

def pruneAll (gone : List NodeId) : List Outline → List Outline
  | [] => []
  | outline :: rest =>
    if outline.id ∈ gone then pruneAll gone rest else outline.prune gone :: pruneAll gone rest

end

section Rename

variable {twin : NodeId → NodeId}

theorem renameAll_eq (twin : NodeId → NodeId) (outlines : List Outline) :
    renameAll twin outlines = outlines.map (rename twin) := by
  induction outlines with
  | nil => rfl
  | cons outline rest ih => simp [renameAll, ih]

@[simp]
theorem id_rename (outline : Outline) : (outline.rename twin).id = twin outline.id := by
  cases outline
  rfl

@[simp]
theorem children_rename (outline : Outline) :
    (outline.rename twin).children = renameAll twin outline.children := by
  cases outline
  rfl

mutual

theorem ids_rename (outline : Outline) : (outline.rename twin).ids = outline.ids.map twin := by
  cases outline with
  | node id children => rw [rename, ids, ids, List.map_cons, idsAll_renameAll children]

theorem idsAll_renameAll (outlines : List Outline) :
    idsAll (renameAll twin outlines) = (idsAll outlines).map twin := by
  cases outlines with
  | nil => rfl
  | cons outline rest =>
      rw [renameAll, idsAll, idsAll, List.map_append, ids_rename outline, idsAll_renameAll rest]

end

variable {first second : Document}

theorem length_ids_eq {outline copy : Outline} (same : outline.toTree first = copy.toTree second) :
    copy.ids.length = outline.ids.length := by
  have elements := congrArg (fun tree : Tree => tree.elements.length) same
  simpa [Document.elements_toTree] using elements.symm

mutual

theorem eq_rename {outline copy : Outline} (same : outline.toTree first = copy.toTree second)
    (ids : copy.ids = outline.ids.map twin) : copy = outline.rename twin := by
  cases outline with
  | node id children =>
      cases copy with
      | node other others =>
          rw [toTree, toTree] at same
          rw [Outline.ids, Outline.ids, List.map_cons, List.cons.injEq] at ids
          rw [rename, ids.1, eq_renameAll (Tree.node.inj same).2 ids.2]

theorem eq_renameAll {outlines copies : List Outline} (same : toTrees first outlines = toTrees second copies)
    (ids : idsAll copies = (idsAll outlines).map twin) : copies = renameAll twin outlines := by
  cases outlines with
  | nil =>
      cases copies with
      | nil => rfl
      | cons copy rest => simp [toTrees] at same
  | cons outline rest =>
      cases copies with
      | nil => simp [toTrees] at same
      | cons copy others =>
          rw [toTrees, toTrees, List.cons.injEq] at same
          rw [idsAll, idsAll, List.map_append] at ids
          obtain ⟨top, behind⟩ := List.append_inj ids (by rw [length_ids_eq same.1, List.length_map])
          rw [renameAll, eq_rename same.1 top, eq_renameAll same.2 behind]

end

theorem exists_eq_map {ids others : List NodeId} (nodup : ids.Nodup) (length : others.length = ids.length) :
    ∃ twin : NodeId → NodeId, others = ids.map twin := by
  refine ⟨fun id => others.getD (ids.idxOf id) 0, List.ext_getElem (by simpa using length) ?_⟩
  intro index bound bound'
  rw [List.length_map] at bound'
  simp [nodup.idxOf_getElem index bound', bound]

theorem exists_rename {outline copy : Outline} (same : outline.toTree first = copy.toTree second)
    (nodup : outline.ids.Nodup) : ∃ twin : NodeId → NodeId, copy = outline.rename twin := by
  obtain ⟨twin, ids⟩ := exists_eq_map nodup (length_ids_eq same)
  exact ⟨twin, eq_rename same ids⟩

end Rename

section Prune

variable {first second : Document} {gone : List NodeId}

@[simp]
theorem id_prune (outline : Outline) : (outline.prune gone).id = outline.id := by
  cases outline
  rfl

theorem pruneAll_append (front back : List Outline) :
    pruneAll gone (front ++ back) = pruneAll gone front ++ pruneAll gone back := by
  induction front with
  | nil => rfl
  | cons outline rest ih =>
      rw [List.cons_append, pruneAll, pruneAll, ih]
      split <;> simp

theorem map_id_pruneAll (outlines : List Outline) :
    (pruneAll gone outlines).map id = (outlines.map id).filter (· ∉ gone) := by
  induction outlines with
  | nil => rfl
  | cons outline rest ih =>
      rw [pruneAll]
      by_cases lost : outline.id ∈ gone
      · rw [if_pos lost, ih, List.map_cons, List.filter_cons_of_neg (by simpa using lost)]
      · rw [if_neg lost, List.map_cons, ih, id_prune, List.map_cons,
          List.filter_cons_of_pos (by simpa using lost)]

theorem mem_pruneAll {outlines : List Outline} {outline : Outline} (listed : outline ∈ outlines)
    (kept : outline.id ∉ gone) : outline.prune gone ∈ pruneAll gone outlines := by
  induction outlines with
  | nil => simp at listed
  | cons first rest ih =>
      rw [pruneAll]
      rcases List.mem_cons.mp listed with rfl | later
      · rw [if_neg kept]
        exact List.mem_cons_self ..
      · split
        · exact ih later
        · exact List.mem_cons_of_mem _ (ih later)

mutual

theorem ids_prune_subset (outline : Outline) : (outline.prune gone).ids ⊆ outline.ids := by
  cases outline with
  | node id children =>
      rw [prune, ids, ids]
      exact List.cons_subset_cons id (idsAll_pruneAll_subset children)

theorem idsAll_pruneAll_subset (outlines : List Outline) :
    idsAll (pruneAll gone outlines) ⊆ idsAll outlines := by
  cases outlines with
  | nil => exact List.Subset.refl _
  | cons outline rest =>
      have others := idsAll_pruneAll_subset rest
      rw [pruneAll, idsAll]
      split
      · exact List.subset_append_of_subset_right _ others
      · rw [idsAll]
        exact List.append_subset.mpr ⟨List.subset_append_of_subset_left _ (ids_prune_subset outline),
          List.subset_append_of_subset_right _ others⟩

end

theorem exists_of_mem_pruneAll {outlines : List Outline} {pruned : Outline}
    (member : pruned ∈ pruneAll gone outlines) : ∃ outline ∈ outlines, pruned = outline.prune gone := by
  induction outlines with
  | nil => simp [pruneAll] at member
  | cons first rest ih =>
      rw [pruneAll] at member
      split at member
      · obtain ⟨outline, listed, same⟩ := ih member
        exact ⟨outline, List.mem_cons_of_mem _ listed, same⟩
      · rcases List.mem_cons.mp member with same | later
        · exact ⟨first, List.mem_cons_self .., same⟩
        · obtain ⟨outline, listed, same⟩ := ih later
          exact ⟨outline, List.mem_cons_of_mem _ listed, same⟩

mutual

theorem prune_of_disjoint {outline : Outline} (apart : ∀ id ∈ outline.ids, id ∉ gone) :
    outline.prune gone = outline := by
  cases outline with
  | node id children =>
      rw [ids, List.forall_mem_cons] at apart
      rw [prune, pruneAll_of_disjoint apart.2]

theorem pruneAll_of_disjoint {outlines : List Outline} (apart : ∀ id ∈ idsAll outlines, id ∉ gone) :
    pruneAll gone outlines = outlines := by
  cases outlines with
  | nil => rfl
  | cons outline rest =>
      rw [idsAll, List.forall_mem_append] at apart
      rw [pruneAll, if_neg (apart.1 outline.id outline.id_mem_ids), prune_of_disjoint apart.1,
        pruneAll_of_disjoint apart.2]

end

theorem mem_gone_of_mem_ids {outline : Outline} {parent : Option NodeId}
    (has : ∀ link ∈ outline.links parent, first.Has link)
    (below : ∀ id ∈ gone, ∀ child ∈ first.children id, child ∈ gone) (lost : outline.id ∈ gone) :
    ∀ id ∈ outline.ids, id ∈ gone := by
  induction outline using Outline.induction generalizing parent with
  | node top children ih =>
      rw [ids, List.forall_mem_cons]
      refine ⟨lost, fun id member => ?_⟩
      obtain ⟨child, listed, inside⟩ := mem_idsAll.mp member
      refine ih child listed (Document.has_of_child has listed) ?_ id inside
      have here := (has _ (Document.top_mem_links _ parent)).children
      exact below top lost child.id (here ▸ List.mem_map_of_mem listed)

mutual

theorem ids_prune (outline : Outline) {parent : Option NodeId}
    (has : ∀ link ∈ outline.links parent, first.Has link)
    (below : ∀ id ∈ gone, ∀ child ∈ first.children id, child ∈ gone) (kept : outline.id ∉ gone) :
    (outline.prune gone).ids = outline.ids.filter (· ∉ gone) := by
  cases outline with
  | node id children =>
      rw [links, List.forall_mem_cons] at has
      rw [prune, ids, ids, List.filter_cons_of_pos (by simpa using kept),
        idsAll_pruneAll children has.2 below]

theorem idsAll_pruneAll (outlines : List Outline) {parent : Option NodeId}
    (has : ∀ link ∈ linksAll parent outlines, first.Has link)
    (below : ∀ id ∈ gone, ∀ child ∈ first.children id, child ∈ gone) :
    idsAll (pruneAll gone outlines) = (idsAll outlines).filter (· ∉ gone) := by
  cases outlines with
  | nil => rfl
  | cons outline rest =>
      rw [linksAll, List.forall_mem_append] at has
      rw [pruneAll, idsAll, List.filter_append]
      split
      · rename_i lost
        have nothing : outline.ids.filter (· ∉ gone) = [] := by
          rw [List.filter_eq_nil_iff]
          intro id inside
          simpa using mem_gone_of_mem_ids has.1 below lost id inside
        rw [idsAll_pruneAll rest has.2 below, nothing, List.nil_append]
      · rename_i kept
        rw [idsAll, idsAll_pruneAll rest has.2 below, ids_prune outline has.1 below kept]

end

mutual

theorem has_prune (removes : Document.Removes gone first second) (outline : Outline) {parent : Option NodeId}
    (has : ∀ link ∈ outline.links parent, first.Has link) (kept : outline.id ∉ gone) :
    ∀ link ∈ (outline.prune gone).links parent, second.Has link := by
  cases outline with
  | node id children =>
      rw [links, List.forall_mem_cons] at has
      rw [prune, links, List.forall_mem_cons]
      refine ⟨⟨?_, ?_, ?_⟩, has_pruneAll removes children has.2⟩
      · exact (removes.live id kept).trans has.1.live
      · exact (removes.parent id kept).trans has.1.parent
      · rw [removes.children id kept, has.1.children, map_id_pruneAll]

theorem has_pruneAll (removes : Document.Removes gone first second) (outlines : List Outline)
    {parent : Option NodeId} (has : ∀ link ∈ linksAll parent outlines, first.Has link) :
    ∀ link ∈ linksAll parent (pruneAll gone outlines), second.Has link := by
  cases outlines with
  | nil => simp [pruneAll, linksAll]
  | cons outline rest =>
      rw [linksAll, List.forall_mem_append] at has
      rw [pruneAll]
      split
      · exact has_pruneAll removes rest has.2
      · rename_i kept
        rw [linksAll, List.forall_mem_append]
        exact ⟨has_prune removes outline has.1 kept, has_pruneAll removes rest has.2⟩

end

theorem children_of_prune {slot : NodeId → NodeId} {outline : Outline} {parent above : Option NodeId}
    (has : ∀ link ∈ outline.links parent, first.Has link)
    (copied : ∀ link ∈ ((outline.prune gone).rename slot).links above, second.Has link)
    (below : ∀ id ∈ gone, ∀ child ∈ first.children id, child ∈ gone) {id : NodeId} (member : id ∈ outline.ids)
    (kept : id ∉ gone) : second.children (slot id) = ((first.children id).filter (· ∉ gone)).map slot := by
  induction outline using Outline.induction generalizing parent above with
  | node top children ih =>
      rw [ids, List.mem_cons] at member
      rcases member with rfl | inside
      · have here := (has _ (Document.top_mem_links _ parent)).children
        have there := (copied _ (Document.top_mem_links _ above)).children
        simp only [id_node, children_node, id_rename, children_rename, prune] at here there
        rw [there, here, renameAll_eq, List.map_map, ← map_id_pruneAll, List.map_map]
        exact List.map_congr_left fun child _ => id_rename child
      · obtain ⟨child, listed, deeper⟩ := mem_idsAll.mp inside
        have hasChild := Document.has_of_child has listed
        have left : child.id ∉ gone := fun lost => kept (mem_gone_of_mem_ids hasChild below lost id deeper)
        refine ih child listed hasChild (Document.has_of_child copied ?_) deeper
        rw [renameAll_eq]
        exact List.mem_map_of_mem (mem_pruneAll listed left)

end Prune

end Outline

theorem Context.pruneAll_fill {gone : List NodeId} {context : Context}
    (apart : ∀ id ∈ context.ids, id ∉ gone) (outlines : List Outline) :
    Outline.pruneAll gone (context.fill outlines) = context.fill (Outline.pruneAll gone outlines) := by
  induction context generalizing outlines with
  | top before after =>
      simp only [mem_ids_top] at apart
      rw [fill, fill, Outline.pruneAll_append, Outline.pruneAll_append,
        Outline.pruneAll_of_disjoint fun id member => apart id (.inl member),
        Outline.pruneAll_of_disjoint fun id member => apart id (.inr member)]
  | under outer before after id ih =>
      simp only [mem_ids_under] at apart
      have inside : Outline.pruneAll gone (before ++ outlines ++ after) =
          before ++ Outline.pruneAll gone outlines ++ after := by
        rw [Outline.pruneAll_append, Outline.pruneAll_append,
          Outline.pruneAll_of_disjoint fun other member => apart other (.inr (.inr (.inl member))),
          Outline.pruneAll_of_disjoint fun other member => apart other (.inr (.inr (.inr member)))]
      rw [fill, fill, ih fun other member => apart other (.inl member), Outline.pruneAll,
        Outline.id_node, if_neg (apart id (by simp)), Outline.prune, inside]
      rfl

namespace Document

variable {first second : Document} {gone : List NodeId} {context : Context} {outline : Outline}

theorem Removes.holds (removes : Removes gone first second) (sound : second.Sound) {forest : List Outline}
    (holds : first.Holds forest) : second.Holds (Outline.pruneAll gone forest) := by
  have ids := Outline.idsAll_pruneAll forest holds.has removes.below
  refine ⟨?_, Outline.has_pruneAll removes forest holds.has, fun id live => ?_, fun id dead => ?_⟩
  · rw [ids]
    exact holds.nodup.filter _
  · have kept : id ∉ gone := fun lost => by
      rw [removes.dead id lost] at live
      exact absurd live (by decide)
    rw [ids, List.mem_filter]
    rw [removes.live id kept] at live
    exact ⟨holds.mem_of_isLive id live, by simpa using kept⟩
  · exact sound.wellFormed.bare dead

theorem links_children (holds : first.Holds (context.fill [outline])) :
    ∀ link ∈ linksAll (some outline.id) outline.children, first.Has link := by
  intro link member
  refine (holds_fill_iff.mp holds).links link ?_
  rw [← Outline.node_eta outline, Outline.links]
  exact List.mem_cons_of_mem _ member

theorem Removes.holds_fill (removes : Removes gone first second) (sound : second.Sound)
    (holds : first.Holds (context.fill [outline])) (inside : gone ⊆ first.descendants outline.id) :
    second.Holds (context.fill [outline.prune gone]) := by
  rw [holds.descendants] at inside
  obtain ⟨-, nodup, apart⟩ := List.nodup_append.mp (holds_fill_iff.mp holds).nodup
  rw [idsAll, idsAll, List.append_nil] at nodup apart
  rw [← Outline.node_eta outline, Outline.ids] at nodup apart
  have pruned := removes.holds sound holds
  rw [Context.pruneAll_fill, Outline.pruneAll, if_neg] at pruned
  · exact pruned
  · exact fun lost => (List.nodup_cons.mp nodup).1 (inside lost)
  · exact fun id member lost => apart id member id (List.mem_cons_of_mem _ (inside lost)) rfl

section Copies

variable {twin : NodeId → NodeId}

/-- The second document has a copy of a subtree of the first one, slot by slot. -/
structure Copies (twin : NodeId → NodeId) (outline : Outline) (first second : Document) : Prop where
  holds : ∃ context : Context, first.Holds (context.fill [outline])
  copied : ∃ context : Context, second.Holds (context.fill [outline.rename twin])
  tag : ∀ id ∈ outline.ids, second.tag (twin id) = first.tag id

theorem nodup_ids (holds : first.Holds (context.fill [outline])) : outline.ids.Nodup := by
  have nodup := (List.nodup_append.mp (holds_fill_iff.mp holds).nodup).2.1
  rwa [idsAll, idsAll, List.append_nil] at nodup

theorem exists_copies (holds : first.Holds (context.fill [outline])) {other : Context} {copy : Outline}
    (copied : second.Holds (other.fill [copy])) (same : outline.toTree first = copy.toTree second) :
    ∃ twin : NodeId → NodeId, copy = outline.rename twin ∧ Copies twin outline first second ∧
      ∀ id ∈ outline.ids, (second.node (twin id)).toElement = (first.node id).toElement := by
  obtain ⟨twin, rfl⟩ := Outline.exists_rename same (nodup_ids holds)
  have elements := congrArg Tree.elements same
  rw [elements_toTree, elements_toTree, Outline.ids_rename, List.map_map, List.map_inj_left] at elements
  refine ⟨twin, rfl, ⟨⟨context, holds⟩, ⟨other, copied⟩, fun id member => ?_⟩, fun id member => ?_⟩
  · exact congrArg Element.tag (elements id member).symm
  · exact (elements id member).symm

namespace Copies

variable (copies : Copies twin outline first second)
include copies

theorem injective {id other : NodeId} (member : id ∈ outline.ids) (also : other ∈ outline.ids)
    (same : twin id = twin other) : id = other := by
  obtain ⟨context, copied⟩ := copies.copied
  have nodup := nodup_ids copied
  rw [Outline.ids_rename] at nodup
  exact List.inj_on_of_nodup_map nodup member also same

theorem within {id : NodeId} (member : id ∈ outline.ids) :
    ∃ inner : Outline, inner.id = id ∧ inner.ids ⊆ outline.ids ∧ Copies twin inner first second := by
  induction outline using Outline.induction with
  | node top children ih =>
      rw [Outline.ids, List.mem_cons] at member
      rcases member with rfl | below
      · exact ⟨_, rfl, List.Subset.refl _, copies⟩
      · obtain ⟨child, listed, inside⟩ := Outline.mem_idsAll.mp below
        obtain ⟨front, back, rfl⟩ := List.append_of_mem listed
        have subset : child.ids ⊆ (Outline.node top (front ++ child :: back)).ids := by
          rw [Outline.ids, Outline.idsAll_append, idsAll]
          intro other inner
          simp [inner]
        obtain ⟨context, holds⟩ := copies.holds
        obtain ⟨other, copied⟩ := copies.copied
        have below : Copies twin child first second := by
          refine ⟨⟨.under context front back top, by simpa [Context.fill] using holds⟩,
            ⟨.under other (Outline.renameAll twin front) (Outline.renameAll twin back) (twin top), ?_⟩,
            fun id member => copies.tag id (subset member)⟩
          simpa [Context.fill, Outline.rename, Outline.renameAll_eq] using copied
        obtain ⟨inner, top, among, found⟩ := ih child listed below inside
        exact ⟨inner, top, List.Subset.trans among subset, found⟩

theorem children {id : NodeId} (member : id ∈ outline.ids) :
    second.children (twin id) = (first.children id).map twin := by
  obtain ⟨inner, rfl, -, ⟨context, holds⟩, ⟨other, copied⟩, -⟩ := copies.within member
  have here := (holds_fill_iff.mp holds).top.children
  have there := (holds_fill_iff.mp copied).top.children
  simp only [Outline.id_rename, Outline.children_rename] at here there
  rw [there, here, Outline.renameAll_eq, List.map_map, List.map_map]
  exact List.map_congr_left fun child _ => Outline.id_rename child

theorem descendants {id : NodeId} (member : id ∈ outline.ids) :
    second.descendants (twin id) = (first.descendants id).map twin := by
  obtain ⟨inner, rfl, -, ⟨context, holds⟩, ⟨other, copied⟩, -⟩ := copies.within member
  have there := copied.descendants
  rw [Outline.id_rename, Outline.children_rename, Outline.idsAll_renameAll] at there
  rw [there, holds.descendants]

theorem mem_descendants {id : NodeId} (member : id ∈ outline.ids) {other : NodeId}
    (below : other ∈ first.descendants id) : other ∈ outline.ids := by
  obtain ⟨inner, rfl, subset, ⟨context, holds⟩, -, -⟩ := copies.within member
  rw [holds.descendants] at below
  refine subset ?_
  rw [← Outline.node_eta inner]
  exact List.mem_cons_of_mem _ below

theorem mem_children {id : NodeId} (member : id ∈ outline.ids) {child : NodeId}
    (lists : first.Lists id child) : child ∈ outline.ids := by
  obtain ⟨inner, rfl, subset, ⟨context, holds⟩, -, -⟩ := copies.within member
  rw [Lists, (holds_fill_iff.mp holds).top.children] at lists
  refine subset ?_
  rw [← Outline.node_eta inner]
  exact List.mem_cons_of_mem _ ((Outline.sublist_idsAll _).subset lists)

theorem mem_map_iff {ids : List NodeId} (inside : ids ⊆ outline.ids) {id : NodeId}
    (member : id ∈ outline.ids) :
    twin id ∈ ids.map twin ↔ id ∈ ids := by
  refine ⟨fun mapped => ?_, List.mem_map_of_mem⟩
  obtain ⟨other, listed, same⟩ := List.mem_map.mp mapped
  exact copies.injective (inside listed) member same ▸ listed

theorem lists_iff {id child : NodeId} (member : id ∈ outline.ids) (also : child ∈ outline.ids) :
    second.Lists (twin id) (twin child) ↔ first.Lists id child := by
  rw [Lists, copies.children member,
    copies.mem_map_iff (fun _ lists => copies.mem_children member lists) also, Lists]

theorem mem_below_iff {id other : NodeId} (member : id ∈ outline.ids) (also : other ∈ outline.ids) :
    twin other ∈ twin id :: second.descendants (twin id) ↔ other ∈ id :: first.descendants id := by
  rw [copies.descendants member, ← List.map_cons, copies.mem_map_iff _ also]
  exact List.cons_subset.mpr ⟨member, fun _ below => copies.mem_descendants member below⟩

theorem follow? {id : NodeId} (member : id ∈ outline.ids) (path : List Nat) :
    second.follow? (twin id) path = (first.follow? id path).map twin := by
  induction path generalizing id with
  | nil => rfl
  | cons position path ih =>
      rw [Document.follow?, Document.follow?, copies.children member, List.getElem?_map]
      cases here : (first.children id)[position]? with
      | none => rfl
      | some child => exact ih (copies.mem_children member (List.mem_of_getElem? here))

end Copies

structure Grafted (twin : NodeId → NodeId) (outline : Outline) (document source : Document) : Prop where
  ids : outline.ids = outline.id :: source.descendants outline.id
  slots : outline.ids.map twin = List.range' document.size outline.ids.length
  size : (document.graft source outline.id).1.size = document.size + outline.ids.length
  linkedTree : (document.graft source outline.id).1.linkedTree document.size = source.linkedTree outline.id
  copies : Copies twin outline source (document.graft source outline.id).1
  element : ∀ id ∈ outline.ids,
    ((document.graft source outline.id).1.node (twin id)).toElement = (source.node id).toElement

theorem Grafted.twin_top {outline : Outline} {document source : Document}
    (grafted : Grafted twin outline document source) : twin outline.id = document.size := by
  have slots := grafted.slots
  rw [grafted.ids, List.map_cons, List.length_cons, List.range'_succ] at slots
  exact (List.cons.inj slots).1

theorem Stands.exists_grafted {document source : Document} (stands : document.Stands)
    (others : source.Stands) {top : NodeId} (live : source.isLive top = true) :
    ∃ (outline : Outline) (twin : NodeId → NodeId),
      outline.id = top ∧ Grafted twin outline document source := by
  obtain ⟨forest, held⟩ := stands
  obtain ⟨context, outline, rfl, holds⟩ := others.exists_context live
  have pushed := held.push true (outline.toTree source)
  have shows := toTree_of_laid (laid_push document ((outline.toTree source).layOut true none document.size))
  have size := size_push document ((outline.toTree source).layOut true none document.size)
  have grafted : (document.graft source outline.id).1 =
      (document.push ((outline.toTree source).layOut true none document.size)).1 := by
    rw [graft_of_isLive document live, holds.liveTree]
  rw [← grafted] at pushed shows size
  have copied : (document.graft source outline.id).1.Holds
      ((Context.top [] forest).fill [(outline.toTree source).outline document.size]) := pushed
  obtain ⟨twin, renamed, copies, elements⟩ := exists_copies holds copied shows.symm
  have slots := Tree.ids_outline document.size (outline.toTree source)
  rw [renamed, Outline.ids_rename] at slots
  have length := congrArg List.length slots
  rw [List.length_map, List.length_range'] at length
  have linked := copied.linkedTree
  rw [Tree.id_outline] at linked
  refine ⟨outline, twin, rfl, holds.ids_eq, by rw [slots, length], ?_, ?_, copies, elements⟩
  · rw [size, Tree.length_layOut, length]
  · rw [linked, shows, holds.linkedTree]

end Copies

end Document

end WordTemplate.Markup
