import WordTemplate.Proofs.Markup.Store

/-! Changes of the links of a store that holds a forest: taking a subtree out of a context, and
putting a detached tree behind a node. -/

namespace WordTemplate.Markup

open Outline (idsAll linksAll)

namespace Context

theorem frame_behind (context : Context) (outlines : List Outline) :
    (context.behind outlines).frame.Perm (linksAll none outlines ++ context.frame) := by
  induction context with
  | top before after => simp [behind, frame]
  | under outer before after id ih =>
      have rim : (outer.behind outlines).rim [id] = outer.rim [id] := by
        cases outer with
        | top _ _ => rfl
        | under outer _ _ _ => simp [behind, rim]
      simp only [behind, frame, rim, ← List.append_assoc]
      exact ((ih.append_right _).append_right _).append_right _

theorem rim_behind (context : Context) (outlines : List Outline) (filling : List NodeId) :
    (context.behind outlines).rim filling = context.rim filling := by
  cases context with
  | top _ _ => rfl
  | under outer _ _ _ => simp [behind, rim]

theorem ids_behind (context : Context) (outlines : List Outline) :
    (context.behind outlines).ids.Perm (idsAll outlines ++ context.ids) := by
  have perm := ((context.frame_behind outlines).append_right (context.rim [])).map Link.id
  have behind : (linksAll none outlines ++ (context.frame ++ context.rim [])).map Link.id =
      idsAll outlines ++ context.ids := by
    rw [List.map_append, Outline.map_id_linksAll, ids]
  rw [List.append_assoc, behind] at perm
  simpa only [ids, rim_behind] using perm

theorem mem_ids_of_beside {outer : Context} {before after : List Outline} {id : NodeId}
    {outline : Outline} (member : outline ∈ before ∨ outline ∈ after) :
    outline.id ∈ (under outer before after id).ids := by
  simp only [ids, frame, List.map_append, Outline.map_id_linksAll, List.mem_append,
    Outline.mem_idsAll]
  rcases member with front | back
  · exact .inl (.inr (.inl ⟨outline, front, outline.id_mem_ids⟩))
  · exact .inl (.inr (.inr ⟨outline, back, outline.id_mem_ids⟩))

theorem parent_mem_ids {context : Context} {parent : NodeId}
    (above : context.parent? = some parent) : parent ∈ context.ids := by
  cases context with
  | top _ _ => simp [parent?] at above
  | under outer before after id =>
      simp only [parent?, Option.some.injEq] at above
      simp [ids, rim, above]

theorem mem_ids_of_frame {context : Context} {link : Link} (member : link ∈ context.frame) :
    link.id ∈ context.ids :=
  List.mem_map.mpr ⟨link, List.mem_append_left _ member, rfl⟩

/-- Only the rim of a context is about the node that the hole is below. -/
theorem parent?_ne_of_frame {context : Context} (nodup : context.ids.Nodup) {link : Link}
    (member : link ∈ context.frame) : context.parent? ≠ some link.id := by
  intro above
  cases context with
  | top _ _ => simp [parent?] at above
  | under outer before after id =>
      simp only [parent?, Option.some.injEq] at above
      rw [ids, List.map_append] at nodup
      have disjoint := (List.nodup_append.mp nodup).2.2
      exact disjoint link.id (List.mem_map_of_mem member) id (by simp [rim]) above.symm

end Context

namespace Document

variable {document : Document} {context : Context} {outline : Outline}

theorem Holds.isLive_parent {document : Document} {forest : List Outline}
    (holds : document.Holds forest) {id parent : NodeId} (live : document.isLive id = true)
    (stands : document.parent? id = some parent) : document.isLive parent = true := by
  obtain ⟨context, outline, rfl, rfl⟩ := exists_context (holds.mem_of_isLive id live)
  have inside := holds_fill_iff.mp holds
  have top := inside.top.parent
  simp only at top
  rw [top] at stands
  exact inside.isLive_of_mem_ids (Context.parent_mem_ids stands)

theorem delete_of_dead {id : NodeId} (dead : document.isLive id = false) :
    document.delete id = document := by
  simp [delete, dead]

/-- What a slot becomes when the subtree of another one is deleted. -/
theorem node_delete (holds : document.Holds (context.fill [outline])) (id : NodeId) :
    (document.delete outline.id).node id =
      { toElement := (document.node id).toElement
        parent := if id = outline.id then none else document.parent? id
        children :=
          if id ∈ outline.ids then []
          else if context.parent? = some id then (document.children id).filter (· != outline.id)
          else document.children id
        isNew := (document.node id).isNew
        live := if id ∈ outline.ids then false else document.isLive id } := by
  have inside := holds_fill_iff.mp holds
  have live : document.isLive outline.id = true := inside.top.live
  have bound : ∀ inner ∈ outline.ids, inner < document.size := fun inner member =>
    lt_size_of_isLive (inside.isLive_of_mem_idsAll (by simpa [Outline.idsAll] using member))
  -- All slots of the subtree die first, which leaves the way up from its top.
  have doomed := node_foldl_modify (fun node => { node with live := false, children := [] })
    outline.ids document
  have parentId : document.parent? outline.id = context.parent? := inside.top.parent
  have parentOf : ((outline.ids.foldl (fun document id => document.modify id fun node =>
      { node with live := false, children := [] }) document).parent? outline.id) =
        context.parent? := by
    rw [parent?, doomed _ inside.nodup_ids]
    split
    · exact parentId
    · exact parentId
  simp only [delete, live, if_true, holds.linkedTo, detach, parentOf]
  cases above : context.parent? with
  | none =>
      rw [above] at parentId
      simp only [doomed _ inside.nodup_ids]
      by_cases member : id ∈ outline.ids
      · by_cases same : id = outline.id
        · subst same
          simp [member, bound _ member, parent?] at parentId ⊢
          exact parentId
        · simp [member, bound _ member, same, parent?]
      · have other : id ≠ outline.id := fun same => member (same ▸ outline.id_mem_ids)
        simp [member, other, parent?, children, isLive]
  | some parent =>
      -- The parent is not among those slots, and loses the top from its children.
      have around := Context.parent_mem_ids above
      have outside : parent ∉ outline.ids := inside.not_mem_ids around
      have parentBound := lt_size_of_isLive (inside.isLive_of_mem_ids around)
      simp only [node_modify, size_modify,
        size_foldl (fun document id => size_modify document id _), doomed _ inside.nodup_ids]
      by_cases member : id ∈ outline.ids
      · have other : id ≠ parent := fun same => outside (same ▸ member)
        by_cases same : id = outline.id
        · subst same
          simp [member, bound _ member, other]
        · simp [member, bound _ member, other, same, parent?]
      · have notTop : id ≠ outline.id := fun same => member (same ▸ outline.id_mem_ids)
        by_cases same : id = parent
        · subst same
          simp [member, notTop, parentBound, parent?, children, isLive]
        · simp [member, notTop, same, Ne.symm same, parent?, children, isLive]

theorem toElement_delete (holds : document.Holds (context.fill [outline])) (id : NodeId) :
    ((document.delete outline.id).node id).toElement = (document.node id).toElement := by
  rw [node_delete holds]

theorem isLive_delete (holds : document.Holds (context.fill [outline])) (id : NodeId) :
    (document.delete outline.id).isLive id =
      if id ∈ outline.ids then false else document.isLive id := by
  rw [isLive, node_delete holds]

theorem parent?_delete (holds : document.Holds (context.fill [outline])) (id : NodeId) :
    (document.delete outline.id).parent? id =
      if id = outline.id then none else document.parent? id := by
  rw [Document.parent?, node_delete holds]

theorem children_delete (holds : document.Holds (context.fill [outline])) (id : NodeId) :
    (document.delete outline.id).children id =
      if id ∈ outline.ids then []
      else if context.parent? = some id then (document.children id).filter (· != outline.id)
      else document.children id := by
  rw [Document.children, node_delete holds]

/-- Around the top of a subtree its parent lists the other siblings. -/
theorem HoldsIn.filter_siblings {outer : Context} {front back : List Outline} {id : NodeId}
    (inside : document.HoldsIn (Context.under outer front back id) [outline]) :
    (document.children id).filter (· != outline.id) =
      front.map Outline.id ++ back.map Outline.id := by
  have rim := inside.rim
    ⟨id, outer.parent?, front.map Outline.id ++ [outline.id] ++ back.map Outline.id⟩
    (by simp [Context.rim])
  have kept : ∀ siblings : List Outline, (∀ sibling ∈ siblings, sibling ∈ front ∨ sibling ∈ back) →
      (siblings.map Outline.id).filter (· != outline.id) = siblings.map Outline.id := by
    intro siblings beside
    rw [List.filter_eq_self]
    intro other listed
    obtain ⟨sibling, stands, rfl⟩ := List.mem_map.mp listed
    exact bne_iff_ne.mpr (inside.ne_top (Context.mem_ids_of_beside (beside sibling stands)))
  rw [rim.children]
  simp [kept front fun _ => .inl, kept back fun _ => .inr]

/-- Deleting the top of a subtree takes the subtree out of its context. -/
theorem Holds.delete (holds : document.Holds (context.fill [outline])) :
    (document.delete outline.id).Holds (context.fill []) := by
  have inside := holds_fill_iff.mp holds
  refine holds_fill_iff.mpr {
    nodup := by simpa [Outline.idsAll] using inside.nodup_context
    frame := fun link member => ?_
    rim := fun link member => ?_
    filling := by simp [Outline.linksAll]
    mem_of_isLive := fun id live => ?_
    bare := fun id dead => ?_ }
  · have around := Context.mem_ids_of_frame member
    have notParent := Context.parent?_ne_of_frame inside.nodup_context member
    have before := inside.frame link member
    refine ⟨?_, ?_, ?_⟩
    · rw [isLive_delete holds, if_neg (inside.not_mem_ids around), before.live]
    · rw [parent?_delete holds, if_neg (inside.ne_top around), before.parent]
    · rw [children_delete holds, if_neg (inside.not_mem_ids around), if_neg notParent,
        before.children]
  · cases context with
    | top _ _ => simp [Context.rim] at member
    | under outer front back id =>
        simp only [Context.rim, List.map_nil, List.mem_singleton] at member
        subst member
        have above : (Context.under outer front back id).parent? = some id := rfl
        have around := Context.parent_mem_ids above
        have before := inside.rim
          ⟨id, outer.parent?, front.map Outline.id ++ [outline.id] ++ back.map Outline.id⟩
          (by simp [Context.rim])
        refine ⟨?_, ?_, ?_⟩
        · rw [isLive_delete holds, if_neg (inside.not_mem_ids around), before.live]
        · rw [parent?_delete holds, if_neg (inside.ne_top around), before.parent]
        · rw [children_delete holds, if_neg (inside.not_mem_ids around), if_pos above,
            inside.filter_siblings, List.append_nil]
  · rw [isLive_delete holds] at live
    split at live
    · simp at live
    · rename_i notBelow
      refine .inl ((inside.mem_of_isLive id live).resolve_right fun below => notBelow ?_)
      rwa [Outline.idsAll, Outline.idsAll, List.append_nil] at below
  · rw [isLive_delete holds] at dead
    rw [children_delete holds]
    split
    · rfl
    · rename_i notBelow
      rw [if_neg notBelow] at dead
      rw [inside.bare id dead]
      simp

theorem insertIdx_length_append {α : Type} (front back : List α) (item : α) :
    (front ++ back).insertIdx front.length item = front ++ item :: back := by
  induction front with
  | nil => simp
  | cons first rest ih => simpa using ih

theorem idxOf?_append_cons {α : Type} [DecidableEq α] {before : List α} {here : α}
    (after : List α) (fresh : here ∉ before) :
    (before ++ here :: after).idxOf? here = some before.length := by
  induction before with
  | nil => simp [List.idxOf?_cons]
  | cons first rest ih =>
      have other : first ≠ here := fun same => fresh (by simp [same])
      simp [List.idxOf?_cons, other, ih (fun member => fresh (by simp [member]))]

/-- What a slot becomes when a detached tree is put behind a node that has a parent. -/
theorem node_insertAfter {outer : Context} {before after : List Outline} {parent : NodeId}
    {tree : Outline}
    (holds : document.Holds (tree :: (Context.under outer before after parent).fill [outline]))
    (id : NodeId) :
    (document.insertAfter outline.id tree.id).1.node id =
      { toElement := (document.node id).toElement
        parent := if id = tree.id then some parent else document.parent? id
        children :=
          if id = parent then
            before.map Outline.id ++ outline.id :: tree.id :: after.map Outline.id
          else document.children id
        isNew := (document.node id).isNew
        live := document.isLive id } := by
  have split : document.HoldsIn ((Context.under outer before after parent).behind [tree])
      [outline] := holds_fill_iff.mp (by rw [Context.fill_behind]; exact holds)
  have top := split.top
  have rim := split.rim
    ⟨parent, outer.parent?, before.map Outline.id ++ [outline.id] ++ after.map Outline.id⟩
    (by rw [Context.rim_behind]; simp [Context.rim])
  have treeTop : document.Has ⟨tree.id, none, tree.children.map Outline.id⟩ :=
    holds.has _ (List.mem_append_left _ (top_mem_links tree none))
  have fresh : outline.id ∉ before.map Outline.id := by
    intro listed
    obtain ⟨sibling, stands, same⟩ := List.mem_map.mp listed
    refine split.ne_top ?_ same
    rw [(Context.ids_behind _ _).mem_iff]
    exact List.mem_append_right _ (Context.mem_ids_of_beside (.inl stands))
  have notParent : tree.id ≠ parent := by
    intro same
    have ids := split.nodup_context
    rw [(Context.ids_behind _ _).nodup_iff] at ids
    refine (List.nodup_append.mp ids).2.2 tree.id ?_ parent (Context.parent_mem_ids rfl) same
    simp [Outline.idsAll, tree.id_mem_ids]
  have detached : document.detach tree.id = document := by
    have treeParent := treeTop.parent
    simp only at treeParent
    rw [detach, treeParent]
  have parentOf : document.parent? outline.id = some parent := top.parent
  have childrenOf : document.children parent =
      before.map Outline.id ++ outline.id :: after.map Outline.id := by
    simpa using rim.children
  have parentBound : parent < document.size := lt_size_of_isLive rim.live
  have treeBound : tree.id < document.size := lt_size_of_isLive treeTop.live
  have inserted := insertIdx_length_append (before.map Outline.id ++ [outline.id])
    (after.map Outline.id) tree.id
  simp only [insertAfter, insertBeside, detached, parentOf, childrenOf,
    idxOf?_append_cons _ fresh, node_modify, size_modify]
  simp only [children] at childrenOf
  by_cases isTree : id = tree.id
  · subst isTree
    simp [treeBound, notParent, children, isLive]
  · by_cases isParent : id = parent
    · subst isParent
      simp [isTree, parentBound, childrenOf, parent?, isLive]
      simpa using inserted
    · simp [isTree, isParent, parent?, children, isLive]

/-- The slots around a hole with a detached tree beside it, and those of the tree, are the slots of the
hole filled with the tree. -/
theorem ids_behind_perm (context : Context) (tree : Outline) :
    ((context.behind [tree]).ids ++ idsAll []).Perm (context.ids ++ idsAll [tree]) := by
  refine ((Context.ids_behind context [tree]).append_right _).trans ?_
  simp only [Outline.idsAll, List.append_nil]
  exact List.perm_append_comm

/-- A detached tree that is linked into the hole of a context fills it from then on. -/
theorem Holds.attach {second : Document} {outer : Context} {before after : List Outline}
    {parent : NodeId} {tree : Outline}
    (holds : document.Holds (tree :: (Context.under outer before after parent).fill []))
    (sameLive : ∀ id, second.isLive id = document.isLive id)
    (parentNow : ∀ id, second.parent? id =
      if id = tree.id then some parent else document.parent? id)
    (childrenNow : ∀ id, second.children id =
      if id = parent then before.map Outline.id ++ tree.id :: after.map Outline.id
      else document.children id) :
    second.Holds ((Context.under outer before after parent).fill [tree]) := by
  generalize same : Context.under outer before after parent = context at holds ⊢
  have above : context.parent? = some parent := by subst same; rfl
  have split : document.HoldsIn (context.behind [tree]) [] :=
    holds_fill_iff.mp (by rw [Context.fill_behind]; exact holds)
  have nodup := (ids_behind_perm context tree).nodup_iff.mp split.nodup
  obtain ⟨nodupAround, nodupTree, apart⟩ := List.nodup_append.mp nodup
  rw [idsAll, idsAll, List.append_nil] at nodupTree apart
  have around := Context.parent_mem_ids above
  have outside : ∀ id ∈ context.ids, id ≠ tree.id := fun id framed =>
    apart id framed tree.id tree.id_mem_ids
  have notParent : ∀ id ∈ tree.ids, id ≠ parent := fun id below same =>
    apart parent around id below same.symm
  -- Nothing but the top of the tree and the new parent is linked anew.
  have kept : ∀ link : Link, link.id ≠ tree.id → link.id ≠ parent → document.Has link →
      second.Has link := by
    intro link notTree notParent has
    refine ⟨(sameLive _).trans has.live, ?_, ?_⟩
    · rw [parentNow, if_neg notTree, has.parent]
    · rw [childrenNow, if_neg notParent, has.children]
  refine holds_fill_iff.mpr {
    nodup := nodup
    frame := fun link member => ?_
    rim := fun link member => ?_
    filling := ?_
    mem_of_isLive := fun id live => ?_
    bare := fun id dead => ?_ }
  · refine kept link (outside _ (Context.mem_ids_of_frame member)) (fun equal => ?_) ?_
    · exact Context.parent?_ne_of_frame nodupAround member (equal ▸ above)
    · exact split.frame link ((Context.frame_behind _ _).mem_iff.mpr (List.mem_append_right _ member))
  · have has := split.rim ⟨parent, outer.parent?, before.map Outline.id ++ after.map Outline.id⟩
      (by rw [Context.rim_behind, ← same]; simp [Context.rim])
    rw [← same] at member
    simp only [Context.rim, List.map_cons, List.map_nil, List.mem_singleton] at member
    subst member
    refine ⟨(sameLive _).trans has.live, ?_, ?_⟩
    · rw [parentNow, if_neg (outside _ around), has.parent]
    · rw [childrenNow, if_pos rfl]
      simp
  · have has : ∀ link ∈ tree.links none, document.Has link := fun link listed =>
      holds.has link (List.mem_append_left _ listed)
    rw [above, linksAll, linksAll, List.append_nil]
    refine has_links_of_top nodupTree has ?_ fun link below notTop =>
      kept link notTop (notParent _ below)
    have top := has _ (top_mem_links tree none)
    refine ⟨(sameLive _).trans top.live, by rw [parentNow, if_pos rfl], ?_⟩
    rw [childrenNow, if_neg (notParent _ tree.id_mem_ids), top.children]
  · have old := split.mem_of_isLive id (sameLive id ▸ live)
    exact List.mem_append.mp ((ids_behind_perm context tree).mem_iff.mp (List.mem_append.mpr old))
  · rw [sameLive] at dead
    rw [childrenNow, if_neg, split.bare id dead]
    rintro rfl
    have live : document.isLive id = true := split.isLive_of_mem_ids
      ((Context.ids_behind _ _).mem_iff.mpr (List.mem_append_right _ around))
    rw [dead] at live
    exact absurd live (by decide)

theorem Holds.insertAfter {outer : Context} {before after : List Outline} {parent : NodeId}
    {tree : Outline}
    (holds : document.Holds (tree :: (Context.under outer before after parent).fill [outline])) :
    (document.insertAfter outline.id tree.id).1.Holds
      ((Context.under outer before after parent).fill [outline, tree]) := by
  have nodeOf := node_insertAfter holds
  have opened : document.Holds
      (tree :: (Context.under outer (before ++ [outline]) after parent).fill []) := by
    simpa [Context.fill] using holds
  have filled : (document.insertAfter outline.id tree.id).1.Holds
      ((Context.under outer (before ++ [outline]) after parent).fill [tree]) := by
    refine opened.attach ?_ ?_ ?_
    · intro id
      rw [isLive, nodeOf]
    · intro id
      rw [Document.parent?, nodeOf]
    · intro id
      rw [Document.children, nodeOf]
      simp
  simpa [Context.fill] using filled

theorem toElement_insertAfter {outer : Context} {before after : List Outline} {parent : NodeId}
    {tree : Outline}
    (holds : document.Holds (tree :: (Context.under outer before after parent).fill [outline]))
    (id : NodeId) :
    ((document.insertAfter outline.id tree.id).1.node id).toElement =
      (document.node id).toElement := by
  rw [node_insertAfter holds]

end Document

end WordTemplate.Markup
