import WordTemplate.Proofs.Markup.Layout

/-! Moving nodes in a store that holds a forest: a subtree is taken out of its place and stands beside
the other trees, until it is put below a node or beside one. -/

namespace WordTemplate.Markup.Document

open Outline (idsAll linksAll)

section Detach

variable (document : Document) (id other : NodeId)

@[simp]
theorem size_detach : (document.detach id).size = document.size := by
  rw [detach]
  split
  · rfl
  · rw [size_modify, size_modify]

@[simp]
theorem isLive_detach : (document.detach id).isLive other = document.isLive other := by
  rw [detach]
  split
  · rfl
  · refine (isLive_modify _ _ _ ?_).trans (isLive_modify _ _ _ ?_)
    · exact fun node => rfl
    · exact fun node => rfl

@[simp]
theorem parent?_detach :
    (document.detach id).parent? other = if other = id then none else document.parent? other := by
  rw [detach]
  split
  · rename_i free
    split
    · rename_i same
      rw [same, free]
    · rfl
  · rename_i above stands
    have bound : id < document.size := by
      by_contra beyond
      rw [parent?, node_of_le_size (Nat.le_of_not_lt beyond)] at stands
      simp [Node.absent] at stands
    refine (parent?_modify _ _ _ fun node => ?_).trans ?_
    · rfl
    rw [parent?, node_modify]
    by_cases same : other = id
    · subst same
      simp [bound]
    · simp [same, parent?]

theorem children_detach :
    (document.detach id).children other =
      if document.parent? id = some other then (document.children other).filter (· != id)
      else document.children other := by
  rw [detach]
  split
  · rename_i free
    simp [free]
  · rename_i above stands
    rw [stands, children, node_modify, size_modify]
    by_cases here : other = above
    · subst here
      have kept : ((document.modify id fun node => { node with parent := none }).node other).children =
          (document.node other).children := children_modify document id other fun _ => rfl
      by_cases bound : other < document.size
      · simp [bound, kept, children]
      · simp [bound, kept, children, node_of_le_size (Nat.le_of_not_lt bound), Node.absent]
    · have elsewhere : some above ≠ some other := fun same => here (Option.some.inj same).symm
      simp only [here, false_and, if_false, if_neg elsewhere]
      exact children_modify document id other fun _ => rfl

end Detach

variable {document : Document} {context : Context} {outline : Outline}

theorem has_detach {id : NodeId} {link : Link} (has : document.Has link) (notTop : link.id ≠ id)
    (notAbove : document.parent? id ≠ some link.id) : (document.detach id).Has link := by
  refine ⟨(isLive_detach ..).trans has.live, ?_, ?_⟩
  · rw [parent?_detach, if_neg notTop, has.parent]
  · rw [children_detach, if_neg notAbove, has.children]

theorem Holds.links_detach (holds : document.Holds (context.fill [outline])) :
    ∀ link ∈ outline.links none, (document.detach outline.id).Has link := by
  have inside := holds_fill_iff.mp holds
  have stands : document.parent? outline.id = context.parent? := inside.top.parent
  have notAbove : ∀ id ∈ outline.ids, document.parent? outline.id ≠ some id := fun id below above =>
    inside.not_mem_ids (Context.parent_mem_ids (stands ▸ above)) below
  refine has_links_of_top inside.nodup_ids inside.links ?_ fun link below notTop has =>
    has_detach has notTop (notAbove _ below)
  refine ⟨(isLive_detach ..).trans inside.top.live, by simp, ?_⟩
  refine (children_detach document outline.id outline.id).trans ?_
  rw [if_neg (notAbove _ outline.id_mem_ids)]
  exact inside.top.children

theorem Holds.frame_detach (holds : document.Holds (context.fill [outline])) :
    ∀ link ∈ context.frame ++ context.rim [], (document.detach outline.id).Has link := by
  have inside := holds_fill_iff.mp holds
  have stands : document.parent? outline.id = context.parent? := inside.top.parent
  intro link member
  rcases List.mem_append.mp member with framed | rimmed
  · refine has_detach (inside.frame link framed)
      (inside.ne_top (Context.mem_ids_of_frame framed)) ?_
    rw [stands]
    exact Context.parent?_ne_of_frame inside.nodup_context framed
  · cases context with
    | top _ _ => simp [Context.rim] at rimmed
    | under outer front back id =>
        simp only [Context.rim, List.append_nil, List.mem_singleton] at rimmed
        subst rimmed
        have around : id ∈ (Context.under outer front back id).ids := Context.parent_mem_ids rfl
        have whole := inside.rim
          ⟨id, outer.parent?, front.map Outline.id ++ [outline.id] ++ back.map Outline.id⟩
          (by simp [Context.rim])
        refine ⟨(isLive_detach ..).trans whole.live, ?_, ?_⟩
        · rw [parent?_detach, if_neg (inside.ne_top around), whole.parent]
        · refine (children_detach document outline.id id).trans ?_
          have above : document.parent? outline.id = some id := stands
          rw [if_pos above, inside.filter_siblings]

theorem Holds.detach (holds : document.Holds (context.fill [outline])) :
    (document.detach outline.id).Holds (outline :: context.fill []) := by
  have inside := holds_fill_iff.mp holds
  have apart : (idsAll (outline :: context.fill [])).Perm (context.ids ++ idsAll [outline]) := by
    have perm := idsAll_fill context []
    simp only [idsAll, List.append_nil] at perm ⊢
    exact (perm.append_left _).trans List.perm_append_comm
  refine ⟨apart.nodup_iff.mpr inside.nodup, ?_, ?_, ?_⟩
  · intro link member
    rcases List.mem_append.mp member with own | other
    · exact holds.links_detach link own
    · have perm := context.linksAll_fill []
      simp only [List.map_nil, linksAll, List.append_nil] at perm
      exact holds.frame_detach link (perm.mem_iff.mp other)
  · intro id live
    rw [isLive_detach] at live
    exact apart.mem_iff.mpr (List.mem_append.mpr (inside.mem_of_isLive id live))
  · intro id dead
    rw [isLive_detach] at dead
    rw [children_detach]
    split
    · rw [inside.bare id dead]
      rfl
    · exact inside.bare id dead

theorem HoldsIn.siblings {outer : Context} {before after : List Outline} {parent : NodeId}
    (inside : document.HoldsIn (Context.under outer before after parent) [outline]) :
    document.children parent = before.map Outline.id ++ outline.id :: after.map Outline.id ∧
      outline.id ∉ before.map Outline.id := by
  have rim := inside.rim
    ⟨parent, outer.parent?, before.map Outline.id ++ [outline.id] ++ after.map Outline.id⟩
    (by simp [Context.rim])
  refine ⟨by simpa using rim.children, ?_⟩
  intro listed
  obtain ⟨sibling, front, same⟩ := List.mem_map.mp listed
  exact inside.ne_top (Context.mem_ids_of_beside (.inl front)) same

theorem Holds.exists_context_beside {tree : Outline} {rest : List Outline}
    (holds : document.Holds (tree :: rest)) {id : NodeId} (live : document.isLive id = true)
    (outside : id ∉ tree.ids) :
    ∃ (context : Context) (found : Outline), found.id = id ∧ rest = context.fill [found] := by
  have member := holds.mem_of_isLive id live
  rw [idsAll, List.mem_append] at member
  exact exists_context (member.resolve_left outside)

/-- Writes a node down as a child of another one, whose list of children becomes a new one. -/
def link (document : Document) (id parent : NodeId) (change : List NodeId → List NodeId) :
    Document :=
  (document.modify id fun node => { node with parent := some parent }).modify parent fun node =>
    { node with children := change node.children }

@[simp]
theorem size_link (document : Document) (id parent : NodeId) (change : List NodeId → List NodeId) :
    (document.link id parent change).size = document.size := by
  rw [link, size_modify, size_modify]

theorem isLive_link (document : Document) (id parent : NodeId) (change : List NodeId → List NodeId)
    (other : NodeId) : (document.link id parent change).isLive other = document.isLive other := by
  refine (isLive_modify _ _ _ ?_).trans (isLive_modify _ _ _ ?_)
  · exact fun node => rfl
  · exact fun node => rfl

theorem parent?_link_of_ne {id other : NodeId} (apart : other ≠ id) (parent : NodeId)
    (change : List NodeId → List NodeId) :
    (document.link id parent change).parent? other = document.parent? other := by
  refine (parent?_modify _ _ _ ?_).trans ?_
  · exact fun node => rfl
  · rw [parent?, node_modify, if_neg fun both => apart both.1, parent?]

theorem parent?_link {id : NodeId} (bound : id < document.size) (parent : NodeId)
    (change : List NodeId → List NodeId) (other : NodeId) :
    (document.link id parent change).parent? other =
      if other = id then some parent else document.parent? other := by
  by_cases same : other = id
  · subst same
    refine (parent?_modify _ _ _ ?_).trans ?_
    · exact fun node => rfl
    · rw [if_pos rfl, parent?, node_modify, if_pos ⟨rfl, bound⟩]
  · rw [if_neg same, parent?_link_of_ne same]

theorem children_link (id : NodeId) {parent : NodeId} (bound : parent < document.size)
    (change : List NodeId → List NodeId) (other : NodeId) :
    (document.link id parent change).children other =
      if other = parent then change (document.children parent) else document.children other := by
  have kept : ((document.modify id fun node => { node with parent := some parent }).node
      other).children = (document.node other).children :=
    children_modify document id other fun _ => rfl
  rw [link, children, node_modify, size_modify]
  by_cases same : other = parent
  · subst same
    simp [bound, kept, children]
  · simp [same, kept, children]

theorem Holds.link {outer : Context} {front back : List Outline} {parent : NodeId} {tree : Outline}
    (holds : document.Holds (tree :: (Context.under outer front back parent).fill []))
    (change : List NodeId → List NodeId)
    (between : change (front.map Outline.id ++ back.map Outline.id) =
      front.map Outline.id ++ tree.id :: back.map Outline.id) :
    (document.link tree.id parent change).Holds ((Context.under outer front back parent).fill [tree]) := by
  have inside : document.HoldsIn ((Context.under outer front back parent).behind [tree]) [] :=
    holds_fill_iff.mp (by rw [Context.fill_behind]; exact holds)
  have top : document.Has ⟨tree.id, none, tree.children.map Outline.id⟩ :=
    holds.has _ (List.mem_append_left _ (top_mem_links tree none))
  have rim := inside.rim ⟨parent, outer.parent?, front.map Outline.id ++ back.map Outline.id⟩
    (by rw [Context.rim_behind]; simp [Context.rim])
  have siblings : document.children parent = front.map Outline.id ++ back.map Outline.id :=
    rim.children
  refine holds.attach (isLive_link document tree.id parent change) ?_ ?_
  · exact parent?_link (lt_size_of_isLive top.live) parent change
  · intro id
    rw [children_link tree.id (lt_size_of_isLive rim.live), siblings, between]

theorem append_eq_link (document : Document) (parent child : NodeId) :
    document.append parent child = (document.detach child).link child parent (· ++ [child]) := rfl

theorem Holds.append (holds : document.Holds (context.fill [outline])) {parent : NodeId}
    (live : document.isLive parent = true) (outside : parent ∉ outline.ids) :
    ∃ forest, (document.append parent outline.id).Holds forest := by
  have detached := holds.detach
  obtain ⟨above, found, rfl, whole⟩ := detached.exists_context_beside
    ((isLive_detach ..).trans live) outside
  have beside : (document.detach outline.id).Holds
      (outline :: (Context.under above found.children [] found.id).fill []) := by
    rw [whole, ← Outline.node_eta found] at detached
    simpa [Context.fill] using detached
  rw [append_eq_link]
  exact ⟨_, beside.link (· ++ [outline.id]) (by simp)⟩

theorem modify_comm (document : Document) (first second : NodeId) {change other : Node → Node}
    (comm : ∀ node, change (other node) = other (change node)) :
    (document.modify first change).modify second other =
      (document.modify second other).modify first change := by
  have nodes : (document.nodes.modify first change).modify second other =
      (document.nodes.modify second other).modify first change := by
    apply Array.ext
    · simp
    · intro index _ _
      simp only [Array.getElem_modify]
      split <;> split <;> simp [comm]
  simp only [modify, nodes]

theorem insertBeside_of_idxOf? {offset anchor parent position : Nat} {id : NodeId}
    (stands : (document.detach id).parent? anchor = some parent)
    (place : ((document.detach id).children parent).idxOf? anchor = some position) :
    (document.insertBeside offset anchor id).1 =
      (document.detach id).link id parent (·.insertIdx (position + offset) id) := by
  rw [insertBeside, stands]
  simp only [place]
  exact modify_comm _ _ _ fun _ => rfl

theorem insertBeside_cases (document : Document) (offset : Nat) (anchor id : NodeId) :
    (document.insertBeside offset anchor id).1 = document.detach id ∨
      ∃ parent position, (document.insertBeside offset anchor id).1 =
        (document.detach id).link id parent (·.insertIdx position id) := by
  cases stands : (document.detach id).parent? anchor with
  | none =>
      left
      rw [insertBeside, stands]
  | some parent =>
      cases place : ((document.detach id).children parent).idxOf? anchor with
      | none =>
          left
          rw [insertBeside, stands]
          simp only [place]
      | some position => exact .inr ⟨parent, _, insertBeside_of_idxOf? stands place⟩

/-- A node is put beside another one that does not stand below it. When that one has no parent, or is
the node itself, the node is left detached. -/
theorem Holds.insertBeside (holds : document.Holds (context.fill [outline])) {offset : Nat}
    (small : offset ≤ 1) {anchor : NodeId} (live : document.isLive anchor = true)
    (outside : anchor = outline.id ∨ anchor ∉ outline.ids) :
    ∃ forest, (document.insertBeside offset anchor outline.id).1.Holds forest := by
  have detached := holds.detach
  cases stands : (document.detach outline.id).parent? anchor with
  | none =>
      rw [Document.insertBeside, stands]
      exact ⟨_, detached⟩
  | some parent =>
      have other : anchor ≠ outline.id := by
        rintro rfl
        simp at stands
      obtain ⟨above, found, rfl, whole⟩ := detached.exists_context_beside
        ((isLive_detach ..).trans live) (outside.resolve_left other)
      have inside : (document.detach outline.id).HoldsIn (above.behind [outline]) [found] :=
        holds_fill_iff.mp (by
          rw [Context.fill_behind, List.singleton_append, ← whole]
          exact detached)
      have top := inside.top.parent
      simp only [Context.parent?_behind] at top
      rw [stands] at top
      cases above with
      | top _ _ => simp [Context.parent?] at top
      | under outer before after id =>
          obtain rfl : parent = id := Option.some.inj top
          obtain ⟨siblings, fresh⟩ := inside.siblings
          rw [insertBeside_of_idxOf? stands (siblings ▸ idxOf?_append_cons _ fresh)]
          have beside : ∀ front back : List Outline, before ++ [found] ++ after = front ++ back →
              (document.detach outline.id).Holds
                (outline :: (Context.under outer front back parent).fill []) := by
            intro front back parts
            rw [whole] at detached
            simpa only [Context.fill, parts, List.append_nil] using detached
          rcases Nat.le_one_iff_eq_zero_or_eq_one.mp small with rfl | rfl
          · have linked := (beside before (found :: after) (by simp)).link
              (·.insertIdx (before.map Outline.id).length outline.id) (insertIdx_length_append ..)
            exact ⟨_, linked⟩
          · have linked := (beside (before ++ [found]) after (by simp)).link
              (·.insertIdx ((before ++ [found]).map Outline.id).length outline.id)
              (insertIdx_length_append ..)
            simp only [List.map_append, List.length_append, List.map_cons, List.map_nil,
              List.length_singleton] at linked
            exact ⟨_, linked⟩

end WordTemplate.Markup.Document
