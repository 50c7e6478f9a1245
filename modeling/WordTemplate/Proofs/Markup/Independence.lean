import WordTemplate.Proofs.Markup.Copies
import WordTemplate.Proofs.Markup.Forest
import WordTemplate.Proofs.Markup.Severed

/-! Copies share no slots with what they were copied from. Edits that name slots of the one and new ones
leave the other one as it is written. -/

namespace WordTemplate.Markup

namespace Tree

mutual

theorem isNew_of_mem_layOut {isNew : Bool} {parent : Option NodeId} {first : NodeId} {tree : Tree} :
    ∀ node ∈ tree.layOut isNew parent first, node.isNew = isNew := by
  cases tree with
  | node element children =>
      rw [layOut, List.forall_mem_cons]
      exact ⟨rfl, isNew_of_mem_layOutAll⟩

theorem isNew_of_mem_layOutAll {isNew : Bool} {parent : Option NodeId} {first : NodeId}
    {trees : List Tree} : ∀ node ∈ layOutAll isNew parent first trees, node.isNew = isNew := by
  cases trees with
  | nil => simp [layOutAll]
  | cons tree rest =>
      rw [layOutAll, List.forall_mem_append]
      exact ⟨isNew_of_mem_layOut, isNew_of_mem_layOutAll⟩

end

end Tree

namespace Document

open Relation (ReflTransGen TransGen)

/-- Some slots are kept as they were with all that is linked below them, and the links of the slots inside
of a fence, which all new ones belong to, do not lead there. -/
structure Fenced (kept inside : NodeId → Prop) (first document : Document) : Prop where
  size_le : first.size ≤ document.size
  closed : ∀ id, kept id → ∀ child ∈ first.children id, kept child
  apart : ∀ id, inside id → ¬ kept id
  fresh : ∀ id, first.size ≤ id → inside id
  same : ∀ id, kept id → document.node id = first.node id
  children : ∀ id, inside id → ∀ child ∈ document.children id, inside child
  parent : ∀ id, inside id → ∀ above, document.parent? id = some above → ¬ kept above

namespace Fenced

variable {kept inside : NodeId → Prop} {first document : Document} {id : NodeId}
  (fenced : Fenced kept inside first document)
include fenced

theorem modify (outside : ¬ kept id) {change : Node → Node}
    (children : inside id → ∀ child ∈ (change (document.node id)).children, inside child)
    (parent : inside id → ∀ above, (change (document.node id)).parent = some above → ¬ kept above) :
    Fenced kept inside first (document.modify id change) where
  size_le := by
    rw [size_modify]
    exact fenced.size_le
  closed := fenced.closed
  apart := fenced.apart
  fresh := fenced.fresh
  same := by
    intro other member
    rw [node_modify, if_neg, fenced.same other member]
    rintro ⟨rfl, -⟩
    exact outside member
  children := by
    intro other member child listed
    rw [Document.children, node_modify] at listed
    split at listed
    · rename_i here
      obtain ⟨rfl, -⟩ := here
      exact children member child listed
    · exact fenced.children other member child listed
  parent := by
    intro other member above stands
    rw [Document.parent?, node_modify] at stands
    split at stands
    · rename_i here
      obtain ⟨rfl, -⟩ := here
      exact parent member above stands
    · exact fenced.parent other member above stands

theorem rewrite (member : inside id) {change : Node → Node}
    (children : ∀ node : Node, (change node).children = node.children)
    (parent : ∀ node : Node, (change node).parent = node.parent) :
    Fenced kept inside first (document.modify id change) := by
  refine fenced.modify (fenced.apart id member) (fun _ child listed => ?_) fun _ above stands => ?_
  · rw [children] at listed
    exact fenced.children id member child listed
  · rw [parent] at stands
    exact fenced.parent id member above stands

omit fenced in
theorem foldl {step : Document → NodeId → Document}
    (each : ∀ {document}, Fenced kept inside first document → ∀ {id}, inside id →
      Fenced kept inside first (step document id))
    {ids : List NodeId} (members : ∀ id ∈ ids, inside id) {document : Document}
    (fenced : Fenced kept inside first document) :
    Fenced kept inside first (ids.foldl step document) := by
  induction ids generalizing document with
  | nil => exact fenced
  | cons id rest ih =>
      obtain ⟨here, later⟩ := List.forall_mem_cons.mp members
      exact ih later (each fenced here)

theorem inside_of_reached {other : NodeId} (member : inside id)
    (reached : ReflTransGen document.Lists id other) : inside other := by
  induction reached with
  | refl => exact member
  | tail _ lists ih => exact fenced.children _ ih _ lists

theorem inside_below (member : inside id) : ∀ other ∈ id :: document.descendants id, inside other := by
  rw [List.forall_mem_cons]
  exact ⟨member, fun other below =>
    fenced.inside_of_reached member (reached_of_descendantsTo below).2.to_reflTransGen⟩

theorem detach (member : inside id) : Fenced kept inside first (document.detach id) := by
  rw [Document.detach]
  split
  · exact fenced
  · rename_i parent above
    have outside := fenced.parent id member parent above
    have freed : Fenced kept inside first (document.modify id fun node => { node with parent := none }) :=
      fenced.modify (fenced.apart id member) (fenced.children id) (by simp)
    refine freed.modify outside (fun parentIn child listed => ?_) (freed.parent parent)
    exact freed.children parent parentIn child (List.mem_filter.mp listed).1

theorem link {parent : NodeId} (member : inside id) (outside : ¬ kept parent)
    {change : List NodeId → List NodeId}
    (adds : ∀ ids, ∀ child ∈ change ids, child = id ∨ child ∈ ids) :
    Fenced kept inside first (document.link id parent change) := by
  have below : Fenced kept inside first
      (document.modify id fun node => { node with parent := some parent }) := by
    refine fenced.modify (fenced.apart id member) (fenced.children id) fun _ above stands => ?_
    obtain rfl := Option.some.inj stands
    exact outside
  refine below.modify outside (fun parentIn child listed => ?_) (below.parent parent)
  rcases adds _ child listed with rfl | old
  · exact member
  · exact below.children parent parentIn child old

/-- What lists a slot inside of the fence is not kept, since what it lists would be. -/
theorem insertBeside {offset : Nat} {anchor : NodeId} (anchorIn : inside anchor) (member : inside id) :
    Fenced kept inside first (document.insertBeside offset anchor id).1 := by
  have detached := fenced.detach member
  rcases document.insertBeside_eq offset anchor id with same | ⟨parent, position, lists, same⟩
  · rw [same]
    exact detached
  · rw [same]
    refine detached.link member (fun parentKept => ?_) (adds_insertIdx id position)
    rw [Lists, Document.children, detached.same parent parentKept] at lists
    exact fenced.apart anchor anchorIn (fenced.closed parent parentKept anchor lists)

theorem push {nodes : List Node} (links : ∀ node ∈ nodes, Tree.LinksFrom document.size none node) :
    Fenced kept inside first (document.push nodes).1 := by
  have beyond : ∀ id, document.size ≤ id → inside id := fun id le =>
    fenced.fresh id (Nat.le_trans fenced.size_le le)
  refine ⟨?_, fenced.closed, fenced.apart, fenced.fresh, fun id member => ?_, fun id member => ?_,
    fun id member => ?_⟩
  · rw [size_push]
    exact Nat.le_trans fenced.size_le (Nat.le_add_right ..)
  · have bound : id < document.size := by
      by_contra outside
      exact fenced.apart id (beyond id (Nat.le_of_not_lt outside)) member
    rw [node_push_of_lt nodes bound]
    exact fenced.same id member
  · intro child listed
    rw [Document.children] at listed
    rcases node_push_cases document nodes id with ⟨_, same⟩ | ⟨_, pushed | absent⟩
    · rw [same] at listed
      exact fenced.children id member child listed
    · exact beyond child ((links _ pushed).children child listed)
    · rw [absent] at listed
      simp [Node.absent] at listed
  · intro above stands
    rw [Document.parent?] at stands
    rcases node_push_cases document nodes id with ⟨_, same⟩ | ⟨_, pushed | absent⟩
    · rw [same] at stands
      exact fenced.parent id member above stands
    · rcases (links _ pushed).parent above stands with none | further
      · simp at none
      · exact fenced.apart above (beyond above further)
    · rw [absent] at stands
      simp [Node.absent] at stands

theorem graft (source : Document) (top : NodeId) :
    Fenced kept inside first (document.graft source top).1 := by
  have copy : inside document.size := fenced.fresh _ fenced.size_le
  exact (fenced.push (Tree.linksFrom_layOut true none document.size (source.liveTree top))).rewrite copy
    (fun _ => rfl) fun _ => rfl

theorem delete (member : inside id) : Fenced kept inside first (document.delete id) := by
  by_cases live : document.isLive id = true
  · rw [delete_eq live]
    refine detach (foldl (fun fenced id inner => ?_) (fun other linked => ?_) fenced) member
    · exact fenced.modify (fenced.apart id inner) (by simp) (fenced.parent id)
    · exact fenced.inside_of_reached member (reached_of_linkedTo linked)
  · rw [delete_of_dead (by simpa using live)]
    exact fenced

theorem apply {edit : Edit} (named : ∀ id ∈ edit.handles, inside id) :
    Fenced kept inside first (edit.apply document) := by
  cases edit with
  | createElement tag => exact fenced.push (Tree.linksFrom_layOut false none document.size (.node { tag } []))
  | append parent child =>
      have childIn := named child (by simp [Edit.handles])
      have outside := fenced.apart parent (named parent (by simp [Edit.handles]))
      exact (fenced.detach childIn).link childIn outside (adds_append child)
  | insertAfter anchor id =>
      exact fenced.insertBeside (named anchor (by simp [Edit.handles])) (named id (by simp [Edit.handles]))
  | insertBefore anchor id =>
      exact fenced.insertBeside (named anchor (by simp [Edit.handles])) (named id (by simp [Edit.handles]))
  | cloneSubtree id => exact fenced.graft document id
  | cloneAfter id =>
      rw [Edit.apply, cloneAfter_fst]
      exact (fenced.graft document id).insertBeside (named id (by simp [Edit.handles]))
        (fenced.fresh _ fenced.size_le)
  | delete id => exact fenced.delete (named id (by simp [Edit.handles]))
  | clearTextDeep id =>
      refine foldl (fun fenced id inner => ?_)
        (fenced.inside_below (named id (by simp [Edit.handles]))) fenced
      exact fenced.rewrite inner (fun _ => rfl) fun _ => rfl
  | removeAttributeDeep id key =>
      refine foldl (fun fenced id inner => ?_)
        (fenced.inside_below (named id (by simp [Edit.handles]))) fenced
      exact fenced.rewrite inner (fun _ => rfl) fun _ => rfl
  | setText | pushText | setAttributes | setAttribute | removeAttribute =>
      refine fenced.rewrite (named _ (by simp [Edit.handles])) ?_ ?_
      all_goals exact fun _ => rfl

theorem editedAll {edits : List Edit} (named : ∀ edit ∈ edits, ∀ id ∈ edit.handles, inside id) :
    Fenced kept inside first (document.editedAll edits) := by
  induction edits generalizing document with
  | nil => exact fenced
  | cons edit rest ih =>
      obtain ⟨here, later⟩ := List.forall_mem_cons.mp named
      exact ih (fenced.apply here) later

end Fenced

theorem Stands.writeNode_of_same {first second : Document} (stands : first.Stands)
    (size_le : first.size ≤ second.size) {id : NodeId}
    (same : ∀ other ∈ id :: first.descendants id, second.node other = first.node other) :
    second.writeNode id = first.writeNode id := by
  have sameLive : second.isLive id = first.isLive id :=
    congrArg Node.live (same id (List.mem_cons_self ..))
  rw [writeNode, writeNode, sameLive]
  split
  · rename_i live
    obtain ⟨context, outline, rfl, holds⟩ := stands.exists_context live
    have inside := holds_fill_iff.mp holds
    rw [← holds.ids_eq] at same
    have links : ∀ link ∈ outline.links context.parent?, second.Has link := by
      intro link member
      have has := inside.links link member
      have stays := same link.id (Outline.map_id_links context.parent? outline ▸ List.mem_map_of_mem member)
      exact ⟨(congrArg Node.live stays).trans has.live, (congrArg Node.parent stays).trans has.parent,
        (congrArg Node.children stays).trans has.children⟩
    have deep : Outline.heightAll outline.children ≤ second.size := by
      have height := inside.height_le_size
      have smaller := heightAll_children_lt_height outline
      omega
    have tree : second.linkedTree outline.id = outline.toTree second :=
      treeTo_eq (fun _ _ => rfl) links deep
    rw [tree, holds.linkedTree, Outline.toTree_congr fun id member => congrArg Node.toElement (same id member)]
  · rfl

theorem Fenced.writeNode {kept inside : NodeId → Prop} {first document : Document}
    (fenced : Fenced kept inside first document) (stands : first.Stands) {id : NodeId} (member : kept id) :
    document.writeNode id = first.writeNode id := by
  refine stands.writeNode_of_same fenced.size_le (List.forall_mem_cons.mpr ⟨fenced.same id member, ?_⟩)
  intro other below
  refine fenced.same other ?_
  have path := (reached_of_descendantsTo below).2
  clear below
  induction path with
  | single lists => exact fenced.closed id member _ lists
  | tail _ lists ih => exact fenced.closed _ ih _ lists

theorem isNew_graft {document source : Document} {top slot : Nat} (beyond : document.size ≤ slot)
    (within : slot < (document.graft source top).1.size) :
    ((document.graft source top).1.node slot).isNew = true := by
  obtain ⟨index, rfl⟩ := Nat.exists_eq_add_of_le beyond
  have short : index < ((source.liveTree top).layOut true none document.size).length := by
    rw [size_graft] at within
    rw [Tree.length_layOut]
    omega
  have pushed : ((document.push ((source.liveTree top).layOut true none document.size)).1.node
      (document.size + index)).isNew = true := by
    rw [node_push_add, List.getD_eq_getElem?_getD, List.getElem?_eq_getElem short, Option.getD_some]
    exact Tree.isNew_of_mem_layOut _ (List.getElem_mem short)
  rw [node_graft]
  split
  · exact pushed
  · exact pushed

namespace Grafted

variable {twin : NodeId → NodeId} {outline : Outline} {document source : Document}
  (grafted : Grafted twin outline document source)
include grafted

theorem stands : (document.graft source outline.id).1.Stands := by
  obtain ⟨context, holds⟩ := grafted.copies.copied
  exact ⟨_, holds⟩

theorem mem_slots {slot : NodeId} :
    slot ∈ outline.ids.map twin ↔
      document.size ≤ slot ∧ slot < (document.graft source outline.id).1.size := by
  rw [grafted.slots, List.mem_range'_1, grafted.size]

theorem parent? (others : source.Stands) {id : NodeId} (member : id ∈ outline.ids) :
    (document.graft source outline.id).1.parent? (twin id) =
      if id = outline.id then none else (source.parent? id).map twin := by
  split
  · rename_i top
    rw [top, grafted.twin_top]
    exact parent?_graft_top document source outline.id
  · rename_i notTop
    have ids := grafted.ids
    have below : id ∈ source.descendants outline.id :=
      (List.mem_cons.mp (ids ▸ member)).resolve_left notTop
    obtain ⟨parent, -, lists⟩ := TransGen.tail'_iff.mp (reached_of_descendantsTo below).2
    have parentIn : parent ∈ outline.ids := by
      rw [ids]
      exact List.mem_cons.mpr (others.parent_of_mem_descendants below lists)
    have above : source.parent? id = some parent := others.above lists
    rw [above]
    exact grafted.stands.above ((grafted.copies.lists_iff parentIn member).mpr lists)

theorem node_twin (others : source.Stands) {id : NodeId} (member : id ∈ outline.ids) :
    (document.graft source outline.id).1.node (twin id) =
      { toElement := (source.node id).toElement
        parent := if id = outline.id then none else (source.parent? id).map twin
        children := (source.children id).map twin
        isNew := true
        live := true } := by
  have slot := grafted.mem_slots.mp (List.mem_map_of_mem member)
  have live : (document.graft source outline.id).1.isLive (twin id) = true := by
    obtain ⟨context, holds⟩ := grafted.copies.copied
    refine (holds_fill_iff.mp holds).isLive_of_mem_idsAll ?_
    rw [Outline.idsAll, Outline.idsAll, List.append_nil, Outline.ids_rename]
    exact List.mem_map_of_mem member
  calc (document.graft source outline.id).1.node (twin id)
    _ = { toElement := ((document.graft source outline.id).1.node (twin id)).toElement
          parent := (document.graft source outline.id).1.parent? (twin id)
          children := (document.graft source outline.id).1.children (twin id)
          isNew := ((document.graft source outline.id).1.node (twin id)).isNew
          live := (document.graft source outline.id).1.isLive (twin id) } := rfl
    _ = _ := by
      rw [grafted.element id member, grafted.parent? others member, grafted.copies.children member,
        isNew_graft slot.1 slot.2, live]

theorem writeNode (live : source.isLive outline.id = true) :
    (document.graft source outline.id).1.writeNode document.size = source.writeNode outline.id := by
  rw [Document.writeNode, Document.writeNode, isLive_graft_top, grafted.linkedTree, live]

end Grafted

section Fences

variable {document : Document} (wellFormed : document.WellFormed) (source : Document) (top : NodeId)
include wellFormed

theorem WellFormed.fenced_old :
    Fenced (· < document.size) (document.size ≤ ·) document (document.graft source top).1 := by
  have start : Fenced (· < document.size) (document.size ≤ ·) document document := by
    refine ⟨Nat.le_refl _, fun id _ child lists => wellFormed.child_lt_size lists,
      fun id => Nat.not_lt.mpr, fun _ beyond => beyond, fun _ _ => rfl, fun id beyond child lists => ?_,
      fun id beyond above stands => ?_⟩
    · rw [Document.children, node_of_le_size beyond] at lists
      simp [Node.absent] at lists
    · rw [Document.parent?, node_of_le_size beyond] at stands
      simp [Node.absent] at stands
  exact start.graft source top

/-- The slots of a copy are kept where only others are edited. -/
theorem WellFormed.fenced_copy :
    Fenced (fun id => document.size ≤ id ∧ id < (document.graft source top).1.size)
      (fun id => id < document.size ∨ (document.graft source top).1.size ≤ id)
      (document.graft source top).1 (document.graft source top).1 := by
  refine ⟨Nat.le_refl _, fun id kept child lists => ?_, ?_, fun _ => .inr, fun _ _ => rfl,
    fun id inside child lists => ?_, fun id inside above stands => ?_⟩
  · rcases lists_graft lists with ⟨before, _⟩ | ⟨_, after, within, _⟩
    · exact absurd before (Nat.not_lt.mpr kept.1)
    · exact ⟨Nat.le_trans kept.1 (Nat.le_of_lt after), within⟩
  · rintro id (old | beyond) kept
    · exact Nat.not_lt.mpr kept.1 old
    · exact Nat.not_lt.mpr beyond kept.2
  · rcases lists_graft lists with ⟨_, before⟩ | ⟨beyond, after, within, _⟩
    · exact .inl (wellFormed.child_lt_size before)
    · have copied := inside.resolve_left (Nat.not_lt.mpr beyond)
      exact absurd (Nat.lt_trans after within) (Nat.not_lt.mpr copied)
  · rintro ⟨beyond, _⟩
    rcases inside with old | further
    · rw [Document.parent?, node_graft_of_lt source top old] at stands
      exact Nat.not_lt.mpr beyond (wellFormed.parent_lt_size stands)
    · rw [Document.parent?, node_of_le_size further] at stands
      simp [Node.absent] at stands

end Fences

/-- A copy of a live node, of the document itself or of another one, stands in new slots behind all others,
parents before children and in document order, and is written as what was copied. Whatever is edited in
the new slots leaves all old nodes as they are written, and whatever is edited elsewhere leaves the copy. -/
theorem graft_independent {document source copied : Document} (wellFormed : document.WellFormed)
    (others : source.WellFormed) {top copy : NodeId} (live : source.isLive top = true)
    (grafted : document.graft source top = (copied, copy)) :
    (∃ twin : NodeId → NodeId, twin top = copy ∧
      (top :: source.descendants top).map twin =
        List.range' document.size (copied.size - document.size) ∧
      ∀ id ∈ top :: source.descendants top, copied.node (twin id) =
        { toElement := (source.node id).toElement
          parent := if id = top then none else (source.parent? id).map twin
          children := (source.children id).map twin
          isNew := true
          live := true }) ∧
    (∀ parent child, document.size ≤ parent → copied.Lists parent child → parent < child) ∧
    (document.size ≤ copied.size ∧ ∀ id < document.size, copied.node id = document.node id) ∧
    copied.writeNode copy = source.writeNode top ∧
    (∀ edits, (∀ edit ∈ edits, ∀ id ∈ Edit.handles edit, document.size ≤ id) →
      ∀ id < document.size, (copied.editedAll edits).writeNode id = document.writeNode id) ∧
    (∀ edits, (∀ edit ∈ edits, ∀ id ∈ Edit.handles edit, id < document.size ∨ copied.size ≤ id) →
      (copied.editedAll edits).writeNode copy = source.writeNode top) := by
  obtain ⟨outline, twin, rfl, whole⟩ := wellFormed.stands.exists_grafted others.stands live
  obtain rfl : (document.graft source outline.id).1 = copied := congrArg Prod.fst grafted
  obtain rfl : document.size = copy := congrArg Prod.snd grafted
  have written := whole.writeNode live
  have size : outline.ids.length = (document.graft source outline.id).1.size - document.size := by
    rw [whole.size, Nat.add_sub_cancel_left]
  have some := lt_size_graft document source outline.id
  have slots := whole.slots
  rw [size, whole.ids] at slots
  refine ⟨⟨twin, whole.twin_top, slots, fun id member => ?_⟩, fun parent child beyond lists => ?_,
    ⟨Nat.le_of_lt some, fun id old => node_graft_of_lt source outline.id old⟩, written,
    fun edits named id old => ?_, fun edits named => ?_⟩
  · exact whole.node_twin others.stands (whole.ids ▸ member)
  · rcases lists_graft lists with ⟨before, _⟩ | ⟨_, after, _⟩
    · exact absurd before (Nat.not_lt.mpr beyond)
    · exact after
  · exact ((wellFormed.fenced_old source outline.id).editedAll named).writeNode wellFormed.stands old
  · rw [← written]
    exact ((wellFormed.fenced_copy source outline.id).editedAll named).writeNode whole.stands
      ⟨Nat.le_refl _, some⟩

/-- A row with one cell. -/
def shortRow : Document :=
  .ofTree false (.node { tag := "w:tr" } [.node { tag := "w:tc", text := "a" } []])

/-- The copy of the cell is rewritten and gets a paragraph; then the cell itself is removed. -/
theorem graft_independent_shortRow :
    (shortRow.cloneSubtree 0).1.writeNode 2 = shortRow.writeNode 0 ∧
      ((shortRow.cloneSubtree 0).1.editedAll
        [.setText 3 "b", .createElement "w:p", .append 3 4]).writeNode 0 = shortRow.writeNode 0 ∧
      ((shortRow.cloneSubtree 0).1.editedAll [.delete 1]).writeNode 2 = shortRow.writeNode 0 ∧
      (shortRow.cloneSubtree 0).1.size = 4 := by
  have wellFormed : shortRow.WellFormed := (sound_ofTree false _).wellFormed
  obtain ⟨-, -, -, written, old, copied⟩ := graft_independent wellFormed wellFormed (by decide)
    (rfl : shortRow.graft shortRow 0 = ((shortRow.cloneSubtree 0).1, 2))
  refine ⟨written, old _ ?_ 0 (by decide), copied _ ?_, by decide⟩
  · decide
  · decide

end Document

end WordTemplate.Markup
