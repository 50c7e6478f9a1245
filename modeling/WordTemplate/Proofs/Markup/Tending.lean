import WordTemplate.Proofs.Markup.Forest
import WordTemplate.Proofs.Markup.Removal

/-! What is done at a visited node: it is copied beside itself, and any nodes are removed or rewritten. Such
edits put nothing new below the slots that there are, except below the parent of the visited node. -/

namespace WordTemplate.Markup.Document

/-- What the edits at a visited node leave of the slots of a store. -/
structure Tended (visited : NodeId) (first second : Document) : Prop where
  stands : second.Stands
  ages : Ages first second
  parent : ∀ id < first.size,
    second.parent? id = first.parent? id ∨ second.isLive id = false ∧ second.parent? id = none
  children : ∀ id < first.size, first.parent? visited ≠ some id →
    second.children id = (first.children id).filter second.isLive

variable {visited : NodeId} {first second third : Document}

theorem Stands.filter_filter (stands : first.Stands) (ages : Ages first second)
    (more : Ages second third) (id : NodeId) :
    ((first.children id).filter second.isLive).filter third.isLive =
      (first.children id).filter third.isLive := by
  rw [List.filter_filter]
  refine List.filter_congr fun child lists => ?_
  have old : child < first.size := lt_size_of_isLive (stands.child_live lists)
  have dies := more.dead child (Nat.lt_of_lt_of_le old ages.size_le)
  cases live : second.isLive child with
  | true => rw [Bool.and_true]
  | false => rw [dies live, Bool.and_false]

namespace Tended

theorem of_kept (stands : first.Stands) (stays : second.Stands) (ages : Ages first second)
    (live : ∀ id < first.size, second.isLive id = first.isLive id)
    (parent : ∀ id < first.size, second.parent? id = first.parent? id)
    (children : ∀ id < first.size, second.children id = first.children id) :
    Tended visited first second := by
  refine ⟨stays, ages, fun id bound => .inl (parent id bound), fun id bound _ => ?_⟩
  rw [children id bound, eq_comm, List.filter_eq_self]
  intro child lists
  have childLive := stands.child_live lists
  rwa [live child (lt_size_of_isLive childLive)]

theorem of_old (stands : first.Stands) (stays : second.Stands) (ages : Ages first second)
    (old : ∀ id < first.size, second.node id = first.node id) : Tended visited first second :=
  of_kept stands stays ages (fun id bound => congrArg Node.live (old id bound))
    (fun id bound => congrArg Node.parent (old id bound)) fun id bound => congrArg Node.children (old id bound)

theorem refl (stands : first.Stands) : Tended visited first first :=
  of_kept stands stands (.refl first) (fun _ _ => rfl) (fun _ _ => rfl) fun _ _ => rfl

theorem trans (stands : first.Stands) (bound : visited < first.size) (left : Tended visited first second)
    (right : Tended visited second third) : Tended visited first third := by
  refine ⟨right.stands, left.ages.trans right.ages, fun id old => ?_, fun id old elsewhere => ?_⟩
  · have later := Nat.lt_of_lt_of_le old left.ages.size_le
    rcases right.parent id later with same | gone
    · rcases left.parent id old with before | ⟨dead, none⟩
      · exact .inl (same.trans before)
      · exact .inr ⟨right.ages.dead id later dead, same.trans none⟩
    · exact .inr gone
  · have still : second.parent? visited ≠ some id := by
      rcases left.parent visited bound with same | ⟨-, none⟩
      · rwa [same]
      · simp [none]
    rw [right.children id (Nat.lt_of_lt_of_le old left.ages.size_le) still, left.children id old elsewhere]
    exact stands.filter_filter left.ages right.ages id

end Tended

theorem Rewritten.tended (rewritten : Rewritten first second) (stands : first.Stands) :
    Tended visited first second :=
  .of_kept stands (rewritten.stands stands) rewritten.ages (fun id _ => rewritten.links.isLive id)
    (fun id _ => rewritten.links.parent? id) fun id _ => rewritten.links.children id

variable {document : Document}

theorem Stands.tended_delete (stands : document.Stands) (id : NodeId) :
    Tended visited document (document.delete id) := by
  have stays := stands.delete id
  by_cases live : document.isLive id = true
  · have removes := stands.removes_delete live
    refine ⟨stays, ages_delete document id, fun other _ => ?_, fun other _ _ => ?_⟩
    · obtain ⟨context, outline, rfl, holds⟩ := stands.exists_context live
      rw [parent?_delete holds, isLive_delete holds]
      by_cases top : other = outline.id
      · rw [if_pos top, if_pos (top ▸ outline.id_mem_ids)]
        exact .inr ⟨rfl, rfl⟩
      · exact .inl (if_neg top)
    · by_cases gone : other ∈ id :: document.descendants id
      · rw [stays.bare (removes.dead other gone), eq_comm, List.filter_eq_nil_iff]
        intro child lists
        simp [removes.dead child (removes.below other gone child lists)]
      · rw [removes.children other gone]
        exact removes.filter_isLive fun child lists => stands.child_live lists
  · rw [delete_of_dead (by simpa using live)]
    exact .refl stands

theorem Stands.tended_graft (stands : document.Stands) {source : Document} (others : source.Stands)
    (top : NodeId) : Tended visited document (document.graft source top).1 := by
  have old : ∀ id < document.size, (document.graft source top).1.node id = document.node id :=
    fun _ => node_graft_of_lt source top
  exact .of_old stands (stands.graft others top) (ages_graft document source top) old

/-- The copy of the visited node is listed by its parent, and nowhere else. -/
theorem Stands.tended_cloneAfter (stands : document.Stands) (bound : visited < document.size) :
    Tended visited document (document.cloneAfter visited).1 := by
  have copied : Tended visited document (document.cloneSubtree visited).1 := stands.tended_graft stands visited
  rw [cloneAfter_fst]
  have free : (document.cloneSubtree visited).1.parent? document.size = none :=
    parent?_graft_top document document visited
  by_cases live : document.isLive visited = true
  · obtain ⟨context, outline, rfl, holds⟩ := stands.exists_context live
    have top := (holds_fill_iff.mp holds).top.parent
    simp only at top
    cases context with
    | top before after =>
        have alone : (document.cloneSubtree outline.id).1.parent? outline.id = none :=
          (congrArg Node.parent (node_cloneSubtree _ bound)).trans top
        rw [insertAfter, insertBeside, detach_of_free free, alone]
        exact copied
    | under outer before after parent =>
        have beside := holds.cloneSubtree
        have copy := Tree.id_outline document.size (outline.toTree document)
        generalize (outline.toTree document).outline document.size = tree at beside copy
        have node := node_insertAfter beside
        rw [copy] at node
        have sameLive : ((document.cloneSubtree outline.id).1.insertAfter outline.id document.size).1.isLive =
            (document.cloneSubtree outline.id).1.isLive := by
          funext id
          rw [isLive, node]
        refine ⟨⟨_, copy ▸ beside.insertAfter⟩, copied.ages.trans (ages_insertAfter ..), fun id old => ?_,
          fun id old elsewhere => ?_⟩
        · rw [parent?, node, if_neg (Nat.ne_of_lt old), sameLive]
          exact copied.parent id old
        · have apart : id ≠ parent := fun same => elsewhere (same ▸ top)
          rw [Document.children, node, if_neg apart, sameLive]
          exact copied.children id old elsewhere
  · have dead := copied.ages.dead visited bound (by simpa using live)
    rw [copied.stands.insertAfter_of_dead dead free]
    exact copied

/-- What a visitor of a node may do to the document: copy the node beside itself, and remove and rewrite
any nodes. -/
def Edit.AtVisit (visited : NodeId) : Edit → Prop
  | append _ _ | insertAfter _ _ | insertBefore _ _ => False
  | cloneAfter id => id = visited
  | _ => True

theorem Stands.tended_apply (stands : document.Stands) (bound : visited < document.size) {edit : Edit}
    (atVisit : edit.AtVisit visited) : Tended visited document (edit.apply document) := by
  cases edit with
  | createElement tag =>
      obtain ⟨forest, holds⟩ := stands
      exact .of_old ⟨forest, holds⟩ ⟨_, holds.push false (.node { tag } [])⟩ (ages_push document _)
        fun _ => node_push_of_lt _
  | append | insertAfter | insertBefore => exact absurd atVisit id
  | cloneSubtree id => exact stands.tended_graft stands id
  | cloneAfter id =>
      obtain rfl : id = visited := atVisit
      exact stands.tended_cloneAfter bound
  | delete id => exact stands.tended_delete id
  | clearTextDeep id => exact (rewritten_clearTextDeep document id).tended stands
  | removeAttributeDeep id key => exact (rewritten_removeAttributeDeep document id key).tended stands
  | setText | pushText | setAttributes | setAttribute | removeAttribute =>
      refine (rewritten_modify document _ ?_ ?_ ?_ ?_).tended stands
      all_goals exact fun _ => rfl

theorem Stands.tended_editedAll (stands : document.Stands) (bound : visited < document.size)
    {edits : List Edit} (atVisit : ∀ edit ∈ edits, edit.AtVisit visited) :
    Tended visited document (document.editedAll edits) := by
  induction edits generalizing document with
  | nil => exact .refl stands
  | cons edit rest ih =>
      obtain ⟨here, later⟩ := List.forall_mem_cons.mp atVisit
      have first := stands.tended_apply bound here
      have second := ih first.stands (Nat.lt_of_lt_of_le bound first.ages.size_le) later
      exact first.trans stands bound second

end WordTemplate.Markup.Document
