import WordTemplate.Proofs.Markup.Slots

/-! Documents whose live nodes stand in one tree below the root. Removing, moving and copying nodes keeps
it so, unless the root itself is removed. -/

namespace WordTemplate.Markup

open Outline (idsAll)

namespace Context

theorem map_id_fill (context : Context) {first second : List Outline}
    (same : first.map Outline.id = second.map Outline.id) :
    (context.fill first).map Outline.id = (context.fill second).map Outline.id := by
  induction context generalizing first second with
  | top before after => simp [fill, same]
  | under outer before after id ih => exact ih (by simp)

theorem exists_fill_under {outer : Context} {before after : List Outline} {id : NodeId}
    {first : List Outline} {tree : Outline}
    (whole : (under outer before after id).fill first = [tree]) (second : List Outline) :
    ∃ other : Outline, other.id = tree.id ∧ (under outer before after id).fill second = [other] := by
  have tops : ((under outer before after id).fill second).map Outline.id = [tree.id] := by
    have same : (outer.fill [.node id (before ++ second ++ after)]).map Outline.id =
        (outer.fill [.node id (before ++ first ++ after)]).map Outline.id :=
      outer.map_id_fill (by simp)
    rw [fill, same]
    exact congrArg (List.map Outline.id) whole
  obtain ⟨other, filled, same⟩ := List.map_eq_singleton_iff.mp tops
  exact ⟨other, same, filled⟩

end Context

namespace Document

variable {document : Document}

/-- The live nodes stand in a tree below the root, and in other trees beside it. -/
def StandsBeside (others : List Outline) (document : Document) : Prop :=
  ∃ tree : Outline, tree.id = document.root ∧ document.Holds (others ++ [tree])

/-- The live nodes stand in one tree below the root, or the root has been removed. -/
def Rooted (document : Document) : Prop :=
  document.root < document.size ∧ document.isLive document.root = false ∨
    document.StandsBeside []

theorem rooted_ofTree (declared : Bool) (tree : Tree) : (ofTree declared tree).Rooted :=
  .inr ⟨tree.outline 0, Tree.id_outline 0 tree, holds_ofTree declared tree⟩

theorem Ages.rootDead {first second : Document} (ages : Ages first second)
    (dead : first.root < first.size ∧ first.isLive first.root = false) :
    second.root < second.size ∧ second.isLive second.root = false := by
  rw [ages.root]
  exact ⟨Nat.lt_of_lt_of_le dead.1 ages.size_le, ages.dead _ dead.1 dead.2⟩

theorem rooted_of_sameLinks {first second : Document} (rooted : first.Rooted)
    (ages : Ages first second) (same : SameLinks first second) : second.Rooted := by
  rcases rooted with dead | ⟨tree, top, holds⟩
  · exact .inl (ages.rootDead dead)
  · exact .inr ⟨tree, by rw [top, ages.root], holds.congr same⟩

theorem sameLinks_modify (document : Document) (id : NodeId) {change : Node → Node}
    (live : ∀ node : Node, (change node).live = node.live)
    (parent : ∀ node : Node, (change node).parent = node.parent)
    (children : ∀ node : Node, (change node).children = node.children) :
    SameLinks document (document.modify id change) :=
  ⟨fun other => isLive_modify document id other live,
    fun other => parent?_modify document id other parent,
    fun other => children_modify document id other children⟩

theorem isLive_foldl_die (ids : List NodeId) (document : Document) {id : NodeId}
    (dies : id ∈ ids ∨ document.isLive id = false) :
    (ids.foldl (fun document id => document.modify id fun node =>
      { node with live := false, children := [] }) document).isLive id = false := by
  induction ids generalizing document with
  | nil => exact dies.resolve_left (by simp)
  | cons first rest ih =>
      apply ih
      rcases dies with listed | dead
      · rcases List.mem_cons.mp listed with here | later
        · right
          rw [isLive, node_modify]
          split
          · rfl
          · rename_i outside
            rw [here, node_of_le_size]
            · rfl
            · exact Nat.le_of_not_lt fun bound => outside ⟨here, here ▸ bound⟩
        · exact .inl later
      · right
        rw [isLive, node_modify]
        split
        · rfl
        · exact dead

theorem isLive_delete_self (document : Document) (id : Nat) :
    (document.delete id).isLive id = false := by
  rw [delete]
  split
  · have doomed : id ∈ document.linkedTo document.size id := by
      cases document.size <;> simp [linkedTo]
    have dead := isLive_foldl_die (document.linkedTo document.size id) document (.inl doomed)
    rcases Nat.lt_or_ge id document.size with bound | beyond
    · refine (ages_detach _ id).dead id ?_ dead
      rw [size_foldl fun document id => size_modify document id _]
      exact bound
    · rename_i live
      have inside : id < document.size := lt_size_of_isLive live
      omega
  · rename_i dead
    simpa using dead

theorem rooted_delete_root (bound : document.root < document.size) :
    (document.delete document.root).Rooted := by
  have ages := ages_delete document document.root
  left
  rw [ages.root]
  exact ⟨Nat.lt_of_lt_of_le bound ages.size_le, isLive_delete_self ..⟩

theorem StandsBeside.root_lt_size {others : List Outline} (stands : document.StandsBeside others) :
    document.root < document.size := by
  obtain ⟨tree, top, holds⟩ := stands
  apply holds.lt_size
  rw [← top, Outline.mem_idsAll]
  exact ⟨tree, by simp, tree.id_mem_ids⟩

theorem Rooted.root_lt_size (rooted : document.Rooted) : document.root < document.size :=
  rooted.elim (fun dead => dead.1) fun stands => stands.root_lt_size

theorem Context.eq_under {context : Context} {root outline : Outline}
    (whole : [root] = context.fill [outline]) (below : outline.id ≠ root.id) :
    ∃ outer before after parent, context = .under outer before after parent := by
  cases context with
  | top before after =>
      have length := congrArg List.length whole
      simp only [Context.fill, List.length_append, List.length_cons, List.length_nil] at length
      obtain rfl : before = [] := List.length_eq_zero_iff.mp (by omega)
      simp only [Context.fill, List.nil_append, List.cons_append, List.cons.injEq] at whole
      exact absurd (congrArg Outline.id whole.1.symm) below
  | under outer before after parent => exact ⟨outer, before, after, parent, rfl⟩

theorem rooted_delete (rooted : document.Rooted) (id : NodeId) : (document.delete id).Rooted := by
  have ages := ages_delete document id
  rcases rooted with dead | ⟨tree, top, holds⟩
  · exact .inl (ages.rootDead dead)
  · by_cases live : document.isLive id = true
    · by_cases atTop : id = document.root
      · subst atTop
        exact rooted_delete_root (StandsBeside.root_lt_size ⟨tree, top, holds⟩)
      · obtain ⟨context, outline, rfl, whole⟩ := exists_context (holds.mem_of_isLive id live)
        rw [List.nil_append] at whole holds
        rw [whole] at holds
        obtain ⟨outer, before, after, parent, rfl⟩ := Context.eq_under whole (top ▸ atTop)
        obtain ⟨other, same, filled⟩ := Context.exists_fill_under whole.symm []
        have left := holds.delete
        rw [filled] at left
        exact .inr ⟨other, by rw [same, top, ages.root], left⟩
    · rw [delete, if_neg live]
      exact .inr ⟨tree, top, holds⟩

theorem standsBeside_push {others : List Outline} (stands : document.StandsBeside others)
    (isNew : Bool) (tree : Tree) :
    (document.push (tree.layOut isNew none document.size)).1.StandsBeside
      (tree.outline document.size :: others) := by
  obtain ⟨root, top, holds⟩ := stands
  exact ⟨root, top, holds.push isNew tree⟩

theorem standsBeside_graft {others : List Outline} (stands : document.StandsBeside others)
    {source : Document} {id : NodeId} (live : source.isLive id = true) :
    (document.graft source id).1.StandsBeside
      ((source.liveTree id).outline document.size :: others) := by
  rw [graft_of_isLive document live]
  exact standsBeside_push stands true _

theorem standsBeside_insertAfter {tree : Outline} {others : List Outline}
    (stands : document.StandsBeside (tree :: others)) {anchor : NodeId}
    (inside : anchor ∉ idsAll (tree :: others)) (live : document.isLive anchor = true)
    (below : anchor ≠ document.root) :
    (document.insertAfter anchor tree.id).1.StandsBeside others := by
  obtain ⟨root, top, holds⟩ := stands
  have member := holds.mem_of_isLive anchor live
  rw [Outline.idsAll_append, List.mem_append] at member
  have inRoot := member.resolve_left inside
  obtain ⟨context, outline, rfl, whole⟩ := exists_context inRoot
  obtain ⟨outer, before, after, parent, rfl⟩ := Context.eq_under whole (top ▸ below)
  rw [whole, List.cons_append, ← Context.fill_behind] at holds
  have inserted : (document.insertAfter outline.id tree.id).1.Holds
      ((Context.under (outer.behind others) before after parent).fill [outline, tree]) :=
    Holds.insertAfter holds
  obtain ⟨other, same, filled⟩ := Context.exists_fill_under whole.symm [outline, tree]
  have ages := ages_insertAfter document outline.id tree.id
  refine ⟨other, by rw [same, top, ages.root], ?_⟩
  rw [← filled, ← Context.fill_behind]
  exact inserted

structure Keeps (holds : String → Prop) (first second : Document) : Prop where
  ages : Ages first second
  rooted : first.Rooted → second.Rooted
  slots : first.AllSlots holds → second.AllSlots holds

namespace Keeps

variable {holds : String → Prop}

theorem refl (document : Document) : Keeps holds document document :=
  ⟨.refl document, fun rooted => rooted, fun slots => slots⟩

theorem trans {first second third : Document} (left : Keeps holds first second)
    (right : Keeps holds second third) : Keeps holds first third :=
  ⟨left.ages.trans right.ages, fun rooted => right.rooted (left.rooted rooted),
    fun slots => right.slots (left.slots slots)⟩

theorem foldl {α : Type} {step : Document → α → Document} {items : List α}
    (keeps : ∀ document, ∀ item ∈ items, Keeps holds document (step document item))
    (document : Document) : Keeps holds document (items.foldl step document) := by
  induction items generalizing document with
  | nil => exact .refl document
  | cons item rest ih =>
      exact (keeps document item (by simp)).trans
        (ih (fun document item member => keeps document item (by simp [member])) _)

end Keeps

variable {holds : String → Prop}

theorem keeps_delete (document : Document) (id : NodeId) : Keeps holds document (document.delete id) :=
  ⟨ages_delete document id, fun rooted => rooted_delete rooted id, fun slots => slots_delete slots id⟩

theorem keeps_modify (document : Document) (id : NodeId) {change : Node → Node}
    (live : ∀ node : Node, (change node).live = node.live)
    (parent : ∀ node : Node, (change node).parent = node.parent)
    (children : ∀ node : Node, (change node).children = node.children)
    (tag : ∀ node : Node, (change node).tag = node.tag)
    (slots : document.AllSlots holds → (change (document.node id)).toElement.Slots holds) :
    Keeps holds document (document.modify id change) := by
  have ages := ages_modify document id (fun node dead => (live node).trans dead) tag
  refine ⟨ages, fun rooted => rooted_of_sameLinks rooted ages ?_, fun kept => ?_⟩
  · exact sameLinks_modify document id live parent children
  · exact slots_modify kept (fun now => (live _).symm.trans now) fun _ _ => slots kept

theorem keeps_setText (document : Document) (id : NodeId) {text : String}
    (kept : document.AllSlots holds → document.tag id = Wordml.text → holds text) :
    Keeps holds document (document.setText id text) :=
  keeps_modify document id (fun _ => rfl) (fun _ => rfl) (fun _ => rfl) (fun _ => rfl)
    fun slots => ⟨kept slots, (slots id trivial (by simp)).value⟩

theorem keeps_setAttributes (document : Document) (id : NodeId) {attributes : List Attribute}
    (kept : document.AllSlots holds → ∀ entry ∈ attributes, holds entry.value) :
    Keeps holds document (document.setAttributes id attributes) :=
  keeps_modify document id (fun _ => rfl) (fun _ => rfl) (fun _ => rfl) (fun _ => rfl)
    fun slots => ⟨(slots id trivial (by simp)).text, kept slots⟩

theorem keeps_setAttribute (document : Document) (id : NodeId) (key : String) {value : String}
    (kept : document.AllSlots holds → holds value) :
    Keeps holds document (document.setAttribute id key value) := by
  refine keeps_modify document id (fun _ => rfl) (fun _ => rfl) (fun _ => rfl) (fun _ => rfl) ?_
  intro slots
  refine ⟨(slots id trivial (by simp)).text, ?_⟩
  intro entry member
  rcases mem_setAttribute member with old | new
  · exact (slots id trivial (by simp)).value entry old
  · exact new ▸ kept slots

theorem keeps_preserveSpace (document : Document) (id : NodeId) (kept : holds "preserve") :
    Keeps holds document (Wordml.preserveSpace document id) := by
  rw [Wordml.preserveSpace]
  split
  · exact keeps_setAttribute document id _ fun _ => kept
  · exact .refl document

theorem keeps_clearTextDeep (document : Document) (id : NodeId) (empty : holds "") :
    Keeps holds document (document.clearTextDeep id) :=
  .foldl (fun document inner _ => keeps_setText document inner fun _ _ => empty) document

theorem keeps_deleteText (document : Document) (id : NodeId) :
    Keeps holds document (Wordml.deleteText document id) := by
  simp only [Wordml.deleteText]
  split
  · exact keeps_delete document id
  · split
    · exact (keeps_delete document id).trans (keeps_delete _ _)
    · exact keeps_delete document id

end Document

end WordTemplate.Markup
