import WordTemplate.Proofs.Markup.Rooted
import WordTemplate.Proofs.Markup.WellFormed

/-! Whole runs of edits. A document that is read or made new and then edited has links that agree with
each other, as long as no node is moved below itself. -/

namespace WordTemplate.Markup.Document

open Outline (idsAll)
open Relation (TransGen)

/-- What can be done to a document, apart from bringing in a part of another one. -/
inductive Edit
  | createElement (tag : String)
  | append (parent child : NodeId)
  | insertAfter (anchor id : NodeId)
  | insertBefore (anchor id : NodeId)
  | cloneSubtree (id : NodeId)
  | cloneAfter (id : NodeId)
  | delete (id : NodeId)
  | setText (id : NodeId) (text : String)
  | pushText (id : NodeId) (text : String)
  | clearTextDeep (id : NodeId)
  | setAttributes (id : NodeId) (attributes : List Attribute)
  | setAttribute (id : NodeId) (key value : String)
  | removeAttribute (id : NodeId) (key : String)
  | removeAttributeDeep (id : NodeId) (key : String)

def Edit.apply (document : Document) : Edit → Document
  | createElement tag => (document.createElement tag).1
  | append parent child => document.append parent child
  | insertAfter anchor id => (document.insertAfter anchor id).1
  | insertBefore anchor id => (document.insertBefore anchor id).1
  | cloneSubtree id => (document.cloneSubtree id).1
  | cloneAfter id => (document.cloneAfter id).1
  | delete id => document.delete id
  | setText id text => document.setText id text
  | pushText id text => document.pushText id text
  | clearTextDeep id => document.clearTextDeep id
  | setAttributes id attributes => document.setAttributes id attributes
  | setAttribute id key value => document.setAttribute id key value
  | removeAttribute id key => document.removeAttribute id key
  | removeAttributeDeep id key => document.removeAttributeDeep id key

/-- Only live nodes are moved, below or beside live nodes that do not stand below them. -/
def Edit.Allowed (document : Document) : Edit → Prop
  | append parent child =>
    document.isLive child = true ∧ document.isLive parent = true ∧
      parent ≠ child ∧ parent ∉ document.descendants child
  | insertAfter anchor id | insertBefore anchor id =>
    document.isLive id = true ∧ document.isLive anchor = true ∧ anchor ∉ document.descendants id
  | _ => True

/-- A document as it is before any edit. -/
inductive Opened : Document → Prop
  | new (tag : String) : Opened (.new tag)
  | parse {text : String} {document : Document} (read : parse text = .ok document) : Opened document
  | parseFragment {text : String} {document : Document} (read : parseFragment text = .ok document) :
      Opened document

/-- The second document comes from the first one by edits, and by bringing in parts of documents that
were opened and edited themselves. -/
inductive Edited : Document → Document → Prop
  | unchanged (document : Document) : Edited document document
  | edit {start document : Document} (edited : Edited start document) (edit : Edit)
      (allowed : edit.Allowed document) : Edited start (edit.apply document)
  | graft {start document origin source : Document} (edited : Edited start document)
      (opened : Opened origin) (other : Edited origin source) (id : NodeId) :
      Edited start (document.graft source id).1

variable {document : Document} {context : Context} {outline : Outline}

/-! Slots stay with their tags. -/

theorem ages_link (document : Document) (id parent : NodeId) (change : List NodeId → List NodeId) :
    Ages document (document.link id parent change) := by
  refine (ages_modify document id ?_ ?_).trans (ages_modify _ parent ?_ ?_)
  · exact fun node dead => dead
  · exact fun node => rfl
  · exact fun node dead => dead
  · exact fun node => rfl

theorem ages_append (document : Document) (parent child : NodeId) :
    Ages document (document.append parent child) :=
  (ages_detach document child).trans (ages_link _ child parent (· ++ [child]))

theorem ages_insertBeside (document : Document) (offset : Nat) (anchor id : NodeId) :
    Ages document (document.insertBeside offset anchor id).1 := by
  have detached := ages_detach document id
  rcases document.insertBeside_cases offset anchor id with same | ⟨parent, position, same⟩
  · rw [same]
    exact detached
  · rw [same]
    exact detached.trans (ages_link ..)

/-- The second document differs from the first one in texts and attributes only. -/
structure Rewritten (first second : Document) : Prop where
  ages : Ages first second
  links : SameLinks first second
  size : second.size = first.size

theorem rewritten_modify (document : Document) (id : NodeId) {change : Node → Node}
    (live : ∀ node : Node, (change node).live = node.live)
    (parent : ∀ node : Node, (change node).parent = node.parent)
    (children : ∀ node : Node, (change node).children = node.children)
    (tag : ∀ node : Node, (change node).tag = node.tag) :
    Rewritten document (document.modify id change) :=
  ⟨ages_modify document id (fun node dead => (live node).trans dead) tag,
    sameLinks_modify document id live parent children, size_modify document id change⟩

theorem Rewritten.refl (document : Document) : Rewritten document document :=
  ⟨.refl document, .refl document, rfl⟩

theorem Rewritten.trans {first second third : Document} (left : Rewritten first second)
    (right : Rewritten second third) : Rewritten first third :=
  ⟨left.ages.trans right.ages, left.links.trans right.links, right.size.trans left.size⟩

theorem rewritten_foldl {step : Document → NodeId → Document}
    (rewritten : ∀ document id, Rewritten document (step document id)) (ids : List NodeId)
    (document : Document) : Rewritten document (ids.foldl step document) := by
  induction ids generalizing document with
  | nil => exact .refl document
  | cons id rest ih => exact (rewritten document id).trans (ih _)

theorem rewritten_clearTextDeep (document : Document) (id : NodeId) :
    Rewritten document (document.clearTextDeep id) := by
  refine rewritten_foldl (fun document id => ?_) _ document
  exact rewritten_modify document id (fun _ => rfl) (fun _ => rfl) (fun _ => rfl) fun _ => rfl

theorem rewritten_removeAttributeDeep (document : Document) (id : NodeId) (key : String) :
    Rewritten document (document.removeAttributeDeep id key) := by
  refine rewritten_foldl (fun document id => ?_) _ document
  exact rewritten_modify document id (fun _ => rfl) (fun _ => rfl) (fun _ => rfl) fun _ => rfl

theorem ages_apply (document : Document) (edit : Edit) : Ages document (edit.apply document) := by
  cases edit with
  | createElement tag => exact ages_push document _
  | append parent child => exact ages_append document parent child
  | insertAfter anchor id => exact ages_insertBeside document 1 anchor id
  | insertBefore anchor id => exact ages_insertBeside document 0 anchor id
  | cloneSubtree id => exact ages_cloneSubtree document id
  | cloneAfter id =>
      rw [Edit.apply, cloneAfter_fst]
      exact (ages_cloneSubtree document id).trans (ages_insertBeside ..)
  | delete id => exact ages_delete document id
  | clearTextDeep id => exact (rewritten_clearTextDeep document id).ages
  | removeAttributeDeep id key => exact (rewritten_removeAttributeDeep document id key).ages
  | setText | pushText | setAttributes | setAttribute | removeAttribute =>
      exact ages_modify document _ (fun _ dead => dead) fun _ => rfl

theorem Edited.ages {start document : Document} (edited : Edited start document) :
    Ages start document := by
  induction edited with
  | unchanged document => exact .refl document
  | edit _ edit _ ih => exact ih.trans (ages_apply _ edit)
  | graft _ _ _ id ih _ => exact ih.trans (ages_graft _ _ id)

/-! What one edit keeps. -/

theorem Rests.carry {first second : Document} (ages : Ages first second)
    (kept : ∀ id < first.size, first.isLive id = false → second.parent? id = first.parent? id)
    {id : NodeId} (rests : first.Rests id) (bound : id < first.size)
    (dead : first.isLive id = false) : second.Rests id := by
  induction rests with
  | free free => exact .free ((kept _ bound dead).trans free)
  | under above aboveBound aboveDead _ ih =>
      exact .under ((kept _ bound dead).trans above) (Nat.lt_of_lt_of_le aboveBound ages.size_le)
        (ages.dead _ aboveBound aboveDead) (ih aboveBound aboveDead)

theorem rests_of_le_size {id : Nat} (beyond : document.size ≤ id) : document.Rests id := by
  apply Rests.free
  rw [parent?, node_of_le_size beyond]
  rfl

theorem Sound.carry {first second : Document} (sound : first.Sound) (ages : Ages first second)
    (forest : ∃ forest, second.Holds forest)
    (kept : ∀ id < first.size, first.isLive id = false → second.parent? id = first.parent? id)
    (new : ∀ id < second.size, second.isLive id = false →
      id < first.size ∧ first.isLive id = false ∨ second.Rests id) : second.Sound := by
  refine ⟨forest, fun id dead => ?_⟩
  by_cases bound : id < second.size
  · rcases new id bound dead with ⟨old, oldDead⟩ | rests
    · exact (sound.rests id oldDead).carry ages kept old oldDead
    · exact rests
  · exact rests_of_le_size (Nat.le_of_not_lt bound)

theorem Sound.move {first second : Document} (sound : first.Sound) (ages : Ages first second)
    (forest : ∃ forest, second.Holds forest) (size : second.size = first.size)
    (live : ∀ id, second.isLive id = first.isLive id) {moved : NodeId}
    (movedLive : first.isLive moved = true)
    (kept : ∀ id, id ≠ moved → second.parent? id = first.parent? id) : second.Sound := by
  refine sound.carry ages forest (fun id _ dead => kept id ?_) fun id bound dead => .inl ?_
  · rintro rfl
    rw [movedLive] at dead
    exact absurd dead (by decide)
  · exact ⟨size ▸ bound, live id ▸ dead⟩

theorem Rewritten.stands {first second : Document} (rewritten : Rewritten first second)
    (stands : first.Stands) : second.Stands := by
  obtain ⟨forest, holds⟩ := stands
  exact ⟨forest, holds.congr rewritten.links⟩

theorem Rewritten.sound {first second : Document} (rewritten : Rewritten first second)
    (sound : first.Sound) : second.Sound := by
  refine sound.carry rewritten.ages (rewritten.stands sound.stands) ?_ ?_
  · exact fun id _ _ => rewritten.links.parent? id
  · exact fun id bound dead => .inl ⟨rewritten.size ▸ bound, rewritten.links.isLive id ▸ dead⟩

theorem Sound.push (sound : document.Sound) (isNew : Bool) (tree : Tree) :
    (document.push (tree.layOut isNew none document.size)).1.Sound := by
  obtain ⟨forest, holds⟩ := sound.forest
  have pushed := holds.push isNew tree
  refine sound.carry (ages_push document _) ⟨_, pushed⟩ ?_ ?_
  · intro id bound _
    rw [parent?, node_push_of_lt _ bound]
    rfl
  · intro id bound dead
    by_cases old : id < document.size
    · rw [isLive, node_push_of_lt _ old] at dead
      exact .inl ⟨old, dead⟩
    · rw [size_push, Tree.length_layOut] at bound
      have member : id ∈ idsAll (tree.outline document.size :: forest) := by
        rw [idsAll, List.mem_append, Tree.ids_outline]
        exact .inl (List.mem_range'_1.mpr ⟨Nat.le_of_not_lt old, bound⟩)
      rw [pushed.isLive_of_mem member] at dead
      exact absurd dead (by decide)

theorem sound_ofTree (declared : Bool) (tree : Tree) : (ofTree declared tree).Sound := by
  have empty : Sound { nodes := #[], declared } := by
    have beyond : ∀ id : Nat, Document.size { nodes := #[], declared } ≤ id := by simp [size]
    refine ⟨⟨[], by simp [idsAll], by simp [Outline.linksAll], ?_, ?_⟩,
      fun id _ => rests_of_le_size (beyond id)⟩
    · intro id live
      exact absurd (lt_size_of_isLive live) (Nat.not_lt.mpr (beyond id))
    · intro id _
      rw [Document.children, node_of_le_size (beyond id)]
      rfl
  have pushed := empty.push false tree
  simpa [Document.push, ofTree, size] using pushed

theorem Opened.sound (opened : Opened document) : document.Sound := by
  cases opened with
  | new tag => exact sound_ofTree false _
  | parse read =>
      obtain ⟨declared, tree, rfl⟩ := exists_ofTree_of_parse read
      exact sound_ofTree declared tree
  | parseFragment read =>
      obtain ⟨tree, rfl⟩ := exists_ofTree_of_parseFragment read
      exact sound_ofTree false tree

theorem isLive_root_of_parse {text : String} (read : parse text = .ok document) :
    document.isLive document.root = true := by
  obtain ⟨declared, tree, rfl⟩ := exists_ofTree_of_parse read
  have holds : (ofTree declared tree).Holds ((Context.top [] []).fill [tree.outline 0]) :=
    holds_ofTree declared tree
  have top := (holds_fill_iff.mp holds).top.live
  rwa [Tree.id_outline] at top

theorem Sound.exists_context (sound : document.Sound) {id : NodeId}
    (live : document.isLive id = true) :
    ∃ (context : Context) (outline : Outline), outline.id = id ∧
      document.Holds (context.fill [outline]) :=
  sound.stands.exists_context live

theorem Sound.append (sound : document.Sound) {parent child : NodeId}
    (childLive : document.isLive child = true) (parentLive : document.isLive parent = true)
    (apart : parent ≠ child) (outside : parent ∉ document.descendants child) :
    (document.append parent child).Sound := by
  obtain ⟨context, outline, rfl, holds⟩ := sound.exists_context childLive
  rw [holds.descendants] at outside
  have notBelow : parent ∉ outline.ids := by
    rw [← Outline.node_eta outline, Outline.ids, List.mem_cons]
    exact fun member => member.elim apart outside
  have appended := holds.append parentLive notBelow
  have ages := ages_append document parent outline.id
  rw [append_eq_link] at appended ages ⊢
  refine sound.move ages appended ?_ ?_ childLive fun id other => ?_
  · rw [size_link, size_detach]
  · intro id
    rw [isLive_link, isLive_detach]
  · rw [parent?_link_of_ne other, parent?_detach, if_neg other]

theorem Sound.insertBeside (sound : document.Sound) {offset : Nat} (small : offset ≤ 1)
    {anchor id : NodeId} (live : document.isLive id = true)
    (anchorLive : document.isLive anchor = true) (outside : anchor ∉ document.descendants id) :
    (document.insertBeside offset anchor id).1.Sound := by
  obtain ⟨context, outline, rfl, holds⟩ := sound.exists_context live
  rw [holds.descendants] at outside
  have place : anchor = outline.id ∨ anchor ∉ outline.ids := by
    rw [← Outline.node_eta outline, Outline.ids, List.mem_cons, Outline.id_node]
    by_cases same : anchor = outline.id
    · exact .inl same
    · exact .inr fun member => member.elim same outside
  have inserted := holds.insertBeside small anchorLive place
  have kept : ∀ other, other ≠ outline.id →
      (document.detach outline.id).parent? other = document.parent? other := by
    intro other apart
    rw [parent?_detach, if_neg apart]
  have ages := ages_insertBeside document offset anchor outline.id
  rcases document.insertBeside_cases offset anchor outline.id with same | ⟨parent, position, same⟩
  · rw [same] at inserted ages ⊢
    exact sound.move ages inserted (size_detach ..) (fun id => isLive_detach ..) live kept
  · rw [same] at inserted ages ⊢
    refine sound.move ages inserted ?_ ?_ live fun id other => ?_
    · rw [size_link, size_detach]
    · intro id
      rw [isLive_link, isLive_detach]
    · rw [parent?_link_of_ne other, kept id other]

/-- What is deleted with a node hangs below dead slots from then on. -/
theorem rests_delete (holds : document.Holds (context.fill [outline])) {inner : Outline}
    {parent : Option NodeId} (has : ∀ link ∈ inner.links parent, document.Has link)
    (inside : ∀ id ∈ inner.ids, id ∈ outline.ids)
    (top : (document.delete outline.id).Rests inner.id) :
    ∀ id ∈ inner.ids, (document.delete outline.id).Rests id := by
  induction inner using Outline.induction generalizing parent with
  | node above children ih =>
      intro id member
      rw [Outline.ids, List.mem_cons] at member
      rcases member with rfl | below
      · exact top
      · obtain ⟨child, listed, deeper⟩ := Outline.mem_idsAll.mp below
        have childHas := has_of_child has listed
        have childInside : ∀ id ∈ child.ids, id ∈ outline.ids := by
          intro id member
          apply inside
          rw [Outline.ids, List.mem_cons]
          exact .inr (Outline.mem_idsAll.mpr ⟨child, listed, member⟩)
        refine ih child listed childHas childInside ?_ id deeper
        have stands := (childHas _ (top_mem_links child _)).parent
        by_cases same : child.id = outline.id
        · exact .free (by rw [parent?_delete holds, if_pos same])
        · have aboveIn := inside above (by simp [Outline.ids])
          have stays : (document.delete outline.id).Above above child.id := by
            rw [Above, parent?_delete holds, if_neg same]
            exact stands
          refine .under stays ?_ ?_ top
          · have live := (has _ (top_mem_links _ parent)).live
            exact Nat.lt_of_lt_of_le (lt_size_of_isLive live) (ages_delete ..).size_le
          · rw [isLive_delete holds, if_pos aboveIn]

theorem Stands.delete (stands : document.Stands) (id : NodeId) : (document.delete id).Stands := by
  by_cases live : document.isLive id = true
  · obtain ⟨context, outline, rfl, holds⟩ := stands.exists_context live
    exact ⟨_, holds.delete⟩
  · rw [delete_of_dead (by simpa using live)]
    exact stands

theorem Sound.delete (sound : document.Sound) (id : NodeId) : (document.delete id).Sound := by
  by_cases live : document.isLive id = true
  · obtain ⟨context, outline, rfl, holds⟩ := sound.exists_context live
    have inside := holds_fill_iff.mp holds
    refine sound.carry (ages_delete ..) ⟨_, holds.delete⟩ ?_ ?_
    · intro other _ dead
      rw [parent?_delete holds, if_neg]
      rintro rfl
      rw [live] at dead
      exact absurd dead (by decide)
    · intro other bound dead
      rw [isLive_delete holds] at dead
      by_cases below : other ∈ outline.ids
      · right
        refine rests_delete holds inside.links (fun id member => member) ?_ other below
        exact .free (by rw [parent?_delete holds, if_pos rfl])
      · rw [if_neg below] at dead
        have size : (document.delete outline.id).size = document.size := by
          rw [Document.delete, if_pos live, size_detach,
            size_foldl fun document id => size_modify document id _]
        exact .inl ⟨size ▸ bound, dead⟩
  · rw [delete_of_dead (by simpa using live)]
    exact sound

theorem graft_of_dead (document : Document) {source : Document} {id : NodeId}
    (bare : source.children id = []) (dead : source.isLive id = false) :
    document.graft source id = document.push
      [{ toElement := (source.node id).toElement, isNew := true, live := false }] := by
  have leaf : source.liveTree id = .node (source.node id).toElement [] := by
    rw [liveTree]
    cases source.size <;> simp [treeTo, bare]
  have died : ∀ (nodes : Array Node) (node : Node),
      (nodes ++ #[node]).modify nodes.size (fun node => { node with live := false }) =
        nodes ++ #[{ node with live := false }] := by
    intro nodes node
    apply Array.ext
    · simp
    · intro index bound _
      rw [Array.getElem_modify]
      rcases Nat.lt_or_ge index nodes.size with old | new
      · rw [if_neg (Nat.ne_of_gt old), Array.getElem_append_left old, Array.getElem_append_left old]
      · have last : index = nodes.size := by
          simp only [Array.size_modify, Array.size_append, List.size_toArray, List.length_singleton]
            at bound
          omega
        subst last
        simp
  rw [graft, leaf, dead]
  simp only [push, modify, Tree.layOut, Tree.layOutAll, Tree.roots, size]
  rw [died]

/-- A dead slot more does not show in the forest. -/
theorem Holds.push_dead {forest : List Outline} (holds : document.Holds forest) {node : Node}
    (dead : node.live = false) (bare : node.children = []) : (document.push [node]).1.Holds forest := by
  have old : ∀ id : Nat, id < document.size →
      (document.push [node]).1.node id = document.node id := fun id bound => node_push_of_lt _ bound
  have new : (document.push [node]).1.node document.size = node := (laid_push document [node]).1
  have size := size_push document [node]
  generalize (document.push [node]).1 = pushed at *
  rw [List.length_singleton] at size
  -- Every slot is an old one, the new one, or none at all.
  have slots : ∀ id : Nat, id < document.size ∨ id = document.size ∨ pushed.size ≤ id := by
    intro id
    rw [size]
    omega
  refine ⟨holds.nodup, ?_, ?_, ?_⟩
  · intro link member
    have has := holds.has link member
    exact has.of_same (old link.id (lt_size_of_isLive has.live))
  · intro id live
    rcases slots id with before | rfl | beyond
    · rw [isLive, old id before] at live
      exact holds.mem_of_isLive id live
    · rw [isLive, new, dead] at live
      exact absurd live (by decide)
    · exact absurd (lt_size_of_isLive live) (Nat.not_lt.mpr beyond)
  · intro id idDead
    rcases slots id with before | rfl | beyond
    · rw [isLive, old id before] at idDead
      rw [Document.children, old id before]
      exact holds.bare id idDead
    · rw [Document.children, new, bare]
    · rw [Document.children, node_of_le_size beyond]
      rfl

theorem Sound.push_dead (sound : document.Sound) {node : Node} (dead : node.live = false)
    (free : node.parent = none) (bare : node.children = []) :
    (document.push [node]).1.Sound := by
  obtain ⟨forest, holds⟩ := sound.forest
  refine sound.carry (ages_push document [node]) ⟨forest, holds.push_dead dead bare⟩ ?_ ?_
  · intro id before _
    rw [parent?, node_push_of_lt _ before]
    rfl
  · intro id inside idDead
    rw [size_push, List.length_singleton] at inside
    by_cases before : id < document.size
    · rw [isLive, node_push_of_lt _ before] at idDead
      exact .inl ⟨before, idDead⟩
    · obtain rfl : id = document.size := by omega
      refine .inr (.free ?_)
      rw [parent?, (laid_push document [node]).1, free]

theorem Stands.graft (stands : document.Stands) {source : Document} (others : source.Stands)
    (id : NodeId) : (document.graft source id).1.Stands := by
  obtain ⟨forest, holds⟩ := stands
  by_cases live : source.isLive id = true
  · rw [graft_of_isLive document live]
    exact ⟨_, holds.push true _⟩
  · have dead : source.isLive id = false := by simpa using live
    rw [graft_of_dead document (others.bare dead) dead]
    exact ⟨forest, holds.push_dead rfl rfl⟩

theorem Sound.graft (sound : document.Sound) {source : Document} (other : source.Sound)
    (id : NodeId) : (document.graft source id).1.Sound := by
  obtain ⟨forest, holds⟩ := other.forest
  by_cases live : source.isLive id = true
  · rw [graft_of_isLive document live]
    exact sound.push true _
  · have dead : source.isLive id = false := by simpa using live
    rw [graft_of_dead document (holds.bare id dead) dead]
    exact sound.push_dead rfl rfl rfl

theorem detach_of_free {id : NodeId} (free : document.parent? id = none) :
    document.detach id = document := by
  rw [detach, free]

/-- Nothing is put behind a dead node, since it is listed nowhere. -/
theorem Stands.insertAfter_of_dead (stands : document.Stands) {id copy : NodeId}
    (dead : document.isLive id = false) (free : document.parent? copy = none) :
    (document.insertAfter id copy).1 = document := by
  rw [insertAfter, Document.insertBeside, detach_of_free free]
  cases above : document.parent? id with
  | none => rfl
  | some parent =>
      have unlisted : (document.children parent).idxOf? id = none := by
        rw [List.idxOf?_eq_none_iff]
        intro lists
        rw [stands.child_live lists] at dead
        exact absurd dead (by decide)
      simp only [unlisted]

/-- A copy stands behind the node that is copied, or alone when that node is dead. -/
theorem Sound.cloneAfter (sound : document.Sound) (id : NodeId) :
    (document.cloneAfter id).1.Sound := by
  have copied : (document.cloneSubtree id).1.Sound := sound.graft sound id
  rw [cloneAfter_fst]
  by_cases live : document.isLive id = true
  · obtain ⟨context, outline, rfl, holds⟩ := sound.exists_context live
    have old : outline.id < document.size := lt_size_of_isLive live
    have beside := holds.cloneSubtree
    generalize outline.toTree document = tree at beside
    have stands : (document.cloneSubtree outline.id).1.Holds
        ((Context.top [] (context.fill [outline])).fill [tree.outline document.size]) := beside
    have below := stands.descendants
    have top := (holds_fill_iff.mp stands).top.live
    simp only [Tree.id_outline] at below top
    have anchor : (document.cloneSubtree outline.id).1.isLive outline.id = true := by
      rw [isLive, node_cloneSubtree _ old]
      exact live
    refine copied.insertBeside (Nat.le_refl 1) top anchor ?_
    rw [below]
    intro member
    have copy : outline.id ∈ (tree.outline document.size).ids := by
      rw [← Outline.node_eta (tree.outline document.size), Outline.ids]
      exact List.mem_cons_of_mem _ member
    rw [Tree.ids_outline] at copy
    exact absurd (List.mem_range'_1.mp copy).1 (Nat.not_le.mpr old)
  · have dead : document.isLive id = false := by simpa using live
    obtain ⟨forest, holds⟩ := sound.forest
    rw [cloneSubtree, graft_of_dead document (holds.bare id dead) dead] at copied ⊢
    have new := node_push_add document
      [{ toElement := (document.node id).toElement, isNew := true, live := false }]
    have stillDead : (document.push
        [{ toElement := (document.node id).toElement, isNew := true, live := false }]).1.isLive id =
          false := by
      rcases Nat.lt_or_ge id document.size with before | beyond
      · exact (ages_push document _).dead id before dead
      · obtain ⟨index, rfl⟩ := Nat.exists_eq_add_of_le beyond
        rw [isLive, new]
        cases index <;> rfl
    rw [copied.stands.insertAfter_of_dead stillDead]
    · exact copied
    · exact congrArg Node.parent (new 0)

theorem Sound.apply (sound : document.Sound) (edit : Edit) (allowed : edit.Allowed document) :
    (edit.apply document).Sound := by
  cases edit with
  | createElement tag => exact sound.push false (.node { tag } [])
  | append parent child =>
      obtain ⟨childLive, parentLive, apart, outside⟩ := allowed
      exact sound.append childLive parentLive apart outside
  | insertAfter anchor id =>
      obtain ⟨live, anchorLive, outside⟩ := allowed
      exact sound.insertBeside (Nat.le_refl 1) live anchorLive outside
  | insertBefore anchor id =>
      obtain ⟨live, anchorLive, outside⟩ := allowed
      exact sound.insertBeside (Nat.zero_le 1) live anchorLive outside
  | cloneSubtree id => exact sound.graft sound id
  | cloneAfter id => exact sound.cloneAfter id
  | delete id => exact sound.delete id
  | clearTextDeep id => exact (rewritten_clearTextDeep document id).sound sound
  | removeAttributeDeep id key => exact (rewritten_removeAttributeDeep document id key).sound sound
  | setText | pushText | setAttributes | setAttribute | removeAttribute =>
      refine (rewritten_modify document _ ?_ ?_ ?_ ?_).sound sound
      all_goals exact fun _ => rfl

/-- A run of edits keeps the links in agreement. -/
theorem Edited.sound {start document : Document} (edited : Edited start document)
    (sound : start.Sound) : document.Sound := by
  induction edited with
  | unchanged document => exact sound
  | edit _ edit allowed ih => exact (ih sound).apply edit allowed
  | graft _ opened _ id ih other => exact (ih sound).graft (other opened.sound) id

/-- However a document is edited, its links agree with each other, every live node below its root is
found once, and its slots stay with their tags. -/
theorem edited_wellFormed {start document : Document} (opened : Opened start)
    (edited : Edited start document) :
    document.WellFormed ∧
      ((document.descendants document.root).Nodup ∧
        ∀ id, id ∈ document.descendants document.root ↔
          document.isLive id = true ∧ TransGen document.Lists document.root id) ∧
      ∀ later, Edited document later →
        document.size ≤ later.size ∧ ∀ id < document.size, later.tag id = document.tag id := by
  have sound := edited.sound opened.sound
  refine ⟨sound.wellFormed, sound.descendants document.root, fun later more => ?_⟩
  exact ⟨more.ages.size_le, more.ages.tag⟩

theorem edited_wellFormed_rows :
    ∃ document, Edited (.new "w:tbl") document ∧ document.children 0 = [2] ∧
      document.isLive 1 = false ∧ document.WellFormed := by
  have made := (Edited.unchanged (.new "w:tbl")).edit (.createElement "w:tr") trivial
  have placed := made.edit (.append 0 1) ⟨by decide, by decide, by decide, by decide⟩
  have copied := placed.edit (.cloneAfter 1) trivial
  have removed := copied.edit (.delete 1) trivial
  exact ⟨_, removed, by decide, by decide, (edited_wellFormed (.new "w:tbl") removed).1⟩

end WordTemplate.Markup.Document
