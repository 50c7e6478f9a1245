import Mathlib.Data.List.InsertIdx
import WordTemplate.Proofs.Markup.Edits

/-! Edits with the handles of any nodes, of dead ones too. Then dead nodes may list nodes and be listed
themselves, and no forest of live nodes stands in the store. What is left is that a node which is listed
knows the node that lists it, and that nodes which are moved only to their like list only their like. -/

namespace WordTemplate.Markup

theorem Outline.exists_link_of_child {parent : Option NodeId} {outline : Outline} :
    ∀ link ∈ outline.links parent, ∀ child ∈ link.children,
      ∃ below ∈ outline.links parent, below.id = child ∧ below.parent = some link.id := by
  induction outline using Outline.induction generalizing parent with
  | node id children ih =>
      intro link member child listed
      rw [links, List.mem_cons] at member
      rcases member with rfl | inner
      · obtain ⟨outline, stands, rfl⟩ := List.mem_map.mp listed
        have top := Document.top_mem_links outline (some id)
        refine ⟨⟨outline.id, some id, outline.children.map Outline.id⟩,
          List.mem_cons_of_mem _ ?_, rfl, rfl⟩
        rw [linksAll_eq, List.mem_flatMap]
        exact ⟨outline, stands, top⟩
      · rw [linksAll_eq, List.mem_flatMap] at inner
        obtain ⟨outline, stands, inside⟩ := inner
        obtain ⟨below, found, same⟩ := ih outline stands link inside child listed
        refine ⟨below, List.mem_cons_of_mem _ ?_, same⟩
        rw [linksAll_eq, List.mem_flatMap]
        exact ⟨outline, stands, found⟩

namespace Tree

mutual

theorem lt_of_mem_links_outline (first : NodeId) (parent : Option NodeId) (tree : Tree) :
    ∀ link ∈ (tree.outline first).links parent, ∀ child ∈ link.children, link.id < child := by
  cases tree with
  | node element children =>
      intro link member child listed
      rw [outline, Outline.links, List.mem_cons] at member
      rcases member with rfl | below
      · rw [map_id_outlines] at listed
        exact le_of_mem_roots listed
      · exact lt_of_mem_linksAll_outlines (first + 1) (some first) children link below child listed

theorem lt_of_mem_linksAll_outlines (first : NodeId) (parent : Option NodeId) (trees : List Tree) :
    ∀ link ∈ Outline.linksAll parent (outlines first trees), ∀ child ∈ link.children,
      link.id < child := by
  cases trees with
  | nil => simp [outlines, Outline.linksAll]
  | cons tree rest =>
      intro link member child listed
      rw [outlines, Outline.linksAll, List.mem_append] at member
      rcases member with here | later
      · exact lt_of_mem_links_outline first parent tree link here child listed
      · exact lt_of_mem_linksAll_outlines _ parent rest link later child listed

end

end Tree

namespace Document

open Relation (TransGen)

def Edit.handles : Edit → List NodeId
  | createElement _ => []
  | append parent child => [parent, child]
  | insertAfter anchor id | insertBefore anchor id => [anchor, id]
  | cloneSubtree id | cloneAfter id | delete id => [id]
  | setText id _ | pushText id _ | clearTextDeep id => [id]
  | setAttributes id _ | setAttribute id _ _ => [id]
  | removeAttribute id _ | removeAttributeDeep id _ => [id]

def Acyclic (document : Document) : Prop :=
  ∀ id, ¬ TransGen document.Lists id id

/-- Any nodes of the store may be named, dead or alive, as long as none comes below itself. -/
structure Edit.Free (document : Document) (edit : Edit) : Prop where
  within : ∀ id ∈ edit.handles, id < document.size
  acyclic : (edit.apply document).Acyclic

/-- A node comes below a live node only if it is alive, and below a dead one only if it is dead. -/
def Edit.ToLike (document : Document) : Edit → Prop
  | append parent child => document.isLive child = document.isLive parent
  | insertAfter anchor id | insertBefore anchor id =>
    ∀ parent, document.Lists parent anchor → document.isLive id = document.isLive parent
  | _ => True

structure Edit.Level (document : Document) (edit : Edit) : Prop extends Edit.Free document edit where
  toLike : edit.ToLike document

/-- The second document comes from the first one by edits that are allowed, and by bringing in parts of
documents that were opened and edited like this themselves. -/
inductive Run (allowed : Document → Edit → Prop) : Document → Document → Prop
  | unchanged (document : Document) : Run allowed document document
  | edit {start document : Document} (run : Run allowed start document) (edit : Edit)
      (may : allowed document edit) : Run allowed start (edit.apply document)
  | graft {start document origin source : Document} (run : Run allowed start document)
      (opened : Opened origin) (other : Run allowed origin source) {id : NodeId}
      (within : id < source.size) : Run allowed start (document.graft source id).1

theorem Run.mono {allowed permitted : Document → Edit → Prop}
    (more : ∀ document edit, allowed document edit → permitted document edit)
    {start document : Document} (run : Run allowed start document) : Run permitted start document := by
  induction run with
  | unchanged document => exact .unchanged document
  | edit _ edit may ih => exact ih.edit edit (more _ edit may)
  | graft _ opened _ within ih other => exact ih.graft opened other within

structure Tied (document : Document) : Prop where
  bound : ∀ {parent child}, document.Lists parent child → child < document.size
  above : ∀ {parent child}, document.Lists parent child → document.Above parent child

def Even (document : Document) : Prop :=
  ∀ parent child, document.Lists parent child → document.isLive child = document.isLive parent

theorem Sound.tied {document : Document} (sound : document.Sound) : document.Tied :=
  ⟨sound.wellFormed.child_lt_size, sound.wellFormed.above⟩

theorem Sound.even {document : Document} (sound : document.Sound) : document.Even := by
  intro parent child lists
  rw [sound.wellFormed.child_live lists, sound.wellFormed.parent_live lists]

theorem Sound.acyclic {document : Document} (sound : document.Sound) : document.Acyclic :=
  fun id cycle => sound.wellFormed.acyclic id
    (TransGen.mono (fun _ _ lists => sound.wellFormed.above lists) id id cycle)

section Links

variable {document first second : Document}

theorem Rewritten.tied (rewritten : Rewritten first second) (tied : first.Tied) : second.Tied := by
  constructor
  · intro parent child lists
    rw [Lists, rewritten.links.children] at lists
    rw [rewritten.size]
    exact tied.bound lists
  · intro parent child lists
    rw [Lists, rewritten.links.children] at lists
    rw [Above, rewritten.links.parent?]
    exact tied.above lists

theorem Rewritten.even (rewritten : Rewritten first second) (even : first.Even) : second.Even := by
  intro parent child lists
  rw [Lists, rewritten.links.children] at lists
  rw [rewritten.links.isLive, rewritten.links.isLive]
  exact even parent child lists

theorem Tied.lists_detach (tied : document.Tied) {id parent child : NodeId} :
    (document.detach id).Lists parent child ↔ document.Lists parent child ∧ child ≠ id := by
  rw [Lists, Lists, children_detach]
  split
  · rw [List.mem_filter, bne_iff_ne]
  · rename_i elsewhere
    rw [iff_self_and]
    rintro lists rfl
    exact elsewhere (tied.above lists)

theorem Tied.detach (tied : document.Tied) (id : NodeId) : (document.detach id).Tied := by
  constructor
  · intro parent child lists
    rw [size_detach]
    exact tied.bound (tied.lists_detach.mp lists).1
  · intro parent child lists
    obtain ⟨before, apart⟩ := tied.lists_detach.mp lists
    rw [Above, parent?_detach, if_neg apart]
    exact tied.above before

theorem Tied.even_detach (tied : document.Tied) (even : document.Even) (id : NodeId) :
    (document.detach id).Even := by
  intro parent child lists
  rw [isLive_detach, isLive_detach]
  exact even parent child (tied.lists_detach.mp lists).1

theorem lists_link {id parent : NodeId} {change : List NodeId → List NodeId}
    (adds : ∀ ids, ∀ child ∈ change ids, child = id ∨ child ∈ ids) {above child : NodeId}
    (lists : (document.link id parent change).Lists above child) :
    document.Lists above child ∨ above = parent ∧ child = id := by
  by_cases bound : parent < document.size
  · rw [Lists, children_link id bound] at lists
    split at lists
    · rename_i here
      subst here
      exact (adds _ child lists).elim (fun new => .inr ⟨rfl, new⟩) .inl
    · exact .inl lists
  · have still : (document.link id parent change).children above = document.children above := by
      have kept : (document.modify id fun node => { node with parent := some parent }).children above =
          document.children above := children_modify document id above fun _ => rfl
      rw [link, Document.children, node_modify, size_modify, if_neg]
      · exact kept
      · rintro ⟨rfl, inside⟩
        exact bound inside
    rw [Lists, still] at lists
    exact .inl lists

theorem Tied.link (tied : document.Tied) {id parent : NodeId} {change : List NodeId → List NodeId}
    (adds : ∀ ids, ∀ child ∈ change ids, child = id ∨ child ∈ ids)
    (free : ∀ above, ¬ document.Lists above id) (within : id < document.size) :
    (document.link id parent change).Tied := by
  constructor
  · intro above child lists
    rw [size_link]
    rcases lists_link adds lists with old | ⟨_, rfl⟩
    · exact tied.bound old
    · exact within
  · intro above child lists
    rw [Above, parent?_link within]
    rcases lists_link adds lists with old | ⟨rfl, rfl⟩
    · rw [if_neg]
      · exact tied.above old
      · rintro rfl
        exact free above old
    · rw [if_pos rfl]

theorem even_link (even : document.Even) {id parent : NodeId} {change : List NodeId → List NodeId}
    (adds : ∀ ids, ∀ child ∈ change ids, child = id ∨ child ∈ ids)
    (like : document.isLive id = document.isLive parent) :
    (document.link id parent change).Even := by
  intro above child lists
  rw [isLive_link, isLive_link]
  rcases lists_link adds lists with old | ⟨rfl, rfl⟩
  · exact even above child old
  · exact like

theorem Tied.free_detach (tied : document.Tied) (id above : NodeId) :
    ¬ (document.detach id).Lists above id :=
  fun lists => (tied.lists_detach.mp lists).2 rfl

theorem adds_append (id : NodeId) (ids : List NodeId) :
    ∀ child ∈ ids ++ [id], child = id ∨ child ∈ ids := by
  intro child member
  rw [List.mem_append, List.mem_singleton] at member
  exact member.symm

theorem adds_insertIdx (id : NodeId) (position : Nat) (ids : List NodeId) :
    ∀ child ∈ ids.insertIdx position id, child = id ∨ child ∈ ids :=
  fun _ member => List.eq_or_mem_of_mem_insertIdx member

theorem insertBeside_eq (document : Document) (offset : Nat) (anchor id : NodeId) :
    (document.insertBeside offset anchor id).1 = document.detach id ∨
      ∃ parent position, (document.detach id).Lists parent anchor ∧
        (document.insertBeside offset anchor id).1 =
          (document.detach id).link id parent (·.insertIdx position id) := by
  cases stands : (document.detach id).parent? anchor with
  | none =>
      rw [insertBeside, stands]
      exact .inl rfl
  | some parent =>
      cases place : ((document.detach id).children parent).idxOf? anchor with
      | none =>
          refine .inl ?_
          rw [insertBeside, stands]
          simp only [place]
      | some position =>
          refine .inr ⟨parent, position + offset, ?_, insertBeside_of_idxOf? stands place⟩
          have found : ((document.detach id).children parent).idxOf? anchor ≠ none := by simp [place]
          rw [Lists]
          simpa [List.idxOf?_eq_none_iff] using found

theorem Tied.insertBeside (tied : document.Tied) (offset : Nat) (anchor : NodeId) {id : NodeId}
    (within : id < document.size) : (document.insertBeside offset anchor id).1.Tied := by
  have detached := tied.detach id
  rcases document.insertBeside_eq offset anchor id with same | ⟨parent, position, _, same⟩
  · rw [same]
    exact detached
  · rw [same]
    refine detached.link (adds_insertIdx id position) (tied.free_detach id) ?_
    rwa [size_detach]

theorem Tied.even_insertBeside (tied : document.Tied) (even : document.Even) (offset : Nat)
    {anchor id : NodeId}
    (like : ∀ parent, document.Lists parent anchor → document.isLive id = document.isLive parent) :
    (document.insertBeside offset anchor id).1.Even := by
  have detached := tied.even_detach even id
  rcases document.insertBeside_eq offset anchor id with same | ⟨parent, position, lists, same⟩
  · rw [same]
    exact detached
  · rw [same]
    refine even_link detached (adds_insertIdx id position) ?_
    rw [isLive_detach, isLive_detach]
    exact like parent (tied.lists_detach.mp lists).1

/-! Deleting -/

def sever (document : Document) (ids : List NodeId) : Document :=
  ids.foldl
    (fun document id => document.modify id fun node => { node with live := false, children := [] })
    document

theorem delete_eq {id : NodeId} (live : document.isLive id = true) :
    document.delete id = (document.sever (document.linkedTo document.size id)).detach id :=
  if_pos live

theorem node_sever (ids : List NodeId) (document : Document) (other : NodeId) :
    (document.sever ids).node other =
      if other ∈ ids ∧ other < document.size then
        { document.node other with live := false, children := [] }
      else document.node other := by
  induction ids generalizing document with
  | nil => simp [sever]
  | cons id rest ih =>
      have step : document.sever (id :: rest) = (document.modify id fun node =>
        { node with live := false, children := [] }).sever rest := rfl
      rw [step, ih, node_modify, size_modify]
      by_cases here : other = id
      · subst here
        by_cases bound : other < document.size
        · simp [bound]
        · simp [bound]
      · simp [here]

@[simp]
theorem size_sever (ids : List NodeId) (document : Document) :
    (document.sever ids).size = document.size :=
  size_foldl (fun document id => size_modify document id _) ids document

theorem isLive_sever (ids : List NodeId) (document : Document) (other : NodeId) :
    (document.sever ids).isLive other = (document.isLive other && other ∉ ids) := by
  by_cases bound : other < document.size
  · rw [isLive, node_sever]
    by_cases lost : other ∈ ids
    · simp [lost, bound]
    · simp [lost, isLive]
  · have beyond := Nat.le_of_not_lt bound
    rw [isLive, node_of_le_size (by rwa [size_sever]), isLive, node_of_le_size beyond]
    rfl

theorem lists_sever {ids : List NodeId} {parent child : NodeId} :
    (document.sever ids).Lists parent child ↔ document.Lists parent child ∧ parent ∉ ids := by
  by_cases bound : parent < document.size
  · rw [Lists, children, node_sever]
    by_cases lost : parent ∈ ids
    · simp [lost, bound]
    · simp [lost, Lists, children]
  · have beyond := Nat.le_of_not_lt bound
    rw [Lists, children, node_of_le_size (by rwa [size_sever]), Lists, children,
      node_of_le_size beyond]
    simp [Node.absent]

theorem Tied.sever (tied : document.Tied) (ids : List NodeId) : (document.sever ids).Tied := by
  constructor
  · intro parent child lists
    rw [size_sever]
    exact tied.bound (lists_sever.mp lists).1
  · intro parent child lists
    have above := tied.above (lists_sever.mp lists).1
    rw [Above, parent?] at above ⊢
    rw [node_sever]
    split
    · exact above
    · exact above

theorem exists_lists_of_linkedTo {depth : Nat} {id child : NodeId}
    (linked : child ∈ document.linkedTo depth id) (apart : child ≠ id) :
    ∃ parent ∈ document.linkedTo depth id, document.Lists parent child := by
  induction depth generalizing id with
  | zero => exact absurd (by simpa [linkedTo] using linked) apart
  | succ depth ih =>
      rw [linkedTo, List.mem_cons, List.mem_flatMap] at linked
      obtain ⟨top, lists, inside⟩ := linked.resolve_left apart
      by_cases here : child = top
      · subst here
        exact ⟨id, by simp [linkedTo], lists⟩
      · obtain ⟨parent, below, found⟩ := ih inside here
        refine ⟨parent, ?_, found⟩
        rw [linkedTo, List.mem_cons, List.mem_flatMap]
        exact .inr ⟨top, lists, below⟩

theorem Tied.delete (tied : document.Tied) (id : NodeId) : (document.delete id).Tied := by
  by_cases live : document.isLive id = true
  · rw [delete_eq live]
    exact (tied.sever _).detach id
  · rw [delete_of_dead (by simpa using live)]
    exact tied

/-- A node dies with the one that lists it, unless it is the one that is deleted. -/
theorem Tied.even_delete (tied : document.Tied) (even : document.Even) (id : NodeId) :
    (document.delete id).Even := by
  by_cases live : document.isLive id = true
  · rw [delete_eq live]
    intro parent child lists
    obtain ⟨lists, apart⟩ := (tied.sever _).lists_detach.mp lists
    obtain ⟨lists, kept⟩ := lists_sever.mp lists
    have childKept : child ∉ document.linkedTo document.size id := by
      intro lost
      obtain ⟨other, otherLost, found⟩ := exists_lists_of_linkedTo lost apart
      have same : other = parent :=
        Option.some.inj ((tied.above found).symm.trans (tied.above lists))
      exact kept (same ▸ otherLost)
    rw [isLive_detach, isLive_detach, isLive_sever, isLive_sever]
    simp [kept, childKept, even parent child lists]
  · rw [delete_of_dead (by simpa using live)]
    exact even

/-! Bringing in -/

theorem lists_createElement {tag : String} {parent child : NodeId}
    (lists : (document.createElement tag).1.Lists parent child) :
    parent < document.size ∧ document.Lists parent child := by
  rw [createElement, Lists, children] at lists
  rcases Nat.lt_or_ge parent document.size with before | beyond
  · rw [node_push_of_lt _ before] at lists
    exact ⟨before, lists⟩
  · obtain ⟨index, rfl⟩ := Nat.exists_eq_add_of_le beyond
    rw [node_push_add] at lists
    cases index with
    | zero => exact absurd lists List.not_mem_nil
    | succ index => exact absurd lists List.not_mem_nil

theorem Tied.createElement (tied : document.Tied) (tag : String) :
    (document.createElement tag).1.Tied := by
  constructor
  · intro parent child lists
    have bound := tied.bound (lists_createElement lists).2
    exact Nat.lt_of_lt_of_le bound (ages_push document _).size_le
  · intro parent child lists
    have old := (lists_createElement lists).2
    rw [Document.createElement, Above, parent?, node_push_of_lt _ (tied.bound old)]
    exact tied.above old

theorem Tied.even_createElement (tied : document.Tied) (even : document.Even) (tag : String) :
    (document.createElement tag).1.Even := by
  intro parent child lists
  obtain ⟨before, old⟩ := lists_createElement lists
  rw [Document.createElement, isLive, isLive, node_push_of_lt _ before,
    node_push_of_lt _ (tied.bound old)]
  exact even parent child old

theorem parent?_graft_top (document source : Document) (top : NodeId) :
    (document.graft source top).1.parent? document.size = none := by
  rw [parent?, node_graft, if_pos rfl]
  have laid := laid_push document ((source.liveTree top).layOut true none document.size)
  rw [← Tree.node_eta (source.liveTree top)] at laid ⊢
  exact congrArg Node.parent laid.1

/-- Every listing behind the old nodes is a link of the tree that was laid out there. -/
theorem exists_links_of_push (document : Document) (tree : Tree) {parent child : NodeId}
    (beyond : document.size ≤ parent)
    (lists : child ∈ (document.push (tree.layOut true none document.size)).1.children parent) :
    ∃ upper ∈ (tree.outline document.size).links none,
      ∃ lower ∈ (tree.outline document.size).links none,
        upper.id = parent ∧ child ∈ upper.children ∧ lower.id = child ∧ lower.parent = some parent := by
  have laid := laid_push document (tree.layOut true none document.size)
  have size := size_push document (tree.layOut true none document.size)
  rw [Tree.length_layOut] at size
  have within : parent < document.size + tree.size := by
    rw [← size]
    by_contra outside
    rw [children, node_of_le_size (Nat.le_of_not_lt outside)] at lists
    simp [Node.absent] at lists
  have member : parent ∈ (tree.outline document.size).ids := by
    rw [Tree.ids_outline]
    exact List.mem_range'_1.mpr ⟨beyond, within⟩
  rw [← Outline.map_id_links none, List.mem_map] at member
  obtain ⟨upper, stands, rfl⟩ := member
  rw [(has_of_laid laid upper stands).children] at lists
  obtain ⟨lower, found, below, above⟩ := Outline.exists_link_of_child upper stands child lists
  exact ⟨upper, stands, lower, found, rfl, lists, below, above⟩

/-- What a copy lists lies in the copy. All of it is live except perhaps its top, which lists what is
live below the node that was copied. -/
structure ListedInCopy (document source : Document) (id parent child : NodeId) : Prop where
  beyond : document.size ≤ parent
  behind : parent < child
  bound : child < (document.graft source id).1.size
  above : (document.graft source id).1.Above parent child
  live : (document.graft source id).1.isLive child = true
  inner : parent ≠ document.size → (document.graft source id).1.isLive parent = true
  top : parent = document.size → (source.liveTree id).children ≠ []

theorem listedInCopy {source : Document} {id parent child : NodeId} (beyond : document.size ≤ parent)
    (lists : child ∈ (document.push ((source.liveTree id).layOut true none document.size)).1.children
      parent) : ListedInCopy document source id parent child := by
  have has := has_of_laid (laid_push document ((source.liveTree id).layOut true none document.size))
  obtain ⟨upper, stands, lower, found, rfl, listed, rfl, above⟩ :=
    exists_links_of_push document (source.liveTree id) beyond lists
  have first := has _ (top_mem_links _ none)
  rw [Tree.id_outline] at first
  -- marking the top of the copy as live changes no other node
  have apart : lower.id ≠ document.size := by
    intro same
    have free := (has lower found).parent
    rw [same, first.parent, above] at free
    cases free
  have kept : ∀ other : Nat, other ≠ document.size → (document.graft source id).1.node other =
      (document.push ((source.liveTree id).layOut true none document.size)).1.node other :=
    fun other inner => by rw [node_graft, if_neg inner]
  have below := (has lower found).of_same (kept _ apart)
  exact {
    beyond := beyond
    behind := Tree.lt_of_mem_links_outline document.size none _ upper stands _ listed
    bound := lt_size_of_isLive below.live
    above := below.parent.trans above
    live := below.live
    inner := fun inner => ((has upper stands).of_same (kept _ inner)).live
    top := fun same leaf => by
      have children := (has upper stands).children.symm
      rw [same, first.children] at children
      rw [children, ← Tree.node_eta (source.liveTree id), leaf] at listed
      exact absurd listed List.not_mem_nil }

/-- What is listed in a document with a copy was listed before, or belongs to the copy. -/
theorem lists_graft {source : Document} {id parent child : NodeId}
    (lists : (document.graft source id).1.Lists parent child) :
    parent < document.size ∧ document.Lists parent child ∨
      ListedInCopy document source id parent child := by
  rw [Lists, children, node_graft] at lists
  rcases Nat.lt_or_ge parent document.size with before | beyond
  · rw [if_neg (Nat.ne_of_lt before), node_push_of_lt _ before] at lists
    exact .inl ⟨before, lists⟩
  · refine .inr (listedInCopy beyond ?_)
    split at lists
    · exact lists
    · exact lists

theorem Tied.graft (tied : document.Tied) (source : Document) (id : NodeId) :
    (document.graft source id).1.Tied := by
  have ages := ages_graft document source id
  constructor
  · intro parent child lists
    rcases lists_graft lists with ⟨_, old⟩ | ⟨_, _, bound, _⟩
    · exact Nat.lt_of_lt_of_le (tied.bound old) ages.size_le
    · exact bound
  · intro parent child lists
    rcases lists_graft lists with ⟨_, old⟩ | ⟨_, _, _, above, _⟩
    · have bound := tied.bound old
      rw [Above, parent?, node_graft, if_neg (Nat.ne_of_lt bound), node_push_of_lt _ bound]
      exact tied.above old
    · exact above

/-- From an old node only old ones are reached, and from a new one only newer ones. -/
theorem Tied.reached_graft (tied : document.Tied) {source : Document} {id first last : NodeId}
    (path : TransGen (document.graft source id).1.Lists first last) :
    first < document.size ∧ last < document.size ∧ TransGen document.Lists first last ∨
      document.size ≤ first ∧ first < last := by
  induction path with
  | single lists =>
      rcases lists_graft lists with ⟨before, old⟩ | ⟨beyond, behind, _⟩
      · exact .inl ⟨before, tied.bound old, .single old⟩
      · exact .inr ⟨beyond, behind⟩
  | tail _ lists ih =>
      rcases lists_graft lists with ⟨before, old⟩ | ⟨beyond, behind, _⟩
      · rcases ih with ⟨start, _, path⟩ | ⟨start, further⟩
        · exact .inl ⟨start, tied.bound old, path.tail old⟩
        · exact absurd before (Nat.not_lt.mpr (Nat.le_trans start (Nat.le_of_lt further)))
      · rcases ih with ⟨_, old, _⟩ | ⟨start, further⟩
        · exact absurd old (Nat.not_lt.mpr beyond)
        · exact .inr ⟨start, Nat.lt_trans further behind⟩

theorem Tied.acyclic_graft (tied : document.Tied) (acyclic : document.Acyclic) (source : Document)
    (id : NodeId) : (document.graft source id).1.Acyclic := by
  intro other cycle
  rcases tied.reached_graft cycle with ⟨_, _, old⟩ | ⟨_, less⟩
  · exact acyclic other old
  · exact Nat.lt_irrefl _ less

/-- A copy of a dead node has no children, since the node lists no live ones. -/
theorem Tied.even_graft (tied : document.Tied) (even : document.Even) {source : Document}
    (other : source.Even) (id : NodeId) : (document.graft source id).1.Even := by
  intro parent child lists
  rcases lists_graft lists with ⟨before, old⟩ | ⟨_, _, _, _, childLive, inner, top⟩
  · rw [isLive_graft_of_lt before, isLive_graft_of_lt (tied.bound old)]
    exact even parent child old
  · rw [childLive]
    by_cases here : parent = document.size
    · have some := top here
      rw [here, isLive_graft_top]
      rw [liveTree] at some
      cases depth : source.size with
      | zero =>
          rw [depth] at some
          exact absurd rfl some
      | succ rest =>
          rw [depth, treeTo, Tree.children, Ne, List.map_eq_nil_iff] at some
          obtain ⟨below, member⟩ := List.exists_mem_of_ne_nil _ some
          obtain ⟨listed, live⟩ := List.mem_filter.mp member
          exact live.symm.trans (other id below listed)
    · exact (inner here).symm

theorem Tied.cloneAfter (tied : document.Tied) {id : NodeId} (within : id < document.size) :
    (document.cloneAfter id).1.Tied ∧ (document.Even → (document.cloneAfter id).1.Even) := by
  have copied := tied.graft document id
  rw [cloneAfter_fst]
  refine ⟨copied.insertBeside 1 id (lt_size_graft document document id), fun even => ?_⟩
  refine copied.even_insertBeside (tied.even_graft even even id) 1 fun parent lists => ?_
  rcases lists_graft lists with ⟨before, old⟩ | ⟨beyond, behind, _⟩
  · rw [isLive_graft_of_lt before]
    exact (isLive_graft_top document document id).trans (even parent id old)
  · exact absurd within (Nat.not_lt.mpr (Nat.le_trans beyond (Nat.le_of_lt behind)))

end Links

section Runs

variable {start document : Document}

theorem Tied.apply (tied : document.Tied) {edit : Edit}
    (within : ∀ id ∈ edit.handles, id < document.size) : (edit.apply document).Tied := by
  cases edit with
  | createElement tag => exact tied.createElement tag
  | append parent child =>
      refine (tied.detach child).link (adds_append child) (tied.free_detach child) ?_
      rw [size_detach]
      exact within child (by simp [Edit.handles])
  | insertAfter anchor id =>
      exact tied.insertBeside 1 anchor (within id (by simp [Edit.handles]))
  | insertBefore anchor id =>
      exact tied.insertBeside 0 anchor (within id (by simp [Edit.handles]))
  | cloneSubtree id => exact tied.graft document id
  | cloneAfter id => exact (tied.cloneAfter (within id (by simp [Edit.handles]))).1
  | delete id => exact tied.delete id
  | clearTextDeep id => exact (rewritten_clearTextDeep document id).tied tied
  | removeAttributeDeep id key => exact (rewritten_removeAttributeDeep document id key).tied tied
  | setText | pushText | setAttributes | setAttribute | removeAttribute =>
      refine (rewritten_modify document _ ?_ ?_ ?_ ?_).tied tied
      all_goals exact fun _ => rfl

theorem Tied.even_apply (tied : document.Tied) (even : document.Even) {edit : Edit}
    (level : edit.Level document) : (edit.apply document).Even := by
  obtain ⟨⟨within, _⟩, toLike⟩ := level
  cases edit with
  | createElement tag => exact tied.even_createElement even tag
  | append parent child =>
      have like : (document.detach child).isLive child = (document.detach child).isLive parent := by
        rw [isLive_detach, isLive_detach]
        exact toLike
      rw [Edit.apply, append_eq_link]
      exact even_link (tied.even_detach even child) (adds_append child) like
  | insertAfter anchor id => exact tied.even_insertBeside even 1 toLike
  | insertBefore anchor id => exact tied.even_insertBeside even 0 toLike
  | cloneSubtree id => exact tied.even_graft even even id
  | cloneAfter id => exact (tied.cloneAfter (within id (by simp [Edit.handles]))).2 even
  | delete id => exact tied.even_delete even id
  | clearTextDeep id => exact (rewritten_clearTextDeep document id).even even
  | removeAttributeDeep id key => exact (rewritten_removeAttributeDeep document id key).even even
  | setText | pushText | setAttributes | setAttribute | removeAttribute =>
      refine (rewritten_modify document _ ?_ ?_ ?_ ?_).even even
      all_goals exact fun _ => rfl

theorem Run.tied (run : Run (fun document edit => edit.Free document) start document)
    (tied : start.Tied) : document.Tied := by
  induction run with
  | unchanged document => exact tied
  | edit _ edit free ih => exact (ih tied).apply free.within
  | graft _ _ _ _ ih _ => exact (ih tied).graft _ _

theorem Run.even (run : Run (fun document edit => edit.Level document) start document)
    (sound : start.Sound) : document.Even := by
  induction run with
  | unchanged document => exact sound.even
  | edit run edit level ih =>
      have tied := (run.mono fun _ _ level => level.toFree).tied sound.tied
      exact tied.even_apply (ih sound) level
  | graft run opened _ _ ih other =>
      have tied := (run.mono fun _ _ level => level.toFree).tied sound.tied
      exact tied.even_graft (ih sound) (other opened.sound) _

theorem Run.acyclic (run : Run (fun document edit => edit.Free document) start document)
    (sound : start.Sound) : document.Acyclic := by
  induction run with
  | unchanged document => exact sound.acyclic
  | edit _ _ free _ => exact free.acyclic
  | graft run _ _ _ ih _ => exact (run.tied sound.tied).acyclic_graft (ih sound) _ _

end Runs

end Document

end WordTemplate.Markup
