import Mathlib.Order.WellFounded
import WordTemplate.Proofs.Markup.Moves

/-! Stores whose links agree with each other. That is so when the live slots stand in a forest and each
dead slot hangs, if anywhere, below dead slots. -/

namespace WordTemplate.Markup

theorem Outline.sublist_idsAll (outlines : List Outline) :
    (outlines.map Outline.id).Sublist (idsAll outlines) := by
  induction outlines with
  | nil => simp [idsAll]
  | cons outline rest ih =>
      have top : [outline.id].Sublist outline.ids :=
        List.singleton_sublist.mpr outline.id_mem_ids
      exact top.append ih

namespace Document

open Outline (idsAll)
open Relation (TransGen)

def Above (document : Document) (parent child : NodeId) : Prop :=
  document.parent? child = some parent

/-- A slot is listed among the children of another one. -/
def Lists (document : Document) (parent child : NodeId) : Prop :=
  child ∈ document.children parent

structure WellFormed (document : Document) : Prop where
  parent_lt_size : ∀ {parent child}, document.Above parent child → parent < document.size
  child_lt_size : ∀ {parent child}, document.Lists parent child → child < document.size
  above : ∀ {parent child}, document.Lists parent child → document.Above parent child
  nodup : ∀ id, (document.children id).Nodup
  child_live : ∀ {parent child}, document.Lists parent child → document.isLive child = true
  parent_live : ∀ {parent child}, document.Lists parent child → document.isLive parent = true
  lists : ∀ {parent child}, document.isLive child = true → document.Above parent child →
    document.Lists parent child
  bare : ∀ {id}, document.isLive id = false → document.children id = []
  acyclic : ∀ id, ¬ TransGen document.Above id id

inductive Rests (document : Document) : NodeId → Prop
  | free {id : NodeId} (parent : document.parent? id = none) : document.Rests id
  | under {parent id : NodeId} (above : document.Above parent id) (bound : parent < document.size)
      (dead : document.isLive parent = false) (rests : document.Rests parent) : document.Rests id

/-- The live slots stand in a forest. -/
def Stands (document : Document) : Prop :=
  ∃ forest, document.Holds forest

/-- The live slots stand in a forest, and the way up from the others does not lead there. -/
structure Sound (document : Document) : Prop where
  forest : ∃ forest, document.Holds forest
  rests : ∀ id, document.isLive id = false → document.Rests id

variable {document : Document} {context : Context} {outline : Outline}

theorem Holds.acc_above (holds : document.Holds (context.fill [outline])) :
    Acc document.Above outline.id := by
  induction context generalizing outline with
  | top before after =>
      have top := (holds_fill_iff.mp holds).top.parent
      refine .intro _ fun parent above => ?_
      rw [Above, top] at above
      simp [Context.parent?] at above
  | under outer before after id ih =>
      have top := (holds_fill_iff.mp holds).top.parent
      refine .intro _ fun parent above => ?_
      rw [Above, top] at above
      obtain rfl : id = parent := Option.some.inj above
      exact @ih (.node id (before ++ [outline] ++ after)) holds

theorem Rests.acc_above {id : NodeId} (rests : document.Rests id) : Acc document.Above id := by
  induction rests with
  | free free =>
      refine .intro _ fun parent above => ?_
      rw [Above, free] at above
      simp at above
  | under above _ _ _ ih =>
      refine .intro _ fun other stands => ?_
      obtain rfl := Option.some.inj (above.symm.trans stands)
      exact ih

theorem Sound.wellFounded_above (sound : document.Sound) : WellFounded document.Above := by
  refine ⟨fun id => ?_⟩
  obtain ⟨forest, holds⟩ := sound.forest
  by_cases live : document.isLive id = true
  · obtain ⟨context, outline, rfl, rfl⟩ := exists_context (holds.mem_of_isLive id live)
    exact holds.acc_above
  · exact (sound.rests id (by simpa using live)).acc_above

namespace Stands

variable (stands : document.Stands)
include stands

theorem exists_context {id : NodeId} (live : document.isLive id = true) :
    ∃ (context : Context) (outline : Outline),
      outline.id = id ∧ document.Holds (context.fill [outline]) := by
  obtain ⟨forest, holds⟩ := stands
  obtain ⟨context, outline, same, filled⟩ := Document.exists_context (holds.mem_of_isLive id live)
  exact ⟨context, outline, same, filled ▸ holds⟩

theorem bare {id : NodeId} (dead : document.isLive id = false) : document.children id = [] := by
  obtain ⟨forest, holds⟩ := stands
  exact holds.bare id dead

theorem child_live {parent child : NodeId} (lists : document.Lists parent child) :
    document.isLive child = true := by
  obtain ⟨forest, holds⟩ := stands
  exact holds.isLive_of_child lists

theorem parent_live {parent child : NodeId} (lists : document.Lists parent child) :
    document.isLive parent = true := by
  by_contra dead
  rw [Lists, stands.bare (by simpa using dead)] at lists
  simp at lists

theorem above {parent child : NodeId} (lists : document.Lists parent child) :
    document.Above parent child := by
  obtain ⟨context, outline, rfl, holds⟩ := stands.exists_context (stands.parent_live lists)
  have inside := holds_fill_iff.mp holds
  have top := inside.top.children
  simp only at top
  rw [Lists, top] at lists
  obtain ⟨below, listed, rfl⟩ := List.mem_map.mp lists
  have links := inside.links
  rw [← Outline.node_eta outline] at links
  exact (has_of_child links listed _ (top_mem_links below _)).parent

theorem nodup (id : NodeId) : (document.children id).Nodup := by
  by_cases live : document.isLive id = true
  · obtain ⟨context, outline, rfl, holds⟩ := stands.exists_context live
    have inside := holds_fill_iff.mp holds
    have nodup := inside.nodup_ids
    rw [← Outline.node_eta outline, Outline.ids, List.nodup_cons] at nodup
    rw [inside.top.children]
    exact (Outline.sublist_idsAll outline.children).nodup nodup.2
  · rw [stands.bare (by simpa using live)]
    exact List.nodup_nil

theorem lists {parent child : NodeId} (live : document.isLive child = true)
    (above : document.Above parent child) : document.Lists parent child := by
  obtain ⟨context, outline, rfl, holds⟩ := stands.exists_context live
  have inside := holds_fill_iff.mp holds
  have top := inside.top.parent
  simp only at top
  rw [Above, top] at above
  cases context with
  | top _ _ => simp [Context.parent?] at above
  | under outer before after id =>
      obtain rfl : id = parent := Option.some.inj above
      rw [Lists, inside.siblings.1]
      simp

/-- The links agree with each other if, beyond the forest, the ways up from dead slots end. -/
theorem wellFormed (bound : ∀ {parent child}, document.Above parent child → parent < document.size)
    (acyclic : ∀ id, ¬ TransGen document.Above id id) : document.WellFormed where
  parent_lt_size := bound
  child_lt_size := fun lists => lt_size_of_isLive (stands.child_live lists)
  above := stands.above
  nodup := stands.nodup
  child_live := stands.child_live
  parent_live := stands.parent_live
  lists := stands.lists
  bare := stands.bare
  acyclic := acyclic

end Stands

theorem Sound.stands (sound : document.Sound) : document.Stands :=
  sound.forest

theorem Sound.wellFormed (sound : document.Sound) : document.WellFormed := by
  refine sound.stands.wellFormed ?_ ?_
  · intro parent child above
    by_cases live : document.isLive child = true
    · obtain ⟨forest, holds⟩ := sound.forest
      exact lt_size_of_isLive (holds.isLive_parent live above)
    · cases sound.rests child (by simpa using live) with
      | free free => simp [Above, free] at above
      | under stands bound _ _ =>
          obtain rfl := Option.some.inj (stands.symm.trans above)
          exact bound
  · intro id cycle
    exact sound.wellFounded_above.transGen.asymmetric _ _ cycle cycle

/-- A slot stands below a live slot exactly when its lists of children lead there. -/
theorem Holds.mem_idsAll_children_iff (holds : document.Holds (context.fill [outline])) {id : NodeId} :
    id ∈ idsAll outline.children ↔ TransGen document.Lists outline.id id := by
  have listed : ∀ {context : Context} {outline : Outline},
      document.Holds (context.fill [outline]) → ∀ {child},
        document.Lists outline.id child ↔ child ∈ outline.children.map Outline.id := by
    intro context outline holds child
    rw [Lists, (holds_fill_iff.mp holds).top.children]
  have opened : ∀ {context : Context} {id : NodeId} {before after : List Outline} {below : Outline},
      document.Holds (context.fill [.node id (before ++ below :: after)]) →
        document.Holds ((Context.under context before after id).fill [below]) := by
    intro context id before after below holds
    simpa [Context.fill] using holds
  constructor
  · intro member
    induction outline using Outline.induction generalizing context with
    | node top children ih =>
        obtain ⟨below, stands, inside⟩ := Outline.mem_idsAll.mp member
        have first : document.Lists top below.id := (listed holds).mpr (List.mem_map_of_mem stands)
        rw [← Outline.node_eta below, Outline.ids, List.mem_cons] at inside
        rcases inside with rfl | deeper
        · exact .single first
        · obtain ⟨before, after, rfl⟩ := List.append_of_mem stands
          exact .head first (ih below stands (opened holds) deeper)
  · intro path
    generalize start : outline.id = top at path
    induction path using TransGen.head_induction_on generalizing context outline with
    | single step =>
        subst start
        exact (Outline.sublist_idsAll _).subset ((listed holds).mp step)
    | head step _ ih =>
        subst start
        obtain ⟨below, stands, rfl⟩ := List.mem_map.mp ((listed holds).mp step)
        obtain ⟨before, after, parts⟩ := List.append_of_mem stands
        have deeper := ih (opened (by rw [← parts, Outline.node_eta]; exact holds)) rfl
        refine Outline.mem_idsAll.mpr ⟨below, stands, ?_⟩
        rw [← Outline.node_eta below]
        exact List.mem_cons_of_mem _ deeper

theorem Stands.descendants (stands : document.Stands) (start : NodeId) :
    (document.descendants start).Nodup ∧
      ∀ id, id ∈ document.descendants start ↔
        document.isLive id = true ∧ TransGen document.Lists start id := by
  by_cases live : document.isLive start = true
  · obtain ⟨context, outline, rfl, holds⟩ := stands.exists_context live
    have inside := holds_fill_iff.mp holds
    have nodup := inside.nodup_ids
    rw [← Outline.node_eta outline, Outline.ids, List.nodup_cons] at nodup
    rw [holds.descendants]
    refine ⟨nodup.2, fun id => ⟨fun member => ?_, fun reached => ?_⟩⟩
    · refine ⟨inside.isLive_of_mem_idsAll ?_, holds.mem_idsAll_children_iff.mp member⟩
      rw [← Outline.node_eta outline]
      simp [idsAll, Outline.ids, member]
    · exact holds.mem_idsAll_children_iff.mpr reached.2
  · have bare := stands.bare (by simpa using live)
    have none : document.descendants start = [] := by
      rw [Document.descendants]
      cases document.size <;> simp [descendantsTo, bare]
    rw [none]
    refine ⟨List.nodup_nil, fun id => ⟨fun member => by simp at member, ?_⟩⟩
    rintro ⟨_, reached⟩
    obtain ⟨child, lists, _⟩ := TransGen.head'_iff.mp reached
    rw [Lists, bare] at lists
    simp at lists

theorem Sound.descendants (sound : document.Sound) (start : NodeId) :
    (document.descendants start).Nodup ∧
      ∀ id, id ∈ document.descendants start ↔
        document.isLive id = true ∧ TransGen document.Lists start id :=
  sound.stands.descendants start

end Document

end WordTemplate.Markup
