import WordTemplate.Proofs.Wordml.Taking

/-! What goes when texts are removed: the texts with all that is below them, and runs in which nothing but
properties remains, with these. All else stays in a document as it is. -/

namespace WordTemplate

open Markup

namespace Markup.Document.Removes

variable {first second : Document} {gone : List NodeId} (removes : Removes gone first second)
include removes

theorem kept {id : NodeId} (live : second.isLive id = true) : id ∉ gone := by
  intro lost
  rw [removes.dead id lost] at live
  exact absurd live (by decide)

theorem lists_first (sound : second.Sound) {parent child : NodeId} (lists : second.Lists parent child) :
    first.Lists parent child := by
  rw [Lists, removes.children parent (removes.kept (sound.wellFormed.parent_live lists))] at lists
  exact (List.mem_filter.mp lists).1

theorem mem_gone_of_below (sound : first.Sound) {start id : NodeId} (lost : start ∈ gone)
    (below : id ∈ first.descendants start) : id ∈ gone := by
  have path := (((sound.descendants start).2 id).mp below).2
  clear below
  induction path with
  | single lists => exact removes.below _ lost _ lists
  | tail _ lists ih => exact removes.below _ ih _ lists

theorem mem_gone_of_parent (sound : first.Sound) {start id child : NodeId} (lost : start ∈ gone)
    (below : child ∈ first.descendants start) (lists : first.Lists id child) : id ∈ gone := by
  rcases sound.parent_of_mem_descendants below lists with rfl | above
  · exact lost
  · exact removes.mem_gone_of_below sound lost above

end Markup.Document.Removes

namespace Wordml

open Markup.Document (Removes)

/-- What goes with some texts: all that is below them, and runs around them that hold nothing more, with
their properties. -/
structure GoesWith (document : Document) (texts gone : List NodeId) : Prop where
  lost : ∀ id ∈ texts, id ∈ gone ∧ document.tag id = text
  goes : ∀ id ∈ gone, (∃ source ∈ texts, id ∈ source :: document.descendants source) ∨
    ∃ run, Emptied document texts gone run ∧ (id = run ∨ InProperties document run id)

namespace GoesWith

variable {document : Document} {texts gone : List NodeId} (goesWith : GoesWith document texts gone)
include goesWith

theorem goes_mono {texts' gone' : List NodeId} (more : texts ⊆ texts') (further : gone ⊆ gone') {id : NodeId}
    (lost : id ∈ gone) : (∃ source ∈ texts', id ∈ source :: document.descendants source) ∨
      ∃ run, Emptied document texts' gone' run ∧ (id = run ∨ InProperties document run id) := by
  rcases goesWith.goes id lost with ⟨source, member, place⟩ | ⟨run, emptied, place⟩
  · exact .inl ⟨source, more member, place⟩
  · exact .inr ⟨run, emptied.mono more further, place⟩

theorem subset_descendants (sound : document.Sound) {scope : NodeId} (notRun : document.tag scope ≠ run)
    (below : ∀ id ∈ texts, id ∈ document.descendants scope) : gone ⊆ document.descendants scope := by
  intro id lost
  rcases goesWith.goes id lost with ⟨source, member, place⟩ | ⟨run, emptied, place⟩
  · exact sound.descendants_subset (below source member) place
  · obtain ⟨source, member, lists⟩ := emptied.source
    have inside : run ∈ document.descendants scope :=
      (sound.parent_of_mem_descendants (below source member) lists).resolve_left
        fun same => notRun (same ▸ emptied.tag)
    rcases place with rfl | ⟨properties, inRun, _, deeper⟩
    · exact inside
    · exact sound.descendants_subset (sound.mem_descendants (.inr inside) inRun) deeper

/-- No other texts go, where texts hold nothing and properties no texts. -/
theorem mem_texts (bare : ∀ id, document.tag id = text → document.descendants id = [])
    (textless : ∀ run id, InProperties document run id → document.tag id ≠ text) {id : NodeId}
    (lost : id ∈ gone) (isText : document.tag id = text) : id ∈ texts := by
  rcases goesWith.goes id lost with ⟨source, member, place⟩ | ⟨other, emptied, rfl | inside⟩
  · rw [bare source (goesWith.lost source member).2, List.mem_singleton] at place
    exact place ▸ member
  · exact absurd (isText.symm.trans emptied.tag) (by decide)
  · exact absurd isText (textless other id inside)

end GoesWith

structure Strips (texts gone : List NodeId) (first second : Document) : Prop where
  sound : second.Sound
  removes : Removes gone first second
  goesWith : GoesWith first texts gone
  element : ∀ id, (second.node id).toElement = (first.node id).toElement

namespace Strips

variable {first second : Document} {texts gone : List NodeId}

theorem start (sound : first.Sound) : Strips [] [] first first where
  sound := sound
  removes := .of_sameLinks (.refl first) rfl rfl fun _ => rfl
  goesWith := ⟨by simp, by simp⟩
  element := fun _ => rfl

theorem lost_child (strips : Strips texts gone first second) (sound : first.Sound) {id child : NodeId}
    (live : second.isLive id = true) (lists : first.Lists id child) (lost : child ∈ gone) :
    child ∈ texts ∨ first.tag child = runProperties ∨ child ∈ gone ∧ first.tag child = run := by
  have kept := strips.removes.kept live
  rcases strips.goesWith.goes child lost with
    ⟨source, member, place⟩ | ⟨other, emptied, rfl | ⟨properties, inRun, tag, place⟩⟩
  · rcases List.mem_cons.mp place with rfl | deeper
    · exact .inl member
    · have lost := (strips.goesWith.lost source member).1
      exact absurd (strips.removes.mem_gone_of_parent sound lost deeper lists) kept
  · exact .inr (.inr ⟨lost, emptied.tag⟩)
  · rcases List.mem_cons.mp place with rfl | deeper
    · exact .inr (.inl tag)
    · have lostProperties := strips.removes.below _ emptied.lost _ inRun
      exact absurd (strips.removes.mem_gone_of_parent sound lostProperties deeper lists) kept

theorem below_first (strips : Strips texts gone first second) {start id : NodeId}
    (live : second.isLive start = true) (place : id ∈ start :: second.descendants start) :
    id ∈ start :: first.descendants start := by
  rcases List.mem_cons.mp place with rfl | below
  · exact List.mem_cons_self ..
  · rw [strips.removes.descendants (strips.removes.kept live)] at below
    exact List.mem_cons_of_mem _ (List.mem_filter.mp below).1

theorem removeText (strips : Strips texts gone first second) {id : NodeId} (isText : first.tag id = text)
    (live : second.isLive id = true) :
    Strips (texts ++ [id]) (gone ++ id :: second.descendants id) first (second.delete id) where
  sound := strips.sound.delete id
  removes := strips.removes.trans (strips.sound.removes_delete live)
  goesWith := by
    constructor
    · intro other member
      rcases List.mem_append.mp member with early | late
      · obtain ⟨lost, tag⟩ := strips.goesWith.lost other early
        exact ⟨List.mem_append_left _ lost, tag⟩
      · obtain rfl := List.mem_singleton.mp late
        exact ⟨by simp, isText⟩
    · intro other lost
      rcases List.mem_append.mp lost with early | late
      · exact strips.goesWith.goes_mono (List.subset_append_left ..) (List.subset_append_left ..) early
      · exact .inl ⟨id, by simp, strips.below_first live late⟩
  element := fun other => (strips.sound.toElement_delete id other).trans (strips.element other)

/-- A run goes in which only properties remain. -/
theorem removeRun (strips : Strips texts gone first second) (sound : first.Sound) {id : NodeId}
    (live : second.isLive id = true) (isRun : first.tag id = run)
    (source : ∃ source ∈ texts, first.Lists id source)
    (rest : ∀ child, second.Lists id child → first.tag child = runProperties) :
    Strips texts (gone ++ id :: second.descendants id) first (second.delete id) where
  sound := strips.sound.delete id
  removes := strips.removes.trans (strips.sound.removes_delete live)
  goesWith := by
    refine ⟨fun other member => ?_, ?_⟩
    · obtain ⟨lost, tag⟩ := strips.goesWith.lost other member
      exact ⟨List.mem_append_left _ lost, tag⟩
    have emptied : Emptied first texts (gone ++ id :: second.descendants id) id := by
      refine ⟨by simp, isRun, source, fun child lists => ?_⟩
      by_cases lost : child ∈ gone
      · rcases strips.lost_child sound live lists lost with member | tag | ⟨_, tag⟩
        · exact .inl member
        · exact .inr (.inl tag)
        · exact .inr (.inr ⟨List.mem_append_left _ lost, tag⟩)
      · refine .inr (.inl (rest child ?_))
        rw [Document.Lists, strips.removes.children id (strips.removes.kept live), List.mem_filter]
        exact ⟨lists, by simpa using lost⟩
    intro other lost
    rcases List.mem_append.mp lost with early | late
    · exact strips.goesWith.goes_mono (List.Subset.refl _) (List.subset_append_left ..) early
    rcases List.mem_cons.mp late with rfl | below
    · exact .inr ⟨other, emptied, .inl rfl⟩
    obtain ⟨child, lists, place⟩ := strips.sound.mem_descendants_iff.mp below
    have childLive := strips.sound.wellFormed.child_live lists
    have inRun := strips.removes.lists_first strips.sound lists
    refine .inr ⟨id, emptied, .inr ⟨child, inRun, rest child lists, ?_⟩⟩
    exact strips.below_first childLive (List.mem_cons.mpr place)
  element := fun other => (strips.sound.toElement_delete id other).trans (strips.element other)

theorem deleteText (strips : Strips texts gone first second) (sound : first.Sound) {id : NodeId}
    (isText : first.tag id = text) (before : first.isLive id = true) :
    ∃ more, Strips (texts ++ [id]) (gone ++ more) first (deleteText second id) := by
  by_cases live : second.isLive id = true
  · have removed := strips.removeText isText live
    rw [Wordml.deleteText]
    split
    · exact ⟨_, removed⟩
    · rename_i parent above
      split
      · rename_i left
        simp only [Bool.and_eq_true, decide_eq_true_eq, List.all_eq_true] at left
        obtain ⟨isRun, properties⟩ := left
        rw [removed.removes.tag] at isRun
        have lists := strips.sound.wellFormed.lists live above
        by_cases parentLive : (second.delete id).isLive parent = true
        · have emptied := removed.removeRun sound parentLive isRun
            ⟨id, by simp, strips.removes.lists_first strips.sound lists⟩
            fun child stands => (removed.removes.tag child).symm.trans (properties child stands)
          rw [List.append_assoc] at emptied
          exact ⟨_, emptied⟩
        · rw [Document.delete_of_dead (by simpa using parentLive)]
          exact ⟨_, removed⟩
      · exact ⟨_, removed⟩
  · have dead : second.isLive id = false := by simpa using live
    have lost : id ∈ gone := by
      by_contra left
      rw [strips.removes.live id left, before] at dead
      exact absurd dead (by decide)
    rw [deleteText_of_dead strips.sound dead]
    refine ⟨[], strips.sound, by simpa using strips.removes, ⟨fun other member => ?_, ?_⟩, strips.element⟩
    · rw [List.append_nil]
      rcases List.mem_append.mp member with early | late
      · exact strips.goesWith.lost other early
      · exact List.mem_singleton.mp late ▸ ⟨lost, isText⟩
    · intro other member
      rw [List.append_nil] at member ⊢
      exact strips.goesWith.goes_mono (List.subset_append_left ..) (List.Subset.refl _) member

theorem deleteTexts (strips : Strips texts gone first second) (sound : first.Sound) {ids : List NodeId}
    (own : ∀ id ∈ ids, first.tag id = text ∧ first.isLive id = true) :
    ∃ more, Strips (texts ++ ids) (gone ++ more) first (ids.foldl Wordml.deleteText second) := by
  induction ids generalizing second texts gone with
  | nil => exact ⟨[], by simpa using strips⟩
  | cons id rest ih =>
      rw [List.forall_mem_cons] at own
      obtain ⟨lost, step⟩ := strips.deleteText sound own.1.1 own.1.2
      obtain ⟨more, whole⟩ := ih step own.2
      rw [List.append_assoc, List.append_assoc] at whole
      exact ⟨lost ++ more, whole⟩

end Strips

end Wordml

end WordTemplate
