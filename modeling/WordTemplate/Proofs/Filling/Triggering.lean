import WordTemplate.Proofs.Filling.Aims

/-! Triggers that are carried out one after the other, each on the document that the earlier ones left.
When none of them takes away what another one starts from, all do what they were aimed at in the
beginning, in any order. -/

namespace WordTemplate.Filling

open Markup
open Markup.Document (Removes)

namespace Firing

/-- Where a trigger is seen from: its text, or what held it when the text is gone. -/
def origin? (document : Document) (firing : Firing) : Option NodeId :=
  if document.isLive firing.text then some firing.text else firing.holder

/-- What a trigger covers in a document; nothing if it does not fire or its origin is gone. -/
def found (document : Document) (firing : Firing) : List NodeId :=
  match firing.origin? document with
  | some origin =>
    if firing.trigger.fires firing.value && document.isLive origin then
      targets document origin firing.trigger.scope
    else []
  | none => []

def aims (document : Document) (firing : Firing) : List Aim :=
  (firing.found document).map fun target => ⟨firing.trigger.command, target⟩

theorem evaluate_eq (document : Document) (firing : Firing) :
    firing.evaluate document = carryOutAll document (firing.aims document) := by
  rw [evaluate, aims, carryOutAll, found, List.foldl_map, origin?]
  cases (if document.isLive firing.text then some firing.text else firing.holder) with
  | none => rfl
  | some origin =>
      simp only [Filling.evaluate]
      split <;> rfl

/-- What the text of a trigger is: a text element, if it is still there, below its holder. -/
structure Placed (document : Document) (firing : Firing) : Prop where
  tag : document.isLive firing.text = true → document.tag firing.text = Wordml.text
  parent : document.isLive firing.text = true → ∀ holder, firing.holder = some holder →
    document.parent? firing.text = some holder

/-- Whether a trigger takes away a node, with others that stand below the same target. -/
abbrev Takes (document : Document) (firing : Firing) (id : NodeId) : Prop :=
  Reached document .remove (firing.aims document) id

/-- The first trigger does not keep the second one from what it is aimed at. When it takes away the
place that the second one is seen from, but not what held that place, the scope of the second one has to
be larger than its placeholder; otherwise it takes away all that the second one is aimed at. -/
def Yields (document : Document) (first second : Firing) : Prop :=
  ∀ origin ∈ second.origin? document, first.Takes document origin →
    (∃ holder ∈ second.holder, ¬ first.Takes document holder) ∧ second.trigger.scope ≠ .placeholder ∨
      (∀ holder ∈ second.holder, first.Takes document holder) ∧
        ∀ target ∈ second.found document, first.Takes document target

instance (document : Document) (first second : Firing) : Decidable (first.Yields document second) :=
  inferInstanceAs (Decidable (∀ _ ∈ _, _))

end Firing

def plan (document : Document) (firings : List Firing) : List Aim :=
  firings.flatMap (Firing.aims document)

/-- Triggers of which none keeps another one from what it is aimed at. -/
structure Peaceful (document : Document) (firings : List Firing) : Prop where
  yields : firings.Pairwise fun first second =>
    first.Yields document second ∧ second.Yields document first
  /-- No properties that number a paragraph are removed by themselves. -/
  numbering : ∀ firing ∈ firings, firing.trigger.command = .remove →
    ∀ target ∈ firing.found document, document.tag target ∉ numberingTags

variable {first second : Document} {firings done : List Firing} {firing : Firing}

theorem reached_plan {command : Trigger.Command} {id : NodeId} :
    Reached first command (plan first firings) id ↔
      ∃ firing ∈ firings, Reached first command (firing.aims first) id := by
  simp only [Reached, plan, List.mem_flatMap]
  constructor
  · rintro ⟨aim, ⟨firing, member, listed⟩, place⟩
    exact ⟨firing, member, aim, listed, place⟩
  · rintro ⟨firing, member, aim, listed, place⟩
    exact ⟨aim, ⟨firing, member, listed⟩, place⟩

theorem Firing.live_of_mem_aims (sound : first.Sound) {aim : Aim} (member : aim ∈ firing.aims first) :
    first.isLive aim.target = true := by
  obtain ⟨target, inside, rfl⟩ := List.mem_map.mp member
  rw [Firing.found] at inside
  split at inside
  · split at inside
    · rename_i origin _ alive
      exact live_of_mem_targets sound.stands (Bool.and_eq_true_iff.mp alive).2 inside
    · simp at inside
  · simp at inside

section Step

variable (carried : CarriedOut first (plan first done) second) (sound : first.Sound)
  (numbering : ∀ firing ∈ done, firing.trigger.command = .remove →
    ∀ target ∈ firing.found first, first.tag target ∉ numberingTags)
include carried sound numbering

/-- From an origin that is left, a trigger finds what it was aimed at, as far as that is left. -/
theorem targets_carriedOut {gone : List NodeId} (removes : Removes gone first second)
    (lost : ∀ id, id ∈ gone ↔ Reached first .remove (plan first done) id) {origin : NodeId}
    (live : first.isLive origin = true) (left : origin ∉ gone) (scope : Trigger.Scope) :
    targets second origin scope = (targets first origin scope).filter (· ∉ gone) := by
  refine targets_removes removes sound (fun id left => ?_) live left scope
  refine list?_removes removes (fun id left => ?_) (fun parent child lists tagged childLost => ?_) left
  · rw [lost] at left
    by_cases reached : Reached first .clear (plan first done) id
    · rw [carried.cleared id left reached]
    · rw [carried.kept id left reached]
  · -- Properties go with the paragraph only, since they are no targets themselves.
    rw [lost, reached_plan] at childLost ⊢
    obtain ⟨firing, member, aim, listed, command, place⟩ := childLost
    refine ⟨firing, member, aim, listed, command, ?_⟩
    rcases place with rfl | below
    · obtain ⟨target, inside, rfl⟩ := List.mem_map.mp listed
      exact absurd tagged (numbering firing member command target inside)
    · exact sound.parent_of_mem_descendants below lists

section Found

variable {gone : List NodeId} (removes : Removes gone first second)
  (lost : ∀ id, id ∈ gone ↔ Reached first .remove (plan first done) id)
include removes lost

theorem found_of_origin_left {origin : NodeId} (before : firing.origin? first = some origin)
    (left : origin ∉ gone) (after : firing.origin? second = some origin) :
    firing.found second = (firing.found first).filter (· ∉ gone) := by
  rw [Firing.found, Firing.found, before, after]
  simp only [removes.live origin left]
  split
  · rename_i alive
    have live := (Bool.and_eq_true_iff.mp alive).2
    exact targets_carriedOut carried sound numbering removes lost live left _
  · rfl

theorem found_of_holder_left (placed : firing.Placed first) (live : first.isLive firing.text = true)
    (textLost : firing.text ∈ gone) {holder : NodeId} (held : firing.holder = some holder)
    (left : holder ∉ gone) (larger : firing.trigger.scope ≠ .placeholder) :
    firing.found second = (firing.found first).filter (· ∉ gone) := by
  have before : firing.origin? first = some firing.text := if_pos live
  have after : firing.origin? second = some holder := by
    rw [Firing.origin?, removes.dead _ textLost, if_neg (by decide), held]
  have stands := placed.parent live holder held
  have same := targets_of_holder sound live (placed.tag live) stands larger
  have holderLive := sound.wellFormed.parent_live (sound.wellFormed.lists live stands)
  rw [Firing.found, Firing.found, before, after]
  simp only [removes.live holder left, holderLive, live, Bool.and_true]
  split
  · rw [same]
    exact targets_carriedOut carried sound numbering removes lost holderLive left _
  · rfl

omit carried sound numbering removes lost in
theorem found_of_covered (covered : ∀ target ∈ firing.found first, target ∈ gone)
    (dead : ∀ origin, firing.origin? second = some origin → second.isLive origin = false) :
    firing.found second = (firing.found first).filter (· ∉ gone) := by
  have none : firing.found second = [] := by
    rw [Firing.found]
    split
    · rename_i origin seen
      rw [dead origin seen, Bool.and_false, if_neg (by decide)]
    · rfl
  rw [none, eq_comm, List.filter_eq_nil_iff]
  intro target member
  simpa using covered target member

omit carried sound numbering removes in
theorem mem_gone_of_takes {early : Firing} {id : NodeId} (member : early ∈ done)
    (took : early.Takes first id) : id ∈ gone :=
  (lost id).mpr (reached_plan.mpr ⟨early, member, took⟩)

omit carried sound numbering in
/-- When what held the text has gone with a trigger that took the origin, all that the trigger of the
text was aimed at has gone with it. -/
theorem found_of_holder_taken {early : Firing} (member : early ∈ done)
    (yields : early.Yields first firing) {origin holder : NodeId}
    (before : firing.origin? first = some origin) (took : early.Takes first origin)
    (held : firing.holder = some holder) (holderTook : early.Takes first holder)
    (after : firing.origin? second = some holder) :
    firing.found second = (firing.found first).filter (· ∉ gone) := by
  have gone_of_takes : ∀ {id}, early.Takes first id → id ∈ gone :=
    mem_gone_of_takes lost member
  rcases yields _ before took with ⟨⟨_, is, spared⟩, _⟩ | ⟨_, covered⟩
  · rw [held, Option.mem_some_iff] at is
    exact absurd (is ▸ holderTook) spared
  · refine found_of_covered (fun target found => gone_of_takes (covered target found)) ?_
    intro other seen
    rw [after, Option.some.injEq] at seen
    exact seen ▸ removes.dead holder (gone_of_takes holderTook)

theorem found_of_text_taken (placed : firing.Placed first)
    (yields : ∀ early ∈ done, early.Yields first firing) (live : first.isLive firing.text = true)
    (textLost : firing.text ∈ gone) : firing.found second = (firing.found first).filter (· ∉ gone) := by
  have before : firing.origin? first = some firing.text := if_pos live
  have after : firing.origin? second = firing.holder := if_neg (by simp [removes.dead _ textLost])
  obtain ⟨early, member, took⟩ := reached_plan.mp ((lost _).mp textLost)
  rcases yields early member _ before took with ⟨⟨holder, held, _⟩, larger⟩ | ⟨all, covered⟩
  · rw [Option.mem_def] at held
    by_cases holderLost : holder ∈ gone
    · -- What took the holder has taken the text as well.
      obtain ⟨other, otherMember, otherTook⟩ := reached_plan.mp ((lost _).mp holderLost)
      have lists := sound.wellFormed.lists live (placed.parent live holder held)
      have both := reached_of_mem_descendants sound.stands otherTook
        (sound.mem_descendants_iff.mpr ⟨_, lists, .inl rfl⟩)
      exact found_of_holder_taken removes lost otherMember
        (yields other otherMember) before both held otherTook (after.trans held)
    · exact found_of_holder_left carried sound numbering removes lost placed live textLost held
        holderLost larger
  · have gone_of_takes : ∀ {id}, early.Takes first id → id ∈ gone :=
      mem_gone_of_takes lost member
    refine found_of_covered (fun target found => gone_of_takes (covered target found)) ?_
    intro origin seen
    exact removes.dead origin (gone_of_takes (all origin (after.symm.trans seen)))

theorem found_of_text_dead (yields : ∀ early ∈ done, early.Yields first firing)
    (dead : ¬ first.isLive firing.text = true) :
    firing.found second = (firing.found first).filter (· ∉ gone) := by
  have before : firing.origin? first = firing.holder := if_neg dead
  have after : firing.origin? second = firing.holder := by
    refine if_neg ?_
    by_cases textLost : firing.text ∈ gone
    · simp [removes.dead _ textLost]
    · rw [removes.live _ textLost]
      exact dead
  cases held : firing.holder with
  | none =>
      rw [Firing.found, Firing.found, before, after, held]
      rfl
  | some holder =>
      rw [held] at before after
      by_cases holderLost : holder ∈ gone
      · obtain ⟨early, member, took⟩ := reached_plan.mp ((lost _).mp holderLost)
        exact found_of_holder_taken removes lost member
          (yields early member) before took held took after
      · exact found_of_origin_left carried sound numbering removes lost before holderLost after

/-- A trigger finds what it was aimed at, as far as that is left. -/
theorem found_carriedOut (placed : firing.Placed first)
    (yields : ∀ early ∈ done, early.Yields first firing) :
    firing.found second = (firing.found first).filter (· ∉ gone) := by
  by_cases live : first.isLive firing.text = true
  · by_cases textLost : firing.text ∈ gone
    · exact found_of_text_taken carried sound numbering removes lost placed yields live textLost
    · refine found_of_origin_left carried sound numbering removes lost (if_pos live) textLost ?_
      rw [Firing.origin?, removes.live _ textLost, if_pos live]
  · exact found_of_text_dead carried sound numbering removes lost yields live

end Found

theorem carriedOut_evaluate (placed : firing.Placed first)
    (yields : ∀ early ∈ done, early.Yields first firing) :
    CarriedOut first (plan first (done ++ [firing])) (firing.evaluate second) := by
  obtain ⟨gone, lost, removes⟩ := carried.removes
  have found := found_carriedOut carried sound numbering removes lost placed yields
  have inside : firing.aims second ⊆ firing.aims first := by
    intro aim member
    obtain ⟨target, listed, rfl⟩ := List.mem_map.mp member
    rw [found] at listed
    exact List.mem_map_of_mem (List.mem_filter.mp listed).1
  have live : ∀ aim ∈ firing.aims second, first.isLive aim.target = true :=
    fun aim member => Firing.live_of_mem_aims sound (inside member)
  have stepped := carried.steps sound.stands live
  rw [← Firing.evaluate_eq] at stepped
  have whole : plan first (done ++ [firing]) = plan first done ++ firing.aims first := by
    rw [plan, List.flatMap_append, List.flatMap_singleton]
    rfl
  -- What is not found any more has gone, with all that was below it.
  have missed : ∀ command id, Reached first command (firing.aims first) id →
      Reached first .remove (plan first done) id ∨ Reached first command (firing.aims second) id := by
    rintro command id ⟨aim, member, same, place⟩
    obtain ⟨target, listed, rfl⟩ := List.mem_map.mp member
    by_cases targetLost : target ∈ gone
    · have reached := (lost target).mp targetLost
      rcases place with rfl | below
      · exact .inl reached
      · exact .inl (reached_of_mem_descendants sound.stands reached below)
    · refine .inr ⟨_, List.mem_map_of_mem ?_, same, place⟩
      rw [found, List.mem_filter]
      exact ⟨listed, by simpa using targetLost⟩
  rw [whole]
  refine stepped.congr (fun id => ?_) fun id left => ?_
  · rw [reached_append, reached_append]
    constructor
    · exact Or.imp_right (reached_of_subset inside)
    · rintro (early | here)
      · exact .inl early
      · exact missed .remove id here
  · rw [reached_append, not_or] at left
    rw [reached_append, reached_append]
    constructor
    · exact Or.imp_right (reached_of_subset inside)
    · rintro (early | here)
      · exact .inl early
      · exact .inr ((missed .clear id here).resolve_left left.1)

end Step

namespace Peaceful

variable (peaceful : Peaceful first firings) (sound : first.Sound)
  (placed : ∀ firing ∈ firings, firing.Placed first)
include peaceful

theorem perm {others : List Firing} (perm : others.Perm firings) : Peaceful first others where
  yields := (perm.pairwise_iff fun both => both.symm).mpr peaceful.yields
  numbering := fun firing member => peaceful.numbering firing (perm.mem_iff.mp member)

include sound placed

/-- Triggers that leave each other alone do what they were aimed at in the beginning. -/
theorem carriedOut : CarriedOut first (plan first firings) (Firing.evaluateAll first firings) := by
  have each : ∀ (todo done : List Firing) (second : Document), firings = done ++ todo →
      CarriedOut first (plan first done) second →
        CarriedOut first (plan first firings) (Firing.evaluateAll second todo) := by
    intro todo
    induction todo with
    | nil =>
        intro done second whole carried
        rw [whole, List.append_nil]
        exact carried
    | cons firing rest ih =>
        intro done second whole carried
        have inside : ∀ early ∈ done, early ∈ firings := fun early member => by
          rw [whole]
          exact List.mem_append_left _ member
        have pairs := peaceful.yields
        rw [whole, List.pairwise_append] at pairs
        refine ih (done ++ [firing]) _ (by rw [whole, List.append_assoc]; rfl) ?_
        refine carriedOut_evaluate carried sound
          (fun early member => peaceful.numbering early (inside early member)) ?_ ?_
        · exact placed firing (by simp [whole])
        · exact fun early member => (pairs.2.2 early member firing (by simp)).1
  exact each firings [] first rfl (.refl sound.stands)

/-- The order of the triggers does not matter. -/
theorem carriedOut_of_perm {others : List Firing} (order : others.Perm firings) :
    CarriedOut first (plan first firings) (Firing.evaluateAll first others) := by
  have each := (peaceful.perm order).carriedOut sound fun firing member =>
    placed firing (order.mem_iff.mp member)
  refine each.congr (fun id => ?_) fun id _ => ?_
  · simp only [reached_plan, order.mem_iff]
  · simp only [reached_plan, order.mem_iff]

end Peaceful

end WordTemplate.Filling
