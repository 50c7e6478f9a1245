import WordTemplate.Filling.Firing
import WordTemplate.Proofs.Markup.Removal

/-! Carrying out commands on nodes that were found beforehand. Which nodes go and which texts are cleared
is a matter of the commands as a set, so that their order does not show in the live tree. -/

namespace WordTemplate

open Markup
open Markup.Document (Removes)
open Relation (TransGen)

namespace Markup.Document

theorem node_clearTextDeep (document : Document) (start id : NodeId) :
    (document.clearTextDeep start).node id =
      if id = start ∨ id ∈ document.descendants start then { document.node id with text := "" }
      else document.node id := by
  have each : ∀ (ids : List NodeId) (document : Document),
      (ids.foldl (fun document id => document.setText id "") document).node id =
        if id ∈ ids then { document.node id with text := "" } else document.node id := by
    intro ids
    induction ids with
    | nil => intro document; rfl
    | cons first rest ih =>
        intro document
        have written : (document.setText first "").node id =
            if id = first then { document.node id with text := "" } else document.node id := by
          rw [setText, node_modify]
          by_cases bound : id < document.size
          · by_cases here : id = first
            · rw [if_pos ⟨here, bound⟩, if_pos here]
            · rw [if_neg fun both => here both.1, if_neg here]
          · rw [if_neg fun both => bound both.2, node_of_le_size (Nat.le_of_not_lt bound)]
            split <;> rfl
        rw [List.foldl_cons, ih, written]
        by_cases later : id ∈ rest
        · rw [if_pos later, if_pos (List.mem_cons_of_mem _ later)]
          split <;> rfl
        · by_cases here : id = first
          · rw [if_neg later, if_pos here, if_pos (List.mem_cons.mpr (.inl here))]
          · rw [if_neg later, if_neg here, if_neg (by simp [here, later])]
  rw [clearTextDeep, each]
  simp only [List.mem_cons]

theorem declared_clearTextDeep (document : Document) (start : NodeId) :
    (document.clearTextDeep start).declared = document.declared := by
  rw [clearTextDeep]
  generalize start :: document.descendants start = ids
  induction ids generalizing document with
  | nil => rfl
  | cons id rest ih => exact ih (document.setText id "")

end Markup.Document

namespace Filling

structure Aim where
  command : Trigger.Command
  target : NodeId
deriving DecidableEq, Repr

def carryOutAll (document : Document) (aims : List Aim) : Document :=
  aims.foldl (fun document aim => carryOut document aim.command aim.target) document

/-- A node is one that some aim with the command has for its target, or stands below one. -/
def Reached (document : Document) (command : Trigger.Command) (aims : List Aim) (id : NodeId) : Prop :=
  ∃ aim ∈ aims, aim.command = command ∧ (id = aim.target ∨ id ∈ document.descendants aim.target)

instance (document : Document) (command : Trigger.Command) (aims : List Aim) (id : NodeId) :
    Decidable (Reached document command aims id) :=
  inferInstanceAs (Decidable (∃ _ ∈ _, _ ∧ (_ ∨ _)))

/-- What is left of a document when commands have been carried out on nodes that were found in it. -/
structure CarriedOut (first : Document) (aims : List Aim) (second : Document) : Prop where
  stands : second.Stands
  removes : ∃ gone, (∀ id, id ∈ gone ↔ Reached first .remove aims id) ∧ Removes gone first second
  cleared : ∀ id, ¬ Reached first .remove aims id → Reached first .clear aims id →
    second.node id = { first.node id with text := "", children := second.children id }
  kept : ∀ id, ¬ Reached first .remove aims id → ¬ Reached first .clear aims id →
    second.node id = { first.node id with children := second.children id }
  declared : second.declared = first.declared

variable {first second : Document} {aims more : List Aim} {id : NodeId}

theorem reached_append {command : Trigger.Command} :
    Reached first command (aims ++ more) id ↔
      Reached first command aims id ∨ Reached first command more id := by
  simp only [Reached, List.mem_append, or_and_right, exists_or]

theorem reached_single {command : Trigger.Command} {aim : Aim} :
    Reached first command [aim] id ↔
      aim.command = command ∧ (id = aim.target ∨ id ∈ first.descendants aim.target) := by
  simp only [Reached, List.mem_singleton, exists_eq_left]

theorem reached_of_subset {command : Trigger.Command} (subset : aims ⊆ more)
    (reached : Reached first command aims id) : Reached first command more id := by
  obtain ⟨aim, member, place⟩ := reached
  exact ⟨aim, subset member, place⟩

theorem reached_of_mem_descendants (stands : first.Stands) {command : Trigger.Command} {start : NodeId}
    (reached : Reached first command aims start) (below : id ∈ first.descendants start) :
    Reached first command aims id := by
  obtain ⟨aim, member, same, place⟩ := reached
  refine ⟨aim, member, same, .inr ?_⟩
  rcases place with rfl | inside
  · exact below
  · exact stands.descendants_subset inside (List.mem_cons_of_mem _ below)

namespace CarriedOut

theorem refl (stands : first.Stands) : CarriedOut first [] first := by
  have none : ∀ command id, ¬ Reached first command [] id := by simp [Reached]
  refine ⟨stands, ⟨[], fun id => ?_, .of_sameLinks (.refl first) rfl rfl fun _ => rfl⟩,
    fun id _ reached => absurd reached (none _ id), fun _ _ _ => rfl, rfl⟩
  simp [none .remove id]

variable (carried : CarriedOut first aims second)
include carried

theorem live_iff : second.isLive id = true ↔
    first.isLive id = true ∧ ¬ Reached first .remove aims id := by
  obtain ⟨gone, lost, removes⟩ := carried.removes
  rw [← lost]
  by_cases member : id ∈ gone
  · simp [removes.dead id member, member]
  · simp [removes.live id member, member]

theorem root_eq : second.root = first.root := by
  obtain ⟨_, _, removes⟩ := carried.removes
  exact removes.root

theorem mem_descendants {start : NodeId} (left : ¬ Reached first .remove aims start) :
    id ∈ second.descendants start ↔
      id ∈ first.descendants start ∧ ¬ Reached first .remove aims id := by
  obtain ⟨gone, lost, removes⟩ := carried.removes
  rw [removes.descendants (by rwa [lost]), List.mem_filter, decide_eq_true_eq, lost]

theorem mem_descendants_of_left (stands : first.Stands) {start : NodeId}
    (left : ¬ Reached first .remove aims id) :
    id ∈ second.descendants start ↔ id ∈ first.descendants start := by
  by_cases already : Reached first .remove aims start
  · obtain ⟨gone, lost, removes⟩ := carried.removes
    have dead := removes.dead start ((lost start).mpr already)
    constructor
    · intro below
      obtain ⟨child, lists, _⟩ := TransGen.head'_iff.mp (((carried.stands.descendants start).2 id).mp below).2
      rw [Document.Lists, carried.stands.bare dead] at lists
      simp at lists
    · intro below
      exact absurd (reached_of_mem_descendants stands already below) left
  · rw [carried.mem_descendants already, and_iff_left left]

theorem inside_iff (stands : first.Stands) {target : NodeId} (left : ¬ Reached first .remove aims id) :
    (id = target ∨ id ∈ second.descendants target) ↔ (id = target ∨ id ∈ first.descendants target) :=
  or_congr_right (carried.mem_descendants_of_left stands left)

/-- Another node of the first document is deleted, unless it has gone with an earlier one. -/
theorem delete (stands : first.Stands) {target : NodeId} (live : first.isLive target = true) :
    CarriedOut first (aims ++ [⟨.remove, target⟩]) (second.delete target) := by
  obtain ⟨gone, lost, removes⟩ := carried.removes
  obtain ⟨rest, members, deleted⟩ := removes.delete carried.stands live
  have losses : ∀ id, Reached first .remove (aims ++ [⟨.remove, target⟩]) id ↔
      Reached first .remove aims id ∨ id = target ∨ id ∈ first.descendants target := by
    intro id
    rw [reached_append, reached_single, eq_self, true_and]
  have clears : ∀ id, Reached first .clear (aims ++ [⟨.remove, target⟩]) id ↔
      Reached first .clear aims id := by
    intro id
    simp [reached_append, reached_single]
  have stays : ∀ id, ¬ Reached first .remove aims id → ¬ (id = target ∨ id ∈ first.descendants target) →
      (second.delete target).node id =
        { second.node id with children := (second.delete target).children id } := by
    intro id left outside
    refine carried.stands.node_delete_of_left ?_
    rw [List.mem_cons, carried.inside_iff stands left]
    exact outside
  refine ⟨carried.stands.delete target, ⟨rest, fun id => ?_, deleted⟩, fun id left reached => ?_,
    fun id left quiet => ?_, (Document.extends_delete second target).declared.trans carried.declared⟩
  · rw [members, lost, losses]
  · rw [losses, not_or] at left
    rw [stays id left.1 left.2, carried.cleared id left.1 ((clears id).mp reached)]
  · rw [losses, not_or] at left
    rw [stays id left.1 left.2, carried.kept id left.1 (mt (clears id).mpr quiet)]

theorem clear (stands : first.Stands) (target : NodeId) :
    CarriedOut first (aims ++ [⟨.clear, target⟩]) (second.clearTextDeep target) := by
  obtain ⟨gone, lost, removes⟩ := carried.removes
  have losses : ∀ id, Reached first .remove (aims ++ [⟨.clear, target⟩]) id ↔
      Reached first .remove aims id := by
    intro id
    simp [reached_append, reached_single]
  have clears : ∀ id, Reached first .clear (aims ++ [⟨.clear, target⟩]) id ↔
      Reached first .clear aims id ∨ id = target ∨ id ∈ first.descendants target := by
    intro id
    rw [reached_append, reached_single, eq_self, true_and]
  have rewritten := Document.rewritten_clearTextDeep second target
  have children := rewritten.links.children
  refine ⟨rewritten.stands carried.stands, ⟨gone, fun id => ?_, ?_⟩, fun id left reached => ?_,
    fun id left quiet => ?_, (Document.declared_clearTextDeep second target).trans carried.declared⟩
  · rw [losses, lost]
  · have both := removes.trans rewritten.removes
    rwa [List.append_nil] at both
  · rw [losses] at left
    rw [children, Document.node_clearTextDeep]
    by_cases before : Reached first .clear aims id
    · rw [carried.cleared id left before]
      split <;> rfl
    · rw [if_pos ((carried.inside_iff stands left).mpr (((clears id).mp reached).resolve_left before)),
        carried.kept id left before]
  · rw [losses] at left
    rw [clears, not_or] at quiet
    rw [children, Document.node_clearTextDeep, if_neg (mt (carried.inside_iff stands left).mp quiet.2),
      carried.kept id left quiet.1]

theorem step (stands : first.Stands) {aim : Aim} (live : first.isLive aim.target = true) :
    CarriedOut first (aims ++ [aim]) (carryOut second aim.command aim.target) := by
  obtain ⟨command, target⟩ := aim
  cases command with
  | remove => exact carried.delete stands live
  | clear => exact carried.clear stands target

theorem steps (stands : first.Stands) (live : ∀ aim ∈ more, first.isLive aim.target = true) :
    CarriedOut first (aims ++ more) (carryOutAll second more) := by
  induction more generalizing second aims with
  | nil => rwa [List.append_nil]
  | cons aim rest ih =>
      obtain ⟨here, others⟩ := List.forall_mem_cons.mp live
      have next := ih (carried.step stands here) others
      rwa [List.append_assoc] at next

theorem congr (losses : ∀ id, Reached first .remove aims id ↔ Reached first .remove more id)
    (clears : ∀ id, ¬ Reached first .remove aims id →
      (Reached first .clear aims id ↔ Reached first .clear more id)) :
    CarriedOut first more second := by
  obtain ⟨gone, lost, removes⟩ := carried.removes
  refine ⟨carried.stands, ⟨gone, fun id => (lost id).trans (losses id), removes⟩,
    fun id left reached => ?_, fun id left quiet => ?_, carried.declared⟩
  · rw [← losses] at left
    exact carried.cleared id left ((clears id left).mpr reached)
  · rw [← losses] at left
    exact carried.kept id left fun reached => quiet ((clears id left).mp reached)

section Same

variable {third : Document} (other : CarriedOut first aims third)
include other

theorem toElement_eq (left : ¬ Reached first .remove aims id) :
    (second.node id).toElement = (third.node id).toElement := by
  by_cases reached : Reached first .clear aims id
  · rw [carried.cleared id left reached, other.cleared id left reached]
  · rw [carried.kept id left reached, other.kept id left reached]

theorem isLive_eq : second.isLive id = third.isLive id := by
  rw [Bool.eq_iff_iff, carried.live_iff, other.live_iff]

theorem liveTree_eq (alive : second.isLive id = true) : second.liveTree id = third.liveTree id := by
  obtain ⟨gone, lost, removes⟩ := carried.removes
  obtain ⟨others, lostToo, removesToo⟩ := other.removes
  rw [Document.liveTree, Document.liveTree, removes.size, removesToo.size]
  generalize first.size = depth
  induction depth generalizing id with
  | zero =>
      have left := (carried.live_iff.mp alive).2
      rw [Document.treeTo, Document.treeTo, carried.toElement_eq other left]
  | succ depth ih =>
      have left := (carried.live_iff.mp alive).2
      have children : second.children id = third.children id := by
        rw [removes.children id (by rwa [lost]), removesToo.children id (by rwa [lostToo])]
        apply List.filter_congr
        intro child _
        rw [decide_eq_decide, lost, lostToo]
      have shown : (third.children id).filter third.isLive = (third.children id).filter second.isLive :=
        List.filter_congr fun child _ => (carried.isLive_eq other).symm
      rw [Document.treeTo, Document.treeTo, carried.toElement_eq other left, children, shown]
      congr 1
      exact List.map_congr_left fun child member => ih (List.mem_filter.mp member).2

end Same

end CarriedOut

theorem carriedOut_carryOutAll (stands : first.Stands)
    (live : ∀ aim ∈ aims, first.isLive aim.target = true) :
    CarriedOut first aims (carryOutAll first aims) := by
  have done := (CarriedOut.refl stands).steps stands live
  rwa [List.nil_append] at done

end Filling

end WordTemplate
