import WordTemplate.Proofs.Filling.Commands
import WordTemplate.Proofs.Filling.Scopes
import WordTemplate.Proofs.Markup.Forest

/-! What one trigger does to a document. Its scope is looked up around its origin; all that stands in the
scope is removed or loses its text, and nothing else changes. -/

namespace WordTemplate.Filling

open Markup

/-- A node stands in the scope of a trigger. -/
def Struck (document : Document) (origin : NodeId) (scope : Trigger.Scope) (id : NodeId) : Prop :=
  ∃ target, Covers document origin scope target ∧ (id = target ∨ id ∈ document.descendants target)

/-- Some nodes of a document are gone. All others hold what they did, and stand in the same order. -/
structure Without (first : Document) (lost : NodeId → Prop) (second : Document) : Prop where
  live : ∀ id, second.isLive id = true ↔ first.isLive id = true ∧ ¬ lost id
  node : ∀ id, second.isLive id = true →
    second.node id = { first.node id with children := (first.children id).filter second.isLive }
  descendants : ∀ id, second.isLive id = true →
    second.descendants id = (first.descendants id).filter second.isLive

/-- Some nodes of a document have no text any more. All else is as it was. -/
structure Muted (first : Document) (silent : NodeId → Prop) (second : Document) : Prop where
  emptied : ∀ id, silent id → second.node id = { first.node id with text := "" }
  kept : ∀ id, ¬ silent id → second.node id = first.node id

theorem fires_iff {trigger : Trigger} {value : String} :
    trigger.fires value = true ↔ (trigger.condition = .empty ↔ value = "") := by
  rw [Trigger.fires]
  cases trigger.condition with
  | empty => simp
  | filled => simp

section Targets

variable {first second : Document} {found : List NodeId}

theorem reached_targets {command other : Trigger.Command} {id : NodeId} :
    Reached first command (found.map (Aim.mk other)) id ↔
      other = command ∧ ∃ target ∈ found, id = target ∨ id ∈ first.descendants target := by
  simp only [Reached, List.mem_map]
  constructor
  · rintro ⟨aim, ⟨target, member, rfl⟩, same, place⟩
    exact ⟨same, target, member, place⟩
  · rintro ⟨same, target, member, place⟩
    exact ⟨_, ⟨target, member, rfl⟩, same, place⟩

variable {struck : NodeId → Prop}
  (each : ∀ id, struck id ↔ ∃ target ∈ found, id = target ∨ id ∈ first.descendants target)
include each

theorem CarriedOut.without (stands : first.Stands)
    (carried : CarriedOut first (found.map (Aim.mk .remove)) second) : Without first struck second := by
  have lives : ∀ id, second.isLive id = true ↔ first.isLive id = true ∧ ¬ struck id := by
    intro id
    rw [carried.live_iff, reached_targets, each, eq_self, true_and]
  obtain ⟨gone, lost, removes⟩ := carried.removes
  have kept : ∀ {id}, second.isLive id = true → id ∉ gone := by
    intro id live member
    rw [removes.dead id member] at live
    exact absurd live (by decide)
  refine ⟨lives, fun id live => ?_, fun id live => ?_⟩
  · have children : second.children id = (first.children id).filter second.isLive := by
      rw [removes.children id (kept live)]
      exact removes.filter_isLive fun child lists => stands.child_live lists
    rw [← children]
    refine carried.kept id (fun reached => kept live ((lost id).mpr reached)) fun reached => ?_
    simp [reached_targets] at reached
  · rw [removes.descendants (kept live)]
    exact removes.filter_isLive fun other below => (((stands.descendants id).2 other).mp below).1

theorem CarriedOut.muted (carried : CarriedOut first (found.map (Aim.mk .clear)) second) :
    Muted first struck second := by
  have left : ∀ id, ¬ Reached first .remove (found.map (Aim.mk .clear)) id := by
    simp [reached_targets]
  have reached : ∀ id, Reached first .clear (found.map (Aim.mk .clear)) id ↔ struck id := by
    intro id
    rw [reached_targets, each, eq_self, true_and]
  obtain ⟨gone, lost, removes⟩ := carried.removes
  have children : ∀ id, second.children id = first.children id := by
    intro id
    have none : ∀ id, id ∉ gone := fun id member => left id ((lost id).mp member)
    rw [removes.children id (none id), List.filter_eq_self]
    exact fun child _ => decide_eq_true (none child)
  refine ⟨fun id inside => ?_, fun id outside => ?_⟩
  · rw [carried.cleared id (left id) ((reached id).mpr inside), children]
    rfl
  · rw [carried.kept id (left id) (mt (reached id).mp outside), children]
    rfl

end Targets

/-- What one trigger does. When its condition fails for the value, or its scope covers nothing, then nothing
changes. Else, exactly what stands in its scope is removed, or loses its text. -/
theorem evaluate_effect {document later : Document} (wellFormed : document.WellFormed) {origin : NodeId}
    (live : document.isLive origin = true) {trigger : Trigger} {value : String} {told : Bool}
    (evaluated : evaluate document origin trigger value = (later, told)) :
    ((¬ (trigger.condition = .empty ↔ value = "") ∨
        ∀ target, ¬ Covers document origin trigger.scope target) →
      later = document ∧ told = false) ∧
    ((trigger.condition = .empty ↔ value = "") → (∃ target, Covers document origin trigger.scope target) →
      told = true ∧ later.size = document.size ∧ later.root = document.root ∧
        later.declared = document.declared ∧
        match trigger.command with
        | .remove => Without document (Struck document origin trigger.scope) later
        | .clear => Muted document (Struck document origin trigger.scope) later) := by
  have stands := wellFormed.stands
  have covered : ∀ {target}, target ∈ targets document origin trigger.scope ↔
      Covers document origin trigger.scope target := mem_targets_iff stands live
  have all : evaluate document origin trigger value = if trigger.fires value then
      (carryOutAll document ((targets document origin trigger.scope).map (Aim.mk trigger.command)),
        !(targets document origin trigger.scope).isEmpty) else (document, false) := by
    rw [evaluate, live, Bool.and_true, carryOutAll, List.foldl_map]
  rw [all] at evaluated
  constructor
  · rintro (unmet | nothing)
    · rw [if_neg (mt fires_iff.mp unmet), Prod.mk.injEq] at evaluated
      exact ⟨evaluated.1.symm, evaluated.2.symm⟩
    · have none : targets document origin trigger.scope = [] :=
        List.eq_nil_iff_forall_not_mem.mpr fun target member => nothing target (covered.mp member)
      rw [none, List.map_nil] at evaluated
      split at evaluated
      · exact ⟨(Prod.mk.inj evaluated).1.symm, (Prod.mk.inj evaluated).2.symm⟩
      · exact ⟨(Prod.mk.inj evaluated).1.symm, (Prod.mk.inj evaluated).2.symm⟩
  · rintro met ⟨target, covers⟩
    rw [if_pos (fires_iff.mpr met), Prod.mk.injEq] at evaluated
    obtain ⟨rfl, rfl⟩ := evaluated
    have lives : ∀ aim ∈ (targets document origin trigger.scope).map (Aim.mk trigger.command),
        document.isLive aim.target = true := by
      intro aim member
      obtain ⟨target, inside, rfl⟩ := List.mem_map.mp member
      exact live_of_mem_targets stands live inside
    have struck : ∀ id, Struck document origin trigger.scope id ↔
        ∃ target ∈ targets document origin trigger.scope,
          id = target ∨ id ∈ document.descendants target := by
      intro id
      simp only [Struck, covered]
    have carried := carriedOut_carryOutAll stands lives
    obtain ⟨gone, -, removes⟩ := carried.removes
    refine ⟨?_, removes.size, removes.root, carried.declared, ?_⟩
    · have member := covered.mpr covers
      cases found : targets document origin trigger.scope with
      | nil => simp [found] at member
      | cons first rest => rfl
    · cases command : trigger.command with
      | remove => exact (command ▸ carried).without struck stands
      | clear => exact (command ▸ carried).muted struck

/-- Two paragraphs of a list, with another paragraph between them. -/
def brokenList : Document :=
  .ofTree false (.node { tag := "w:body" } <|
    [("a", [⟨listKey, "1"⟩]), ("b", []), ("c", [⟨listKey, "1"⟩])].map fun (text, attributes) =>
      .node { tag := Wordml.paragraph, attributes } [.node { tag := Wordml.text, text } []])

theorem evaluate_effect_brokenList :
    ∃ later, evaluate brokenList 2 ⟨.empty, .remove, .list⟩ "" = (later, true) ∧
      Without brokenList (Struck brokenList 2 .list) later ∧ later.descendants 0 = [3, 4] := by
  have wellFormed : brokenList.WellFormed := (Document.sound_ofTree false _).wellFormed
  have live : brokenList.isLive 2 = true := by decide
  have covers : Covers brokenList 2 .list 1 := (mem_targets_iff wellFormed.stands live).mp (by decide)
  obtain ⟨told, -, -, -, without⟩ := (evaluate_effect wellFormed live
    (Prod.mk.eta.symm : evaluate brokenList 2 ⟨.empty, .remove, .list⟩ "" = _)).2 (by decide) ⟨1, covers⟩
  exact ⟨_, Prod.ext rfl told, without, by decide⟩

end WordTemplate.Filling
