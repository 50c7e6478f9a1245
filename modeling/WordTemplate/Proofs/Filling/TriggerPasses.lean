import WordTemplate.Proofs.Filling.Substituting

/-! The passes that carry out triggers. Each first puts in its values and notes the triggers, and then
carries out the ones that fire. -/

namespace WordTemplate.Filling

open Markup
open Markup.Document (Stays Rewritten)

namespace Firing

def fires (firing : Firing) : Bool :=
  firing.trigger.fires firing.value

theorem evaluate_of_not_fires {firing : Firing} (quiet : firing.fires = false) (document : Document) :
    firing.evaluate document = document := by
  rw [fires] at quiet
  rw [evaluate]
  split
  · rw [Filling.evaluate, quiet, Bool.false_and, if_neg (by decide)]
  · rfl

theorem evaluateAll_filter (document : Document) (firings : List Firing) :
    evaluateAll document (firings.filter fires) = evaluateAll document firings := by
  induction firings generalizing document with
  | nil => rfl
  | cons firing rest ih =>
      by_cases fired : firing.fires = true
      · rw [List.filter_cons_of_pos fired]
        exact ih _
      · have still := evaluate_of_not_fires (by simpa using fired) document
        rw [List.filter_cons_of_neg fired, ih, evaluateAll, evaluateAll, List.foldl_cons, still]

variable {first second : Document} {firing : Firing}

theorem Placed.stays (placed : firing.Placed first) (inside : firing.text < first.size)
    (stays : Stays first.size first second) : firing.Placed second := by
  refine ⟨fun live => ?_, fun live holder held => ?_⟩
  · rw [stays.ages.tag _ inside]
    exact placed.tag (stays.isLive (Nat.le_refl _) inside live)
  · rw [stays.parent _ inside live]
    exact placed.parent (stays.isLive (Nat.le_refl _) inside live) holder held

theorem Placed.rewritten (placed : firing.Placed first) (rewritten : Rewritten first second) :
    firing.Placed second := by
  refine ⟨fun live => ?_, fun live => ?_⟩
  · rw [rewritten.removes.tag]
    exact placed.tag ((rewritten.links.isLive _).symm.trans live)
  · rw [rewritten.links.parent?]
    exact placed.parent ((rewritten.links.isLive _).symm.trans live)

end Firing

/-- A pass in which triggers are carried out. -/
inductive Pass
  | singles
  | inline
  | unset
deriving DecidableEq, Repr

namespace Pass

def run (document : Document) (params : Params) : Pass → Document
  | singles => fillSingles document params
  | inline => fillInline document params
  | unset => sweepUnset document params

/-- The document with the values of a pass in it, and the triggers that were noted on the way. -/
def start (document : Document) (params : Params) : Pass → Document × List Firing
  | singles => (fillAttributes document params document.root).walk document.root (fillNode params) []
  | inline =>
    let texts := document.findAll document.root [Wordml.text]
    (texts.foldl (fillInlineText params) document, texts.flatMap (inlineFirings document params))
  | unset =>
    (document, ((document.findAll document.root [Wordml.text]).flatMap
      (unsetTriggers document params)).map fun (id, trigger) => ⟨id, none, trigger, ""⟩)

/-- The triggers of a pass that fire. -/
def fired (document : Document) (params : Params) (pass : Pass) : List Firing :=
  (pass.start document params).2.filter Firing.fires

theorem run_eq (document : Document) (params : Params) (pass : Pass) :
    pass.run document params =
      Firing.evaluateAll (pass.start document params).1 (pass.fired document params) := by
  rw [fired, Firing.evaluateAll_filter]
  cases pass with
  | singles => rfl
  | inline => rfl
  | unset =>
      simp only [run, start, sweepUnset, Firing.evaluateAll, List.foldl_map]
      congr 1
      funext document ⟨id, trigger⟩
      simp only [Firing.evaluate]
      by_cases live : document.isLive id = true
      · rw [if_pos live]
      · rw [if_neg live, evaluate, if_neg (by simp [live])]

end Pass

theorem rewritten_fillInlineText (params : Params) (document : Document) (id : NodeId) :
    Rewritten document (fillInlineText params document id) := by
  rw [fillInlineText]
  simp only
  split
  · exact (rewritten_setText document id _).trans (rewritten_preserveSpace _ id)
  · exact .refl document

variable {document : Document} {params : Params}

theorem placed_textFirings {id : NodeId} (isText : document.tag id = Wordml.text) :
    ∀ firing ∈ textFirings document params id, firing.text = id ∧ firing.Placed document := by
  intro firing member
  obtain ⟨placeholder, _, given⟩ := List.mem_filterMap.mp member
  simp only [Option.bind_eq_bind, Option.bind_eq_some_iff] at given
  obtain ⟨_, _, _, _, same⟩ := given
  cases same
  exact ⟨rfl, fun _ => isText, fun _ _ held => held⟩

theorem placed_inlineFirings {id : NodeId} (isText : document.tag id = Wordml.text) :
    ∀ firing ∈ inlineFirings document params id, firing.Placed document := by
  intro firing member
  obtain ⟨placeholder, _, given⟩ := List.mem_filterMap.mp member
  simp only [Option.bind_eq_bind, Option.bind_eq_some_iff] at given
  obtain ⟨_, _, _, _, same⟩ := given
  cases same
  exact ⟨fun _ => isText, fun _ _ held => held⟩

structure Substituted (state : Document × List Firing) : Prop where
  sound : state.1.Sound
  inside : ∀ firing ∈ state.2, firing.text < state.1.size
  placed : ∀ firing ∈ state.2, firing.Placed state.1

theorem Substituted.rewritten {firings : List Firing} {second : Document}
    (substituted : Substituted (document, firings)) (rewritten : Rewritten document second) :
    Substituted (second, firings) where
  sound := rewritten.sound substituted.sound
  inside := fun firing member => rewritten.size ▸ substituted.inside firing member
  placed := fun firing member => (substituted.placed firing member).rewritten rewritten

theorem substituted_fillNode {firings : List Firing} (substituted : Substituted (document, firings))
    {id : NodeId} (live : document.isLive id = true) :
    Substituted ((fillNode params document firings id).1, (fillNode params document firings id).2.1) := by
  have rewritten := rewritten_fillAttributes document params id
  have attributes := substituted.rewritten rewritten
  have alive := (rewritten.links.isLive id).trans live
  generalize filled : fillAttributes document params id = middle at attributes alive
  rw [fillNode]
  simp only [filled]
  split
  · rename_i isText
    have stays := stays_fillText attributes.sound params alive
    have noted : ∀ firing ∈ firings ++ textFirings middle params id,
        firing.text < middle.size ∧ firing.Placed middle := by
      intro firing member
      rcases List.mem_append.mp member with early | here
      · exact ⟨attributes.inside firing early, attributes.placed firing early⟩
      · obtain ⟨same, placed⟩ := placed_textFirings isText firing here
        exact ⟨same ▸ Document.lt_size_of_isLive alive, placed⟩
    refine ⟨sound_fillText attributes.sound params alive, fun firing member => ?_, fun firing member => ?_⟩
    · exact Nat.lt_of_lt_of_le (noted firing member).1 stays.ages.size_le
    · exact (noted firing member).2.stays (noted firing member).1 stays
  · exact attributes

/-- When the values of a pass are in, links agree with each other, and each text that is left stands
where it stood when its triggers were noted. -/
theorem Pass.sound_start (pass : Pass) (sound : document.Sound) (params : Params) :
    (pass.start document params).1.Sound ∧
      ∀ firing ∈ (pass.start document params).2, firing.Placed (pass.start document params).1 := by
  have texts : ∀ id ∈ document.findAll document.root [Wordml.text],
      document.tag id = Wordml.text := fun id member => by
    simpa [Document.isAny] using (List.mem_filter.mp member).2
  cases pass with
  | singles =>
      have begin : Substituted (document, []) := ⟨sound, by simp, by simp⟩
      have walked : Substituted ((fillAttributes document params document.root).walk
          document.root (fillNode params) []) :=
        Document.walk_induction (fun _ _ _ live kept => substituted_fillNode kept live) document.root
          (begin.rewritten (rewritten_fillAttributes document params document.root))
      exact ⟨walked.sound, walked.placed⟩
  | inline =>
      have filled : Rewritten document ((document.findAll document.root [Wordml.text]).foldl
          (fillInlineText params) document) :=
        Document.rewritten_foldl (rewritten_fillInlineText params) _ document
      refine ⟨filled.sound sound, fun firing member => ?_⟩
      obtain ⟨id, listed, inside⟩ := List.mem_flatMap.mp member
      exact (placed_inlineFirings (texts id listed) firing inside).rewritten filled
  | unset =>
      refine ⟨sound, fun firing member => ?_⟩
      obtain ⟨⟨id, trigger⟩, inside, rfl⟩ := List.mem_map.mp member
      obtain ⟨other, listed, given⟩ := List.mem_flatMap.mp inside
      obtain ⟨placeholder, _, noted⟩ := List.mem_filterMap.mp given
      split at noted
      · obtain ⟨_, _, same⟩ := Option.map_eq_some_iff.mp noted
        cases same
        exact ⟨fun _ => texts _ listed, fun _ _ held => by simp at held⟩
      · simp at noted

/-- The live tree of a document whose root is still there. -/
def shown (document : Document) : Option Tree :=
  if document.isLive document.root then some (document.liveTree document.root) else none

theorem CarriedOut.shown_eq {first second third : Document} {aims : List Aim}
    (carried : CarriedOut first aims second) (other : CarriedOut first aims third) :
    shown second = shown third := by
  have roots : second.root = third.root := carried.root_eq.trans other.root_eq.symm
  rw [shown, shown, ← roots, ← carried.isLive_eq other]
  split
  · rename_i live
    rw [carried.liveTree_eq other live]
  · rfl

/-- When the triggers of a pass leave each other alone, all that fire are carried out, as they were aimed
when the values were in, and in whatever order. -/
theorem run_eq_planned (pass : Pass) (sound : document.Sound) (params : Params)
    (peaceful : Peaceful (pass.start document params).1 (pass.fired document params)) :
    let filled := (pass.start document params).1
    let planned := carryOutAll filled (plan filled (pass.fired document params))
    shown (pass.run document params) = shown planned ∧
      ∀ order, order.Perm (pass.fired document params) →
        shown (Firing.evaluateAll filled order) = shown planned := by
  obtain ⟨soundStart, placed⟩ := pass.sound_start sound params
  have placedFired : ∀ firing ∈ pass.fired document params,
      firing.Placed (pass.start document params).1 := fun firing member =>
    placed firing (List.mem_filter.mp member).1
  have live : ∀ aim ∈ plan (pass.start document params).1 (pass.fired document params),
      (pass.start document params).1.isLive aim.target = true := by
    intro aim member
    obtain ⟨firing, _, inside⟩ := List.mem_flatMap.mp member
    exact Firing.live_of_mem_aims soundStart inside
  have planned := carriedOut_carryOutAll soundStart.stands live
  have each : ∀ order, order.Perm (pass.fired document params) →
      shown (Firing.evaluateAll (pass.start document params).1 order) =
        shown (carryOutAll (pass.start document params).1
          (plan (pass.start document params).1 (pass.fired document params))) := fun order perm =>
    (peaceful.carriedOut_of_perm soundStart placedFired perm).shown_eq planned
  refine ⟨?_, each⟩
  rw [pass.run_eq]
  exact each _ (.refl _)

def tableOf (texts : List String) : Document :=
  Document.ofTree false <| .node { tag := Wordml.table } <| texts.map fun text =>
    .node { tag := Wordml.row } [.node { tag := Wordml.cell } [.node { tag := Wordml.paragraph }
      [.node { tag := Wordml.run } [.node { tag := Wordml.text, text } []]]]]

def blanks : Params :=
  .ofMembers [("A", .string ""), ("B", .string ""), ("C", .string "")]

/-- The first trigger removes the text, and the second one finds the row through the run. -/
def smallFirst : Document :=
  tableOf ["\x7b\x7bA :empty:remove:placeholder\x7d\x7d\x7b\x7bB :empty:remove:row\x7d\x7d",
    "\x7b\x7bC :empty:clear:cell\x7d\x7dkept"]

theorem run_eq_planned_smallFirst :
    let filled := (Pass.singles.start smallFirst blanks).1
    let fired := Pass.singles.fired smallFirst blanks
    fired.length = 3 ∧ Peaceful filled fired ∧
      shown (Pass.singles.run smallFirst blanks) = shown (carryOutAll filled (plan filled fired)) ∧
      shown (Firing.evaluateAll filled fired.reverse) =
        shown (carryOutAll filled (plan filled fired)) ∧
      (shown (Pass.singles.run smallFirst blanks)).map Tree.size = some 6 := by
  have sound : smallFirst.Sound := Document.sound_ofTree false _
  have peaceful : Peaceful (Pass.singles.start smallFirst blanks).1
      (Pass.singles.fired smallFirst blanks) := ⟨by decide +kernel, by decide +kernel⟩
  have done := run_eq_planned Pass.singles sound blanks peaceful
  exact ⟨by decide +kernel, peaceful, done.1, done.2 _ (List.reverse_perm _), by decide +kernel⟩

def crowdedText : String :=
  "<w:tbl><w:tr><w:tc><w:p><w:r>" ++
    "<w:t>\x7b\x7bA :empty:remove:cell\x7d\x7d\x7b\x7bB :empty:remove:row\x7d\x7d</w:t>" ++
    "</w:r></w:p></w:tc></w:tr></w:tbl>"

/-- The first trigger removes the cell, and with it all that the second one could find the row from. -/
def crowded : Document :=
  tableOf ["\x7b\x7bA :empty:remove:cell\x7d\x7d\x7b\x7bB :empty:remove:row\x7d\x7d"]

/-- The row stays, whether the values are empty or there are none, and goes only if it is removed
first. -/
theorem run_ne_planned_crowded :
    Document.parse crowdedText = .ok crowded ∧
      Params.ofJson (.object [("A", .string ""), ("B", .string ""), ("C", .string "")]) =
        .ok blanks ∧
      (let filled := (Pass.singles.start crowded blanks).1
       let fired := Pass.singles.fired crowded blanks
       shown (Pass.singles.run crowded blanks) ≠ shown (carryOutAll filled (plan filled fired)) ∧
         shown (Pass.singles.run crowded blanks) ≠ shown (Firing.evaluateAll filled fired.reverse)) ∧
      let filled := (Pass.unset.start crowded {}).1
      let fired := Pass.unset.fired crowded {}
      shown (Pass.unset.run crowded {}) ≠ shown (carryOutAll filled (plan filled fired)) := by
  have differ : ∀ {first second : Document}, (shown first).map Tree.size ≠ (shown second).map Tree.size →
      shown first ≠ shown second := fun sizes same => sizes (congrArg _ same)
  exact ⟨by cbv, rfl, ⟨differ (by decide +kernel), differ (by decide +kernel)⟩,
    differ (by decide +kernel)⟩

end WordTemplate.Filling
