import WordTemplate.Filling.Firing
import WordTemplate.Proofs.Markup.Covering
import WordTemplate.Proofs.Params.Masking

/-! Triggers with the braces of values hidden. They fire for the same values and cover the same nodes:
which paragraphs belong to one list can be told from masked numbers as well. -/

namespace WordTemplate

open Markup

namespace Filling

theorem isEmpty_map (change : Char → Char) (value : String) :
    (value.map change).isEmpty = value.isEmpty := by
  rw [Bool.eq_iff_iff, String.isEmpty_iff, String.isEmpty_iff, String.map_eq_empty]

theorem fires_map (trigger : Trigger) (change : Char → Char) (value : String) :
    trigger.fires (value.map change) = trigger.fires value := by
  rw [Trigger.fires, Trigger.fires, isEmpty_map]

/-- A firing for the value with other characters. -/
def Firing.recode (change : Char → Char) (firing : Firing) : Firing :=
  { firing with value := firing.value.map change }

section Lists

variable {change : Char → Char} (document : Document) (id : NodeId)

theorem listNumber?_recode : Wordml.listNumber? (document.recode change) id =
    (Wordml.listNumber? document id).map (·.map change) := by
  simp only [Wordml.listNumber?, Document.tag_recode, Document.childByTag?_recode,
    Document.attribute?_recode]
  split
  · simp only [Option.bind_eq_bind, Option.map_bind, Function.comp_def]
  · rfl

theorem list?_recode :
    list? (document.recode change) id = (list? document id).map (·.map change) := by
  rw [list?, list?, listNumber?_recode, Document.attribute?_recode, Option.map_or]

end Lists

theorem kept_of_childByTag? {gone : Nat → Prop} {holds : String → Prop} {document : Document}
    (severed : document.Severed gone holds) {id child : NodeId} {tag : String} (kept : ¬ gone id)
    (found : document.childByTag? id tag = some child) : ¬ gone child :=
  severed.children id kept child (List.mem_of_find?_eq_some found)

theorem holds_attribute? {gone : Nat → Prop} {holds : String → Prop} {document : Document}
    (severed : document.Severed gone holds) {id : NodeId} {key value : String} (kept : ¬ gone id)
    (found : document.attribute? id key = some value) : holds value := by
  obtain ⟨entry, first, rfl⟩ := Option.map_eq_some_iff.mp found
  exact (severed.element kept).value entry (List.mem_of_find?_eq_some first)

theorem holds_list? {gone : Nat → Prop} {holds : String → Prop} {document : Document}
    (severed : document.Severed gone holds) {id : NodeId} {number : String} (kept : ¬ gone id)
    (found : list? document id = some number) : holds number := by
  rw [list?, Option.or_eq_some_iff] at found
  rcases found with marked | ⟨-, numbered⟩
  · exact holds_attribute? severed kept marked
  · rw [Wordml.listNumber?] at numbered
    split at numbered
    · simp only [Option.bind_eq_bind, Option.bind_eq_some_iff] at numbered
      obtain ⟨properties, first, numbering, second, entry, third, value⟩ := numbered
      have inner := kept_of_childByTag? severed (kept_of_childByTag? severed kept first) second
      exact holds_attribute? severed (kept_of_childByTag? severed inner third) value
    · simp at numbered

end Filling

namespace Mask.Covers

open Filling

variable {mask : Mask} {gone : Nat → Prop} {shown hidden : Document}

theorem listMembers (covers : mask.Covers gone shown hidden) {id : NodeId} (kept : ¬ gone id) :
    listMembers shown id = listMembers hidden id := by
  rw [← covers.reveals]
  simp only [Filling.listMembers, list?_recode, Document.parent?_recode, Document.children_recode,
    Document.tag_recode]
  cases here : list? hidden id with
  | none => rfl
  | some number =>
      cases above : hidden.parent? id with
      | none => rfl
      | some parent =>
          have masked := holds_list? covers.severed kept here
          have parentKept := covers.severed.parent id kept parent above
          refine List.filter_congr fun sibling member => ?_
          have siblingKept := covers.severed.children parent parentKept sibling member
          congr 2
          cases other : list? hidden sibling with
          | none => simp
          | some found =>
              simp only [Option.map_some, Option.some.injEq, eq_iff_iff]
              exact ⟨(holds_list? covers.severed siblingKept other).eq_of_reveal masked,
                congrArg (String.map mask.reveal)⟩

theorem targets (covers : mask.Covers gone shown hidden) {origin : NodeId} (kept : ¬ gone origin)
    (scope : Trigger.Scope) : targets shown origin scope = targets hidden origin scope := by
  have members : ∀ paragraph, hidden.closest? origin [Wordml.paragraph] = some paragraph →
      Filling.listMembers shown paragraph = Filling.listMembers hidden paragraph :=
    fun _ closest => covers.listMembers (covers.severed.kept_of_closest? kept closest)
  have closest : ∀ tags, shown.closest? origin tags = hidden.closest? origin tags := by
    intro tags
    rw [← covers.reveals, Document.closest?_recode]
  cases scope with
  | placeholder | cell | row | table => simp only [Filling.targets, closest]
  | list =>
      simp only [Filling.targets, closest]
      cases around : hidden.closest? origin [Wordml.paragraph] with
      | none => rfl
      | some paragraph =>
          have marked : (list? shown paragraph).isSome = (list? hidden paragraph).isSome := by
            rw [← covers.reveals, list?_recode, Option.isSome_map]
          simp only [marked, members paragraph around]
  | block =>
      simp only [Filling.targets, closest]
      cases hidden.closest? origin [Wordml.table] with
      | some table => rfl
      | none =>
          cases around : hidden.closest? origin [Wordml.paragraph] with
          | none => rfl
          | some paragraph => exact members paragraph around

theorem evaluate (covers : mask.Covers gone shown hidden) (origin : NodeId) (trigger : Trigger)
    (value : String) :
    mask.Covers gone (evaluate shown origin trigger (value.map mask.reveal)).1
      (evaluate hidden origin trigger value).1 := by
  have sameLive : shown.isLive origin = hidden.isLive origin := by
    rw [← covers.reveals, Document.isLive_recode]
  rw [Filling.evaluate, Filling.evaluate, fires_map, sameLive]
  split
  · rename_i due
    rw [Bool.and_eq_true] at due
    have same := covers.targets (covers.severed.kept_of_isLive due.2) trigger.scope
    simp only [same]
    refine covers.foldl fun id _ shown hidden covers => ?_
    cases trigger.command with
    | remove => exact covers.delete id
    | clear => exact covers.clearTextDeep id
  · exact covers

theorem evaluateAll (covers : mask.Covers gone shown hidden) (firings : List Firing) :
    mask.Covers gone (Firing.evaluateAll shown (firings.map (Firing.recode mask.reveal)))
      (Firing.evaluateAll hidden firings) := by
  rw [Firing.evaluateAll, Firing.evaluateAll, List.foldl_map]
  refine covers.foldl fun firing _ shown hidden covers => ?_
  have sameLive : shown.isLive firing.text = hidden.isLive firing.text := by
    rw [← covers.reveals, Document.isLive_recode]
  simp only [Firing.evaluate, Firing.recode, sameLive]
  generalize (if hidden.isLive firing.text then some firing.text else firing.holder) = origin
  cases origin with
  | none => exact covers
  | some origin => exact covers.evaluate origin firing.trigger firing.value

theorem sweepUnset (covers : mask.Covers gone shown hidden) (params : Params) :
    mask.Covers gone (sweepUnset shown (params.recode mask.reveal)) (sweepUnset hidden params) := by
  have found : shown.findAll shown.root [Wordml.text] = hidden.findAll hidden.root [Wordml.text] := by
    rw [← covers.reveals, Document.root_recode, Document.findAll_recode]
  have triggers : (hidden.findAll hidden.root [Wordml.text]).flatMap
      (unsetTriggers shown (params.recode mask.reveal)) =
        (hidden.findAll hidden.root [Wordml.text]).flatMap (unsetTriggers hidden params) := by
    refine List.flatMap_congr fun id member => ?_
    rw [unsetTriggers, unsetTriggers, covers.scan_text (covers.text_of_mem_findAll member)]
    refine List.filterMap_congr fun placeholder _ => ?_
    rw [Params.resolve_recode, List.isEmpty_map]
  rw [Filling.sweepUnset, Filling.sweepUnset, found, triggers]
  have empty : ("" : String).map mask.reveal = "" := String.map_eq_empty.mpr rfl
  refine covers.foldl fun entry _ shown hidden covers => ?_
  have swept := covers.evaluate entry.1 entry.2 ""
  rwa [empty] at swept

end Mask.Covers

end WordTemplate
