import WordTemplate.Proofs.Filling.Repeats
import WordTemplate.Proofs.Markup.Severed

/-! The passes behind the last filling, and filling as a whole. What holds of all parts of the texts and
values goes on to hold when they are copied, cut into lines and taken away, so that no placeholder that
addresses a scalar is written. -/

namespace WordTemplate

theorem Text.infix_of_mem_pieces {separator : Char} {text piece : List Char}
    (member : piece ∈ pieces separator text) : piece <:+: text := by
  suffices ∀ first others, pieces separator text = first :: others →
      first <+: text ∧ ∀ other ∈ others, other <:+: text by
    cases cut : pieces separator text with
    | nil => exact absurd cut (pieces_ne_nil separator text)
    | cons first others =>
        obtain ⟨front, behind⟩ := this first others cut
        rw [cut] at member
        rcases List.mem_cons.mp member with here | later
        · exact here ▸ front.isInfix
        · exact behind piece later
  clear member
  induction text with
  | nil =>
      intro first others cut
      simp only [pieces, List.cons.injEq] at cut
      obtain ⟨rfl, rfl⟩ := cut
      simp
  | cons c rest ih =>
      intro first others cut
      rw [pieces] at cut
      cases inner : pieces separator rest with
      | nil => exact absurd inner (pieces_ne_nil separator rest)
      | cons next more =>
          obtain ⟨front, behind⟩ := ih next more inner
          have later : ∀ other, other <:+: rest → other <:+: c :: rest :=
            fun other inside => inside.trans (List.suffix_cons c rest).isInfix
          rw [inner] at cut
          split at cut
          · simp only [List.cons.injEq] at cut
            obtain ⟨rfl, rfl⟩ := cut
            refine ⟨List.nil_prefix, ?_⟩
            intro other listed
            rcases List.mem_cons.mp listed with here | below
            · exact later other (here ▸ front.isInfix)
            · exact later other (behind other below)
          · simp only [List.cons.injEq] at cut
            obtain ⟨rfl, rfl⟩ := cut
            exact ⟨(List.prefix_cons_inj c).mpr front, fun other listed => later other (behind other listed)⟩

namespace Markup.Document

open Outline (idsAll)

variable {document : Document}

/-- In a rooted document the dead slots are out of reach. -/
theorem severed_of_holds {forest : List Outline} (holds : document.Holds forest)
    {property : String → Prop} (slots : document.LiveSlots property) :
    document.Severed (fun id => id < document.size ∧ document.isLive id = false) property := by
  have alive : ∀ id : Nat, ¬ (id < document.size ∧ document.isLive id = false) →
      document.isLive id = true ∨ document.size ≤ id := by
    intro id kept
    rcases Nat.lt_or_ge id document.size with bound | beyond
    · left
      cases live : document.isLive id with
      | true => rfl
      | false => exact absurd ⟨bound, live⟩ kept
    · exact .inr beyond
  refine ⟨?_, fun id lost => lost.2, fun id lost => lost.1, ?_, ?_⟩
  · intro id kept _
    rcases alive id kept with live | beyond
    · exact slots id trivial fun _ => live
    · rw [node_of_le_size beyond]
      exact slots_absent
  · intro id kept child listed lost
    have live := holds.isLive_of_child listed
    rw [lost.2] at live
    exact absurd live (by decide)
  · intro id kept above stands lost
    rcases alive id kept with live | beyond
    · have alive := holds.isLive_parent live stands
      rw [lost.2] at alive
      exact absurd alive (by decide)
    · rw [parent?, node_of_le_size beyond] at stands
      simp [Node.absent] at stands

end Markup.Document

namespace Filling

open Markup
open Markup.Document (Severed Ages)

variable {gone : Nat → Prop} {holds : String → Prop} {document : Document}

theorem infix_of_mem_lines {content line : String} (member : line ∈ lines content) :
    line.toList <:+: content.toList := by
  obtain ⟨piece, listed, rfl⟩ := List.mem_map.mp member
  have inside := Text.infix_of_mem_pieces listed
  rw [String.toList_ofList, dropReturn]
  split
  · exact (List.dropLast_prefix piece).isInfix.trans inside
  · exact inside

def beforeRefill (document : Document) (params : Params) : Document :=
  let document := fillSingles (Wordml.repairRuns (markLists document)) params
  let document := (expandLeftovers (expandRows document params).1 params).1
  fillInline document params

def finish (document : Document) (params : Params) : Document :=
  stripMarks (splitLines (sweepUnset document params)).1

theorem fill_eq (document : Document) (params : Params) :
    fill document params = finish (fillSingles (beforeRefill document params) params) params :=
  rfl

structure Hereditary (holds : String → Prop) : Prop where
  part : ∀ {text part : String}, part.toList <:+: text.toList → holds text → holds part
  preserve : holds "preserve"
  empty : holds ""

theorem severed_fillLine (hereditary : Hereditary holds) (severed : document.Severed gone holds)
    (copy : NodeId) (path : List Nat) {line : Line} (here : holds line.content) :
    (fillLine document copy path line).Severed gone holds := by
  rw [fillLine]
  split
  · exact severed
  · rename_i twin _
    have filled := ((severed.setText twin here).removeAttribute twin Wordml.spaceKey).preserveSpace
      twin hereditary.preserve
    simp only
    split
    · exact Severed.foldl (fun document id severed => severed.deleteText id) _ filled
    · exact filled

theorem severed_copyLines (hereditary : Hereditary holds) (severed : document.Severed gone holds)
    {paragraph anchor : NodeId} (paragraphKept : ¬ gone paragraph) (anchorKept : ¬ gone anchor)
    (path : List Nat) {lines : List Line} (here : ∀ line ∈ lines, holds line.content) :
    (copyLines document paragraph path anchor lines).Severed gone holds := by
  induction lines generalizing document anchor with
  | nil => exact severed
  | cons line rest ih =>
      have copyKept : ¬ gone document.size :=
        fun lost => Nat.lt_irrefl _ (severed.bound _ lost)
      have placed := (severed.cloneSubtree paragraphKept).insertAfter anchorKept copyKept
      have filled := severed_fillLine hereditary placed document.size path (here line (by simp))
      exact ih filled copyKept fun other member => here other (by simp [member])

theorem severed_splitParagraph (hereditary : Hereditary holds)
    (severed : document.Severed gone holds) {paragraph : NodeId} (kept : ¬ gone paragraph)
    (path : List Nat) {content : String} (here : holds content) :
    (splitParagraph document paragraph path content).Severed gone holds := by
  refine (severed_copyLines hereditary severed kept kept path ?_).delete paragraph
  intro line member
  obtain ⟨⟨text, index⟩, listed, rfl⟩ := List.mem_map.mp member
  exact hereditary.part (infix_of_mem_lines (List.fst_mem_of_mem_zipIdx listed)) here

theorem severed_splitFrom (hereditary : Hereditary holds) (fuel : Nat) (skipped : List NodeId)
    {document : Document} (count : Nat) (severed : document.Severed gone holds) :
    (splitFrom fuel skipped (document, count)).1.Severed gone holds := by
  induction fuel generalizing skipped document count with
  | zero =>
      rw [splitFrom]
      exact severed
  | succ fuel ih =>
      rw [splitFrom]
      split
      · exact severed
      · rename_i id found
        have listed := List.mem_filter.mp (List.mem_of_find?_eq_some found)
        have kept := severed.kept_of_mem_descendants listed.1
        have isText : document.tag id = Wordml.text := by simpa [Document.isAny] using listed.2
        have here : holds (document.text id) := (severed.element kept).text isText
        split
        · exact ih (id :: skipped) count severed
        · rename_i paragraph path located
          have around : document.closest? id [Wordml.paragraph] = some paragraph := by
            simp only [locate?, Option.bind_eq_bind, Option.bind_eq_some_iff] at located
            obtain ⟨found, closest, _, _, same⟩ := located
            cases same
            exact closest
          exact ih skipped (count + 1) (severed_splitParagraph hereditary severed
            (severed.kept_of_closest? kept around) path here)

theorem severed_evaluate (severed : document.Severed gone holds) (origin : NodeId)
    (trigger : Trigger) (value : String) (empty : holds "") :
    (evaluate document origin trigger value).1.Severed gone holds := by
  rw [evaluate]
  split
  · refine Severed.foldl (fun document id severed => ?_) _ severed
    cases trigger.command with
    | remove => exact severed.delete id
    | clear => exact severed.clearTextDeep id empty
  · exact severed

theorem severed_finish (hereditary : Hereditary holds) (severed : document.Severed gone holds)
    (params : Params) : (finish document params).Severed gone holds := by
  have swept : (sweepUnset document params).Severed gone holds :=
    Severed.foldl (fun _ _ severed => severed_evaluate severed _ _ _ hereditary.empty) _ severed
  have split : (splitLines (sweepUnset document params)).1.Severed gone holds :=
    severed_splitFrom hereditary _ [] 0 swept
  exact Severed.foldl (fun _ id severed => severed.removeAttribute id listKey) _ split

/-! Removed nodes stay removed to the end -/

theorem ages_removeAttribute (document : Document) (id : NodeId) (key : String) :
    Ages document (document.removeAttribute id key) :=
  Document.ages_modify document id (fun _ dead => dead) fun _ => rfl

theorem ages_deleteText (document : Document) (id : NodeId) :
    Ages document (Wordml.deleteText document id) :=
  (Document.keeps_deleteText document id : Document.Keeps (fun _ => True) document _).ages

theorem ages_fillLine (document : Document) (copy : NodeId) (path : List Nat) (line : Line) :
    Ages document (fillLine document copy path line) := by
  rw [fillLine]
  split
  · exact .refl document
  · rename_i twin _
    have filled := ((ages_setText document twin line.content).trans
      (ages_removeAttribute _ twin Wordml.spaceKey)).trans (ages_preserveSpace _ twin)
    simp only
    split
    · exact filled.trans (Document.ages_foldl ages_deleteText _ _)
    · exact filled

theorem ages_copyLines (document : Document) (paragraph : NodeId) (path : List Nat)
    (anchor : NodeId) (lines : List Line) :
    Ages document (copyLines document paragraph path anchor lines) := by
  induction lines generalizing document anchor with
  | nil => exact .refl document
  | cons line rest ih =>
      have placed := (Document.ages_cloneSubtree document paragraph).trans
        (Document.ages_insertAfter _ anchor document.size)
      exact (placed.trans (ages_fillLine _ document.size path line)).trans (ih _ document.size)

theorem ages_splitFrom (fuel : Nat) (skipped : List NodeId) (document : Document) (count : Nat) :
    Ages document (splitFrom fuel skipped (document, count)).1 := by
  induction fuel generalizing skipped document count with
  | zero => exact .refl document
  | succ fuel ih =>
      rw [splitFrom]
      split
      · exact .refl document
      · split
        · exact ih _ document count
        · rename_i paragraph path _
          exact ((ages_copyLines document paragraph path paragraph _).trans
            (Document.ages_delete _ paragraph)).trans (ih _ _ _)

theorem ages_finish (document : Document) (params : Params) :
    Ages document (finish document params) := by
  have swept : Document.Keeps (fun _ => True) document (sweepUnset document params) :=
    keeps_sweepUnset document params trivial
  exact (swept.ages.trans (ages_splitFrom _ [] _ 0)).trans
    (Document.ages_foldl (fun document id => ages_removeAttribute document id listKey) _ _)

theorem hereditary_lacks (addressed : String → Prop) :
    Hereditary fun text => Placeholder.Lacks addressed text.toList where
  part := fun inside lacks => lacks.infix inside
  preserve := (Placeholder.filled_of_braceless (by decide)).lacks
  empty := (Placeholder.filled_of_braceless (by decide)).lacks

/-- Filling leaves no placeholder that addresses a scalar in a document with tidy texts and values. -/
theorem lacks_fill {params : Params} (plain : Plain params) (rooted : document.Rooted)
    (tidy : document.AllSlots Placeholder.Tidy)
    (notText : document.tag document.root ≠ Wordml.text) :
    ∀ element ∈ (fill document params).written,
      element.Slots fun text => Placeholder.Lacks (Addressed params) text.toList := by
  have kept : Document.Keeps Placeholder.Tidy document (beforeRefill document params) :=
    ((((keeps_markLists document).trans (Wordml.keeps_repairRuns _)).trans
      (keeps_fillSingles plain _)).trans (keeps_expandRows plain.keyed _)).trans
      ((keeps_expandLeftovers plain.keyed _).trans (keeps_fillInline plain _))
  have refilled := keeps_fillSingles plain (beforeRefill document params)
  have tag := kept.ages.tag document.root rooted.root_lt_size
  rw [fill_eq]
  generalize beforeRefill document params = before at kept refilled tag
  have finished := ages_finish (fillSingles before params) params
  intro element member
  rw [Document.written] at member
  split at member
  · rename_i live
    have bound := (refilled.rooted (kept.rooted rooted)).root_lt_size
    have alive : (fillSingles before params).isLive (fillSingles before params).root = true := by
      cases alive : (fillSingles before params).isLive (fillSingles before params).root with
      | true => rfl
      | false =>
          have dead := (finished.rootDead ⟨bound, alive⟩).2
          rw [dead] at live
          exact absurd live (by decide)
    -- The root is there to the end, so that it was there at the last filling too.
    have stands : before.StandsBeside [] := by
      rcases kept.rooted rooted with dead | stands
      · have dead := (refilled.ages.rootDead dead).2
        rw [dead] at alive
        exact absurd alive (by decide)
      · exact stands
    have filled := filled_fillSingles plain stands (kept.slots tidy) (by rwa [kept.ages.root, tag])
    have lacks : (fillSingles before params).LiveSlots
        fun text => Placeholder.Lacks (Addressed params) text.toList := by
      intro id listed inside
      have slots := filled id listed inside
      exact ⟨fun isText => (slots.text isText).lacks, fun entry listed => (slots.value entry listed).lacks⟩
    rcases refilled.rooted (kept.rooted rooted) with dead | ⟨tree, -, holds⟩
    · rw [dead.2] at alive
      exact absurd alive (by decide)
    · have severed := severed_finish (hereditary_lacks _) (Document.severed_of_holds holds lacks) params
      refine severed.linkedTree (fun gone => ?_) element member
      have dead := severed.dead _ gone
      rw [dead] at live
      exact absurd live (by decide)
  · simp at member

end Filling

end WordTemplate
