import WordTemplate.Filling.Passes
import WordTemplate.Proofs.Filling.Finish
import WordTemplate.Proofs.Filling.MaskedTriggers
import WordTemplate.Proofs.Wordml.Sparing

/-! The document that filling starts from, with lists marked and runs repaired. If a change of characters
leaves a document as it is, it leaves this one as it is too, and a tidy one is masked. -/

namespace WordTemplate

open Markup

namespace Markup.Document.FixedBy

variable {change : Char → Char} {document : Document}

theorem deleteText (fixed : document.FixedBy change) (id : NodeId) :
    (Wordml.deleteText document id).FixedBy change := by
  rw [FixedBy, ← Wordml.deleteText_recode, fixed]

theorem preserveSpace (fixed : document.FixedBy change) (disguises : Text.Disguises change)
    (id : NodeId) : (Wordml.preserveSpace document id).FixedBy change := by
  rw [FixedBy, ← Wordml.preserveSpace_recode disguises, fixed]

end Markup.Document.FixedBy

section Fixed

open Markup.Document (FixedBy)

variable {change : Char → Char} {document : Document}

theorem Filling.fixedBy_markLists (fixed : document.FixedBy change) :
    (markLists document).FixedBy change := by
  refine List.foldlRecOn (motive := FixedBy change) _ _ fixed fun document fixed id _ => ?_
  split
  · rename_i number found
    have same : number.map change = number := by
      have again := @listNumber?_recode change document id
      rw [fixed, found, Option.map_some, Option.some.injEq] at again
      exact again.symm
    rw [FixedBy, ← Document.setAttribute_recode, same, fixed]
  · exact fixed

namespace Wordml

variable (disguises : Text.Disguises change)
include disguises

theorem fixedBy_joinRuns (fixed : document.FixedBy change) (anchor : Option Anchor)
    (children : List NodeId) : (joinRuns document anchor children).1.FixedBy change := by
  induction children generalizing document anchor with
  | nil => exact fixed
  | cons child rest ih =>
      rw [joinRuns]
      split
      · exact ih fixed none
      · rename_i found _
        simp only
        split
        · rename_i target _
          exact ih (((fixed.pushText target.text found).preserveSpace disguises _).delete child) _
        · exact ih fixed _

omit disguises in
theorem fixedBy_absorb (fixed : document.FixedBy change) (target : NodeId) (ids : List NodeId) :
    (absorb document target ids).FixedBy change :=
  List.foldlRecOn ids _ fixed fun _ fixed id _ => (fixed.pushText target id).deleteText id

theorem fixedBy_completeMarkers (fixed : document.FixedBy change) (ids : List NodeId) :
    (completeMarkers document ids).1.FixedBy change := by
  refine completeMarkers_induction (motive := fun document _ result =>
    document.FixedBy change → result.FixedBy change) ?_ ?_ ?_ document ids fixed
  · exact fun _ fixed => fixed
  · exact fun document id rest taken after result _ kept fixed =>
      kept ((fixedBy_absorb fixed id taken).preserveSpace disguises id)
  · exact fun _ _ _ _ kept => kept

theorem fixedBy_repairRuns (fixed : document.FixedBy change) :
    (repairRuns document).FixedBy change := by
  refine List.foldlRecOn (motive := FixedBy change) _ _ fixed fun document fixed id _ => ?_
  split
  · refine eachParagraph_induction (fun document id fixed => ?_)
      (eachParagraph_induction (fun document id fixed => ?_) fixed id) id
    · exact fixedBy_completeMarkers disguises fixed _
    · exact fixedBy_joinRuns disguises fixed none _
  · exact fixed

end Wordml

end Fixed

namespace Filling

theorem topped_markLists {document : Document} (topped : Wordml.Topped document) :
    Wordml.Topped (markLists document) := by
  refine List.foldlRecOn (motive := Wordml.Topped) _ _ topped fun document topped id _ => ?_
  split
  · refine (Wordml.Spares.rewritten topped (Document.rewritten_modify document id ?_ ?_ ?_ ?_)).topped
    all_goals exact fun _ => rfl
  · exact topped

/-- What filling starts from. -/
def prepare (document : Document) : Document :=
  Wordml.repairRuns (markLists document)

end Filling

namespace Mask

variable {mask : Mask}

/-- A tidy document without characters that stand for braces is masked as it is. -/
theorem covers_self {document : Document} (topped : Wordml.Topped document)
    (fixed : document.FixedBy mask.reveal) (tidy : document.LiveSlots Placeholder.Tidy) :
    mask.Covers (fun id => id < document.size ∧ document.isLive id = false) document document := by
  obtain ⟨forest, holds⟩ := topped.sound.forest
  refine ⟨fixed, Document.severed_of_holds holds fun id listed inside => ?_, fun lost => ?_⟩
  · have slots := tidy id listed inside
    refine ⟨fun isText => ?_, fun entry member => ?_⟩
    · exact masked_of_tidy (slots.text isText) (free_of_map_reveal (fixed.text id))
    · exact masked_of_tidy (slots.value entry member) (free_of_map_reveal (fixed.value member))
  · rw [topped.live] at lost
    exact absurd lost.2 (by decide)

end Mask

end WordTemplate
