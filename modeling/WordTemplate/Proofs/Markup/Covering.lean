import WordTemplate.Markup.Walk
import WordTemplate.Proofs.Markup.Recode
import WordTemplate.Proofs.Markup.Severed
import WordTemplate.Proofs.Placeholder.Masking

/-! Two documents side by side, one with the braces of values hidden and one with them shown. What is
done to both keeps them alike, on walks too. -/

namespace WordTemplate

open Markup

namespace Wordml

theorem map_preserve {change : Char → Char} (disguises : Text.Disguises change) :
    ("preserve" : String).map change = "preserve" := by
  have letters : "preserve".toList.all (fun c => decide (¬ Text.Neutral c)) = true := by
    decide +kernel
  rw [← String.toList_inj, String.toList_map]
  refine (List.map_congr_left fun c member => ?_).trans (List.map_id _)
  exact disguises.fixed (of_decide_eq_true (List.all_eq_true.mp letters c member))

theorem hasOuterBlank_map {change : Char → Char} (disguises : Text.Disguises change)
    (content : List Char) : hasOuterBlank (content.map change) = hasOuterBlank content := by
  simp only [hasOuterBlank, List.head?_map, List.getLast?_map, Option.any_map, disguises.isBlank]

theorem preserveSpace_recode {change : Char → Char} (disguises : Text.Disguises change)
    (document : Document) (id : NodeId) :
    preserveSpace (document.recode change) id = (preserveSpace document id).recode change := by
  rw [preserveSpace, preserveSpace, Document.text_recode, String.toList_map,
    hasOuterBlank_map disguises]
  split
  · rw [← Document.setAttribute_recode, map_preserve disguises]
  · rfl

end Wordml

namespace Mask

open Markup.Document (Ages Severed Visitor)

variable {mask : Mask} {gone : Nat → Prop} {shown hidden : Document}

theorem masked_preserve : mask.Masked "preserve" := by
  have letters : "preserve".toList.all (fun c => decide (¬ Text.Neutral c)) = true := by
    decide +kernel
  have plain : Braceless "preserve".toList := by decide
  exact masked_of_free plain (free_of_not_neutral fun c member =>
    of_decide_eq_true (List.all_eq_true.mp letters c member))

variable (mask gone) in
/-- The shown document is the hidden one with the braces revealed, and what can be reached in the
hidden one is masked. -/
structure Covers (shown hidden : Document) : Prop where
  reveals : hidden.recode mask.reveal = shown
  severed : hidden.Severed gone mask.Masked
  root : ¬ gone hidden.root

namespace Covers

theorem step (covers : mask.Covers gone shown hidden) {next after : Document}
    (ages : Ages hidden after) (reveals : after.recode mask.reveal = next)
    (severed : after.Severed gone mask.Masked) : mask.Covers gone next after :=
  ⟨reveals, severed, by rw [ages.root]; exact covers.root⟩

theorem text (covers : mask.Covers gone shown hidden) {id : NodeId} (kept : ¬ gone id)
    (isText : hidden.tag id = Wordml.text) : mask.Masked (hidden.text id) :=
  (covers.severed.element kept).text isText

theorem kept_of_mem_findAll (covers : mask.Covers gone shown hidden) {start id : NodeId}
    {tags : List String} (member : id ∈ hidden.findAll start tags) : ¬ gone id :=
  covers.severed.kept_of_mem_descendants (List.mem_filter.mp member).1

theorem text_of_mem_findAll (covers : mask.Covers gone shown hidden) {start id : NodeId}
    (member : id ∈ hidden.findAll start [Wordml.text]) : mask.Masked (hidden.text id) := by
  refine covers.text (covers.kept_of_mem_findAll member) ?_
  simpa [Document.isAny] using (List.mem_filter.mp member).2

theorem scan_text (covers : mask.Covers gone shown hidden) {id : NodeId}
    (masked : mask.Masked (hidden.text id)) :
    Placeholder.scan (shown.text id) = Placeholder.scan (hidden.text id) := by
  rw [← covers.reveals, Document.text_recode, masked.scan_reveal]

theorem setText (covers : mask.Covers gone shown hidden) (id : NodeId) {content : String}
    (masked : mask.Masked content) :
    mask.Covers gone (shown.setText id (content.map mask.reveal)) (hidden.setText id content) := by
  refine covers.step (Document.ages_modify hidden id (fun _ dead => dead) fun _ => rfl) ?_
    (covers.severed.setText id masked)
  rw [← covers.reveals, Document.setText_recode]

theorem setAttributes (covers : mask.Covers gone shown hidden) (id : NodeId)
    {attributes : List Attribute} (masked : ¬ gone id → ∀ entry ∈ attributes, mask.Masked entry.value) :
    mask.Covers gone (shown.setAttributes id (attributes.map (Attribute.recode mask.reveal)))
      (hidden.setAttributes id attributes) := by
  refine covers.step (Document.ages_modify hidden id (fun _ dead => dead) fun _ => rfl) ?_
    (covers.severed.setAttributes id masked)
  rw [← covers.reveals, Document.setAttributes_recode]

theorem mapValues (covers : mask.Covers gone shown hidden) {id : NodeId} (kept : ¬ gone id)
    {first second : String → String}
    (masked : ∀ {value}, mask.Masked value → mask.Masked (second value))
    (alike : ∀ {value}, mask.Masked value →
      first (value.map mask.reveal) = (second value).map mask.reveal) :
    mask.Covers gone
      (shown.setAttributes id ((shown.node id).attributes.map fun entry =>
        { entry with value := first entry.value }))
      (hidden.setAttributes id ((hidden.node id).attributes.map fun entry =>
        { entry with value := second entry.value })) := by
  have before := (covers.severed.element kept).value
  have same : ((shown.node id).attributes.map fun entry => { entry with value := first entry.value }) =
      ((hidden.node id).attributes.map fun entry =>
        { entry with value := second entry.value }).map (Attribute.recode mask.reveal) := by
    rw [← covers.reveals, Document.node_recode]
    simp only [Node.recode, Element.recode, List.map_map]
    exact List.map_congr_left fun entry member =>
      congrArg (Attribute.mk entry.key) (alike (before entry member))
  rw [same]
  refine covers.setAttributes id fun _ entry member => ?_
  obtain ⟨origin, listed, rfl⟩ := List.mem_map.mp member
  exact masked (before origin listed)

theorem preserveSpace (covers : mask.Covers gone shown hidden) (id : NodeId) :
    mask.Covers gone (Wordml.preserveSpace shown id) (Wordml.preserveSpace hidden id) := by
  have ages : Ages hidden (Wordml.preserveSpace hidden id) := by
    rw [Wordml.preserveSpace]
    split
    · exact Document.ages_modify hidden id (fun _ dead => dead) fun _ => rfl
    · exact .refl hidden
  refine covers.step ages ?_ (covers.severed.preserveSpace id masked_preserve)
  rw [← covers.reveals, Wordml.preserveSpace_recode mask.disguises_reveal]

theorem clearTextDeep (covers : mask.Covers gone shown hidden) (id : NodeId) :
    mask.Covers gone (shown.clearTextDeep id) (hidden.clearTextDeep id) := by
  have ages : Ages hidden (hidden.clearTextDeep id) := by
    refine Document.ages_foldl (fun document inner => ?_) _ _
    exact Document.ages_modify document inner (fun _ dead => dead) fun _ => rfl
  refine covers.step ages ?_ (covers.severed.clearTextDeep id masked_empty)
  rw [← covers.reveals, Document.clearTextDeep_recode]

theorem delete (covers : mask.Covers gone shown hidden) (id : NodeId) :
    mask.Covers gone (shown.delete id) (hidden.delete id) := by
  refine covers.step (Document.ages_delete hidden id) ?_ (covers.severed.delete id)
  rw [← covers.reveals, Document.delete_recode]

theorem insertAfter (covers : mask.Covers gone shown hidden) {anchor id : NodeId}
    (anchorKept : ¬ gone anchor) (kept : ¬ gone id) :
    mask.Covers gone (shown.insertAfter anchor id).1 (hidden.insertAfter anchor id).1 := by
  refine covers.step (Document.ages_insertAfter hidden anchor id) ?_
    (covers.severed.insertAfter anchorKept kept)
  rw [← covers.reveals, Document.insertAfter_recode]

theorem cloneSubtree (covers : mask.Covers gone shown hidden) {id : NodeId} (kept : ¬ gone id) :
    mask.Covers gone (shown.cloneSubtree id).1 (hidden.cloneSubtree id).1 := by
  refine covers.step (Document.ages_cloneSubtree hidden id) ?_ (covers.severed.cloneSubtree kept)
  rw [← covers.reveals, Document.cloneSubtree_recode]

theorem createElement (covers : mask.Covers gone shown hidden) (tag : String) :
    mask.Covers gone (shown.createElement tag).1 (hidden.createElement tag).1 := by
  have created : (hidden.createElement tag).1.Severed gone mask.Masked := by
    refine covers.severed.push ?_ ?_
    · simpa using ⟨fun _ => masked_empty, by simp⟩
    · simpa using ⟨by simp, by simp⟩
  refine covers.step (Document.ages_push hidden _) ?_ created
  rw [← covers.reveals, Document.createElement_recode]

theorem kept_of_size_le (covers : mask.Covers gone shown hidden) {id : Nat}
    (beyond : hidden.size ≤ id) : ¬ gone id :=
  fun lost => Nat.not_lt.mpr beyond (covers.severed.bound id lost)

theorem foldl {α : Type} {first second : Document → α → Document} {items : List α}
    (step : ∀ item ∈ items, ∀ shown hidden, mask.Covers gone shown hidden →
      mask.Covers gone (first shown item) (second hidden item))
    (covers : mask.Covers gone shown hidden) :
    mask.Covers gone (items.foldl first shown) (items.foldl second hidden) := by
  induction items generalizing shown hidden with
  | nil => exact covers
  | cons item rest ih =>
      exact ih (fun other member => step other (by simp [member]))
        (step item (by simp) shown hidden covers)

section Walk

variable {σ τ : Type} {agree : σ → τ → Prop} {first : Visitor σ} {second : Visitor τ}

variable (mask gone agree first second) in
def Visits : Prop :=
  ∀ (shown hidden : Document) (own : σ) (other : τ) (id : NodeId), mask.Covers gone shown hidden →
    agree own other → hidden.isLive id = true →
    mask.Covers gone (first shown own id).1 (second hidden other id).1 ∧
      agree (first shown own id).2.1 (second hidden other id).2.1 ∧
      (first shown own id).2.2 = (second hidden other id).2.2

theorem foldl_walkers {walkShown : Document × σ → NodeId → Document × σ}
    {walkHidden : Document × τ → NodeId → Document × τ} {ids : List NodeId}
    (step : ∀ id ∈ ids, ∀ (shown : Document × σ) (hidden : Document × τ),
      mask.Covers gone shown.1 hidden.1 → agree shown.2 hidden.2 →
      mask.Covers gone (walkShown shown id).1 (walkHidden hidden id).1 ∧
        agree (walkShown shown id).2 (walkHidden hidden id).2)
    {shown : Document × σ} {hidden : Document × τ}
    (covers : mask.Covers gone shown.1 hidden.1) (agrees : agree shown.2 hidden.2) :
    mask.Covers gone (ids.foldl walkShown shown).1 (ids.foldl walkHidden hidden).1 ∧
      agree (ids.foldl walkShown shown).2 (ids.foldl walkHidden hidden).2 := by
  induction ids generalizing shown hidden with
  | nil => exact ⟨covers, agrees⟩
  | cons id rest ih =>
      obtain ⟨next, still⟩ := step id (by simp) shown hidden covers agrees
      exact ih (fun other member => step other (by simp [member])) next still

theorem walkNode (visits : Visits mask gone agree first second) (depth : Nat)
    (shown : Document × σ) (hidden : Document × τ) (id : NodeId)
    (covers : mask.Covers gone shown.1 hidden.1) (agrees : agree shown.2 hidden.2) :
    mask.Covers gone (Document.walkNode first depth shown id).1
        (Document.walkNode second depth hidden id).1 ∧
      agree (Document.walkNode first depth shown id).2
        (Document.walkNode second depth hidden id).2 := by
  induction depth generalizing shown hidden id with
  | zero => exact ⟨covers, agrees⟩
  | succ depth ih =>
      have sameLive : shown.1.isLive id = hidden.1.isLive id := by
        rw [← covers.reveals, Document.isLive_recode]
      rw [Document.walkNode, Document.walkNode, sameLive]
      by_cases live : hidden.1.isLive id = true
      · obtain ⟨next, still, step⟩ := visits shown.1 hidden.1 shown.2 hidden.2 id covers agrees live
        have nextLive : (first shown.1 shown.2 id).1.isLive id =
            (second hidden.1 hidden.2 id).1.isLive id := by
          rw [← next.reveals, Document.isLive_recode]
        have sameChildren : (first shown.1 shown.2 id).1.children id =
            (second hidden.1 hidden.2 id).1.children id := by
          rw [← next.reveals, Document.children_recode]
        simp only [if_pos live, nextLive, sameChildren, step]
        split
        · exact ⟨next, still⟩
        · exact foldl_walkers (fun child _ shown hidden => ih shown hidden child) next still
      · rw [if_neg live, if_neg live]
        exact ⟨covers, agrees⟩

/-- A walk over both documents keeps them alike, if every visit does. -/
theorem walk (visits : Visits mask gone agree first second)
    (covers : mask.Covers gone shown hidden) {own : σ} {other : τ} (agrees : agree own other)
    (start : NodeId) :
    mask.Covers gone (shown.walk start first own).1 (hidden.walk start second other).1 ∧
      agree (shown.walk start first own).2 (hidden.walk start second other).2 := by
  have sameChildren : shown.children start = hidden.children start := by
    rw [← covers.reveals, Document.children_recode]
  have sameSize : shown.size = hidden.size := by
    rw [← covers.reveals, Document.size_recode]
  rw [Document.walk, Document.walk, sameChildren, sameSize]
  exact foldl_walkers (fun child _ shown hidden => walkNode visits _ shown hidden child) covers agrees

end Walk

end Covers

end Mask

end WordTemplate
