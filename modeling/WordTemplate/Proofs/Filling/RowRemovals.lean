import Mathlib.Data.List.Induction
import Mathlib.Data.List.Pairwise
import WordTemplate.Proofs.Filling.RowPlaces
import WordTemplate.Proofs.Filling.TriggerPasses
import WordTemplate.Proofs.Markup.Places

/-! Triggers that remove rows. Seen from a row that holds no other row, the scope of such a trigger is the
row, and when several triggers have been carried out the rows are left from which none was seen. -/

namespace WordTemplate.Filling

open Markup
open Markup.Outline (idsAll)

section Targets

variable {document : Document} {context : Context} {row : Outline}

theorem isLowestRow_congr {first second : Document} (same : ∀ id, second.tag id = first.tag id)
    {inRow : Bool} {outline : Outline} (lowest : IsLowestRow inRow (outline.toTree first)) :
    IsLowestRow inRow (outline.toTree second) := by
  have tags : second.tag = first.tag := funext same
  rw [IsLowestRow, Outline.tagsBelow_toTree, Outline.tag_toTree] at lowest ⊢
  rwa [tags]

/-- From below a row that holds no other row the row itself is found. -/
theorem targets_of_lowest (holds : document.Holds (context.fill [row]))
    (lowest : IsLowestRow ((context.tagsAbove document).contains Wordml.row) (row.toTree document))
    {id : NodeId} (below : id ∈ idsAll row.children) : targets document id .row = [row.id] := by
  rw [IsLowestRow, Outline.tagsBelow_toTree, Outline.tag_toTree] at lowest
  have upwards (tag : String) (absent : tag ∉ (idsAll row.children).map document.tag) :
      document.closest? id [tag] =
        if document.isAny [tag] row.id then some row.id else context.closest? document [tag] := by
    rw [← holds.closest?]
    refine holds.closest?_of_below (Document.holds_fill_iff.mp holds).links (fun other stands => ?_) id
      below
    rw [Document.isAny, List.contains_eq_mem, decide_eq_false_iff_not, List.mem_singleton]
    exact fun same => absent (List.mem_map.mpr ⟨other, stands, same⟩)
  rw [targets]
  rcases lowest with ⟨isRow, absent⟩ | ⟨isParagraph, outside, absent⟩
  · rw [upwards _ absent, Document.isAny, isRow, if_pos (by simp)]
    rfl
  · have above : context.closest? document [Wordml.row] = none := by
      refine Context.closest?_eq_none fun tag member => ?_
      rw [List.mem_singleton]
      rintro rfl
      simp [member] at outside
    rw [upwards _ (absent Wordml.row (by simp [rowTags])),
      upwards _ (absent Wordml.paragraph (by simp [rowTags])), Document.isAny, Document.isAny,
      isParagraph, if_neg (by decide), above, if_pos (by simp)]
    rfl

end Targets

/-- The trigger removes a row around its text, which stands below the given row. -/
structure RemovesRow (firing : Firing) (row : Outline) : Prop where
  command : firing.trigger.command = .remove
  scope : firing.trigger.scope = .row
  fires : firing.fires = true
  text : firing.text ∈ idsAll row.children
  holder : ∃ holder ∈ row.ids, firing.holder = some holder

namespace RemovesRow

variable {firing : Firing} {row : Outline} (removes : RemovesRow firing row)
include removes

theorem text_mem : firing.text ∈ row.ids := by
  rw [← Outline.node_eta row, Outline.ids]
  exact List.mem_cons_of_mem _ removes.text

theorem evaluate_of_left {document : Document} {context : Context}
    (holds : document.Holds (context.fill [row]))
    (lowest : IsLowestRow ((context.tagsAbove document).contains Wordml.row)
      (row.toTree document)) : firing.evaluate document = document.delete row.id := by
  have live : document.isLive firing.text = true := by
    refine holds.isLive_of_mem ?_
    rw [(Document.idsAll_fill context _).mem_iff, List.mem_append]
    exact .inr (by simpa [idsAll] using removes.text_mem)
  have fires : firing.trigger.fires firing.value = true := removes.fires
  rw [Firing.evaluate, if_pos live]
  simp only [evaluate, fires, live, removes.scope, targets_of_lowest holds lowest removes.text,
    removes.command]
  rfl

theorem evaluate_of_gone {document : Document}
    (gone : ∀ id ∈ row.ids, document.isLive id = false) : firing.evaluate document = document := by
  obtain ⟨holder, member, held⟩ := removes.holder
  rw [Firing.evaluate, gone _ removes.text_mem, if_neg (by decide), held]
  simp [evaluate, gone holder member]

end RemovesRow

/-- The second document is the first one with only some of the rows left. -/
structure Leaves (first : Document) (context : Context) (left : List Outline) (second : Document) :
    Prop where
  holds : second.Holds (context.fill left)
  same : ∀ id, (second.node id).toElement = (first.node id).toElement
  root : second.root = first.root

section Run

variable {first second : Document} {context : Context} {rows left : List Outline}

theorem eq_of_mem_ids (nodup : (idsAll rows).Nodup) {row other : Outline} (listed : row ∈ rows)
    (also : other ∈ rows) {id : NodeId} (inside : id ∈ row.ids) (within : id ∈ other.ids) :
    row = other := by
  rw [Outline.idsAll_eq, List.nodup_flatMap] at nodup
  have : Std.Symm (Function.onFun List.Disjoint Outline.ids) :=
    ⟨fun _ _ disjoint _ second first => disjoint first second⟩
  by_contra apart
  exact nodup.2.forall listed also apart inside within

theorem nodup_of_idsAll (nodup : (idsAll rows).Nodup) : rows.Nodup := by
  rw [Outline.idsAll_eq, List.nodup_flatMap] at nodup
  refine nodup.2.imp fun disjoint same => ?_
  exact disjoint (Outline.id_mem_ids _) (same ▸ Outline.id_mem_ids _)

variable (holds : first.Holds (context.fill rows))
  (lowest : ∀ row ∈ rows,
    IsLowestRow ((context.tagsAbove first).contains Wordml.row) (row.toTree first))
include holds lowest

/-- A trigger takes away the row that it is seen from, if that is left. -/
theorem Leaves.evaluate (leaves : Leaves first context left second) (inside : left ⊆ rows)
    {firing : Firing} {row : Outline} (listed : row ∈ rows) (removes : RemovesRow firing row) :
    Leaves first context (left.filter fun row => firing.text ∉ row.ids) (firing.evaluate second) := by
  have nodup := (Document.holds_fill_iff.mp holds).nodup
  obtain ⟨-, ofRows, apart⟩ := List.nodup_append.mp nodup
  have ofLeft := (List.nodup_append.mp (Document.holds_fill_iff.mp leaves.holds).nodup).2.1
  have only : ∀ other ∈ left, firing.text ∈ other.ids → other = row := fun other member within =>
    eq_of_mem_ids ofRows (inside member) listed within removes.text_mem
  by_cases stillThere : row ∈ left
  · obtain ⟨front, back, rfl⟩ := List.append_of_mem stillThere
    have beside : second.Holds ((context.beside front back).fill [row]) := by
      rw [Context.fill_beside, List.append_assoc]
      exact leaves.holds
    have tree : row.toTree second = row.toTree first :=
      Outline.toTree_congr fun id _ => leaves.same id
    have above : (context.beside front back).tagsAbove second = context.tagsAbove first := by
      rw [Context.tagsAbove_beside]
      exact Context.tagsAbove_congr (fun id => congrArg Element.tag (leaves.same id)) context
    have others : (front ++ row :: back).filter (fun row => firing.text ∉ row.ids) = front ++ back := by
      have once := (nodup_of_idsAll ofLeft).perm List.perm_middle
      have kept : ∀ other ∈ front ++ back, firing.text ∉ other.ids := by
        intro other member within
        have same := only other (by simp at member ⊢; tauto) within
        exact (List.nodup_cons.mp once).1 (same ▸ member)
      rw [List.forall_mem_append] at kept
      rw [List.filter_append, List.filter_cons_of_neg (by simpa using removes.text_mem),
        List.filter_eq_self.mpr (by simpa using kept.1), List.filter_eq_self.mpr (by simpa using kept.2)]
    rw [removes.evaluate_of_left beside (by rw [above, tree]; exact lowest row listed), others]
    have deleted := beside.delete
    rw [Context.fill_beside, List.append_nil] at deleted
    exact ⟨deleted, fun id => (Document.toElement_delete beside id).trans (leaves.same id),
      (Document.ages_delete second row.id).root.trans leaves.root⟩
  · have gone : ∀ id ∈ row.ids, second.isLive id = false := by
      intro id member
      by_contra live
      have stands := leaves.holds.mem_of_isLive id (by simpa using live)
      rw [(Document.idsAll_fill context left).mem_iff, List.mem_append] at stands
      rcases stands with around | within
      · exact apart id around id (Outline.mem_idsAll.mpr ⟨row, listed, member⟩) rfl
      · obtain ⟨other, still, below⟩ := Outline.mem_idsAll.mp within
        exact stillThere (eq_of_mem_ids ofRows (inside still) listed below member ▸ still)
    have others : left.filter (fun row => firing.text ∉ row.ids) = left := by
      rw [List.filter_eq_self]
      intro other member
      rw [decide_eq_true_eq]
      exact fun within => stillThere (only other member within ▸ member)
    rw [removes.evaluate_of_gone gone, others]
    exact leaves

theorem leaves_evaluateAll {firings : List Firing}
    (removals : ∀ firing ∈ firings, ∃ row ∈ rows, RemovesRow firing row) :
    Leaves first context (rows.filter fun row => ∀ firing ∈ firings, firing.text ∉ row.ids)
      (Firing.evaluateAll first firings) := by
  induction firings using List.reverseRecOn with
  | nil => exact ⟨by simpa [Firing.evaluateAll] using holds, fun _ => rfl, rfl⟩
  | append_singleton done firing ih =>
      have earlier := ih fun other member => removals other (by simp [member])
      obtain ⟨row, listed, removes⟩ := removals firing (by simp)
      have next := earlier.evaluate holds lowest (List.filter_subset_self _) listed removes
      rw [List.filter_filter] at next
      have both : (fun row : Outline => decide (∀ other ∈ done ++ [firing], other.text ∉ row.ids)) =
          fun row : Outline =>
            decide (firing.text ∉ row.ids) && decide (∀ other ∈ done, other.text ∉ row.ids) := by
        funext row
        rw [← Bool.decide_and, decide_eq_decide, List.forall_mem_append, and_comm]
        simp
      rw [Firing.evaluateAll, List.foldl_append, both]
      exact next

end Run

end WordTemplate.Filling
