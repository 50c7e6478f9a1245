import WordTemplate.Proofs.Filling.RecordValues

/-! The triggers in the copies of the row for records. Each that fires stands in the copy for a record
whose value is empty, and removes that copy and no other one. -/

namespace WordTemplate

open Markup
open Markup.Outline (idsAll)

theorem Markup.Outline.exists_parent {document : Document} {outline : Outline} {parent : Option NodeId}
    (links : ∀ link ∈ outline.links parent, document.Has link) :
    ∀ id ∈ idsAll outline.children, ∃ above ∈ outline.ids, document.parent? id = some above := by
  induction outline using Outline.induction generalizing parent with
  | node id children ih =>
      intro other member
      obtain ⟨child, listed, inside⟩ := mem_idsAll.mp member
      have below := Document.has_of_child links listed
      rw [← node_eta child, ids] at inside
      rcases List.mem_cons.mp inside with rfl | deeper
      · exact ⟨id, by simp [ids], (below _ (Document.top_mem_links child (some id))).parent⟩
      · obtain ⟨above, within, stands⟩ := ih child listed below other deeper
        refine ⟨above, ?_, stands⟩
        rw [ids]
        exact List.mem_cons_of_mem _ (mem_idsAll.mpr ⟨child, listed, within⟩)

namespace Filling

variable {list : String} {records : List Record}

/-- A trigger that fires in the copy of a row for a record. -/
structure FiresIn (list : String) (row : Tree) (document : Document) (record : Record) (copy : Outline)
    (firing : Firing) : Prop where
  text : firing.text ∈ idsAll copy.children
  holder : firing.holder = document.parent? firing.text
  fires : firing.fires = true
  trigger : firing.trigger = ⟨.empty, .remove, .row⟩
  asked : ∃ placeholder ∈ Placeholder.scan row.allText, placeholder.trigger?.isSome = true ∧
    record.valueFor list placeholder = firing.value

namespace RecordsCopied

variable {tree row : Tree} {place : List Nat} {document : Document} {context : Context}
  {copies : List Outline}
  (copied : RecordsCopied list records tree place row document context copies)
include copied

theorem mem_fired_iff {firing : Firing} :
    firing ∈ Pass.singles.fired document (recordParams list records) ↔
      firing.fires = true ∧ ∃ id ∈ document.descendants document.root,
        document.tag id = Wordml.text ∧
          firing ∈ textFirings document (recordParams list records) id := by
  rw [Pass.fired, copied.put.firings, List.mem_filter, List.mem_flatMap, and_comm]
  refine and_congr_right fun _ => exists_congr fun id => and_congr_right fun _ => ?_
  split <;> simp_all

theorem exists_position {copy : Outline} (member : copy ∈ copies) :
    ∃ (position : Nat) (record : Record), records[position]? = some record ∧
      copies[position]? = some copy := by
  obtain ⟨position, there⟩ := List.mem_iff_getElem?.mp member
  have inside := (List.getElem?_eq_some_iff.mp there).1
  rw [copied.length_copies] at inside
  exact ⟨position, records[position], List.getElem?_eq_getElem inside, there⟩

theorem lowest_copy {copy : Outline} (member : copy ∈ copies) :
    IsLowestRow ((context.tagsAbove document).contains Wordml.row) (copy.toTree document) := by
  obtain ⟨position, record, here, there⟩ := copied.exists_position member
  rw [copied.toTree_copy here there, copied.above]
  exact isLowestRow_map (tag_indexElement _ _) copied.stands.lowest

theorem below_of_isText {copy : Outline} (member : copy ∈ copies) {id : NodeId}
    (inside : id ∈ copy.ids) (isText : document.tag id = Wordml.text) : id ∈ idsAll copy.children := by
  have isRow := contains_rowTags_of_lowest (copied.lowest_copy member)
  rw [Outline.tag_toTree] at isRow
  rw [← Outline.node_eta copy, Outline.ids] at inside
  rcases List.mem_cons.mp inside with rfl | below
  · rw [isText] at isRow
    exact absurd isRow (by decide)
  · exact below

variable (are : AreRecords list records)
include are

theorem firesIn {firing : Firing}
    (fired : firing ∈ Pass.singles.fired document (recordParams list records)) :
    ∃ (position : Nat) (record : Record) (copy : Outline), records[position]? = some record ∧
      copies[position]? = some copy ∧ FiresIn list row document record copy firing := by
  obtain ⟨fires, id, below, isText, noted⟩ := copied.mem_fired_iff.mp fired
  have live : document.isLive id = true := Document.isLive_of_mem_descendantsTo below
  have stands := copied.holds.mem_of_isLive id live
  rw [(Document.idsAll_fill context copies).mem_iff, List.mem_append] at stands
  rcases stands with around | inside
  · rw [textFirings, Placeholder.scan_of_braceless (copied.text_around around).1] at noted
    simp at noted
  · obtain ⟨copy, member, inside⟩ := Outline.mem_idsAll.mp inside
    obtain ⟨position, record, here, there⟩ := copied.exists_position member
    obtain ⟨element, listed, same⟩ := copied.exists_element here there inside
    have tag : element.tag = Wordml.text := by
      rw [← isText, Document.tag, same, tag_indexElement]
    rw [copied.textFirings_copy listed same are here tag, List.mem_filterMap] at noted
    obtain ⟨placeholder, scanned, noted⟩ := noted
    obtain ⟨trigger, found, rfl⟩ := Option.map_eq_some_iff.mp noted
    have kind := ((copied.stands.inside element listed).asks placeholder scanned).trigger?
    refine ⟨position, record, copy, here, there, copied.below_of_isText member inside isText, rfl, fires,
      ?_, placeholder, ?_, by simp [found], rfl⟩
    · rw [found] at kind
      split at kind
      · cases kind
      · exact Option.some.inj kind
    · rw [Tree.allText, scan_textOf fun other member => (copied.stands.inside other member).tidy]
      exact List.mem_flatMap.mpr ⟨element, listed, scanned⟩

end RecordsCopied

end Filling

end WordTemplate
