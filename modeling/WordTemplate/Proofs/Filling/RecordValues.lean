import WordTemplate.Proofs.Filling.RecordCopies
import WordTemplate.Proofs.Filling.RowRemovals

/-! Putting the values of records into the copies of their row. A copy says what its record says, and it
is removed when a placeholder of the row asks for that and the value is empty. -/

namespace WordTemplate

open Markup

namespace Record

/-- A text with the values of a record in the place of its placeholders. -/
def fill (list : String) (record : Record) (text : String) : String :=
  Piece.render (record.valueFor list) (Piece.ofText text)

def stays (list : String) (record : Record) (text : String) : Bool :=
  (Placeholder.scan text).all fun placeholder =>
    placeholder.trigger?.isNone || record.valueFor list placeholder != ""

theorem fill_of_braceless (list : String) (record : Record) {text : String}
    (plain : Braceless text.toList) : record.fill list text = text := by
  refine Placeholder.render_ofText fun placeholder member => ?_
  rw [Placeholder.scan_of_braceless plain] at member
  simp at member

theorem fill_empty (list : String) (record : Record) : record.fill list "" = "" :=
  fill_of_braceless list record braceless_nil

theorem fill_textOf (list : String) (record : Record) {elements : List Element}
    (tidy : ∀ element ∈ elements, Placeholder.Tidy element.text) :
    record.fill list (Tree.textOf elements) =
      String.join (elements.map fun element => record.fill list element.text) := by
  induction elements with
  | nil => exact record.fill_empty list
  | cons element rest ih =>
      obtain ⟨here, others⟩ := List.forall_mem_cons.mp tidy
      rw [Tree.textOf_cons, fill, here.ofText_append (Filling.tidy_textOf others), Piece.render_append,
        List.map_cons, String.join_cons, ← ih others]
      rfl

end Record

namespace Filling

open Markup.Outline (idsAll toTrees)

variable {list : String} {records : List Record}

namespace RecordsCopied

variable {tree row : Tree} {place : List Nat} {document : Document} {context : Context}
  {copies : List Outline}
  (copied : RecordsCopied list records tree place row document context copies)
include copied

theorem hole_inside : context.parent? ≠ none := by
  have above := copied.above
  cases context with
  | under outer before after id => simp [Context.parent?]
  | top before after =>
      have inside := copied.notRoot
      cases place with
      | nil => exact absurd rfl inside
      | cons position path =>
          cases tree
          simp [Context.tagsAbove, Tree.tagsAlong] at above

theorem descendants_root : ∃ root : Outline, root.id ∈ context.ids ∧
    document.descendants document.root = idsAll root.children ∧
      idsAll (context.fill copies) = root.id :: idsAll root.children := by
  obtain ⟨root, whole, isRoot⟩ := copied.isRoot
  have holds : document.Holds ((Context.top [] []).fill [root]) := by
    have holds := copied.holds
    rwa [whole] at holds
  have below := holds.descendants
  rw [isRoot] at below
  refine ⟨root, (Context.exists_root copied.hole_inside whole copies).1, below, ?_⟩
  rw [whole, ← Outline.node_eta root, idsAll, Outline.ids, idsAll, List.append_nil]
  rfl

theorem nodup_descendants : (document.descendants document.root).Nodup := by
  obtain ⟨root, -, below, whole⟩ := copied.descendants_root
  have nodup := copied.holds.nodup
  rw [whole] at nodup
  rw [below]
  exact (List.nodup_cons.mp nodup).2

theorem mem_descendants {id : NodeId} (member : id ∈ idsAll copies) :
    id ∈ document.descendants document.root := by
  obtain ⟨root, top, below, whole⟩ := copied.descendants_root
  have perm := Document.idsAll_fill context copies
  have listed := perm.mem_iff.mpr (List.mem_append_right _ member)
  have apart := (List.nodup_append.mp (perm.nodup_iff.mp copied.holds.nodup)).2.2
  rw [whole] at listed
  rw [below]
  rcases List.mem_cons.mp listed with same | inside
  · exact absurd same.symm (apart root.id top id member)
  · exact inside

theorem text_around {id : NodeId} (member : id ∈ context.ids) :
    Braceless (document.text id).toList ∧ holdsLineFeed (document.text id) = false := by
  have shown := Context.toElement_mem_trees document member
  rw [copied.around] at shown
  have listed : (document.node id).toElement ∈ tree.elements := by
    rw [(Tree.elements_perm_of_at? copied.stands.rowAt).mem_iff, List.mem_append]
    exact .inr shown
  exact ⟨copied.stands.outside _ shown, copied.stands.lines _ listed⟩

section Copy

theorem map_toTree_copies : copies.map (Outline.toTree document) = recordCopies list records row := by
  rw [← Outline.toTrees_eq, copied.shows]

theorem length_copies : copies.length = records.length := by
  have lengths := congrArg List.length copied.map_toTree_copies
  simpa [recordCopies] using lengths

variable {position : Nat} {record : Record} (here : records[position]? = some record) {copy : Outline}
  (there : copies[position]? = some copy)
include here there

theorem toTree_copy : copy.toTree document = row.map (recordElement list records position) := by
  have inside := (List.getElem?_eq_some_iff.mp here).1
  have shown := congrArg (·[position]?) copied.map_toTree_copies
  simpa [there, recordCopies, inside] using shown

theorem exists_element {id : NodeId} (member : id ∈ copy.ids) : ∃ element ∈ row.elements,
    (document.node id).toElement = recordElement list records position element := by
  have listed : (document.node id).toElement ∈ (copy.toTree document).elements := by
    rw [Document.elements_toTree]
    exact List.mem_map_of_mem member
  rw [copied.toTree_copy here there, Tree.elements_map] at listed
  obtain ⟨element, inside, same⟩ := List.mem_map.mp listed
  exact ⟨element, inside, same.symm⟩

theorem exists_id {element : Element} (member : element ∈ row.elements) : ∃ id ∈ copy.ids,
    (document.node id).toElement = recordElement list records position element := by
  have listed : recordElement list records position element ∈ (copy.toTree document).elements := by
    rw [copied.toTree_copy here there, Tree.elements_map]
    exact List.mem_map_of_mem member
  rw [Document.elements_toTree] at listed
  exact List.mem_map.mp listed

end Copy

section Values

theorem put : Put (recordParams list records) document (document.descendants document.root)
    (Pass.singles.start document (recordParams list records)) :=
  put_singles (imageless_records list records) copied.nodup_descendants

/-- What stands around the copies is left as it is. -/
theorem text_start_around {id : NodeId} (member : id ∈ context.ids) :
    (Pass.singles.start document (recordParams list records)).1.text id = document.text id := by
  rw [copied.put.text, ite_eq_right_iff]
  refine fun _ => fillValue_of_none fun placeholder scanned => ?_
  rw [Placeholder.scan_of_braceless (copied.text_around member).1] at scanned
  simp at scanned

variable {position : Nat} {id : NodeId} {element : Element} (listed : element ∈ row.elements)
  (same : (document.node id).toElement = recordElement list records position element)
include listed same

theorem text_copy : document.text id = if element.tag = Wordml.text then
    indexText (recordParams list records) (recordLists list records) position element.text
      else "" := by
  have text := congrArg Element.text same
  refine text.trans ?_
  simp only [indexElement]
  split
  · rfl
  · rename_i notText
    exact copied.stands.text_eq_empty listed notText

variable (are : AreRecords list records) {record : Record} (here : records[position]? = some record)
include are here

theorem textFirings_copy (isText : element.tag = Wordml.text) :
    textFirings document (recordParams list records) id =
      (Placeholder.scan element.text).filterMap fun placeholder =>
        placeholder.trigger?.map fun trigger =>
          ⟨id, document.parent? id, trigger, record.valueFor list placeholder⟩ := by
  have asked := copied.stands.inside element listed
  rw [textFirings, copied.text_copy listed same, if_pos isText, asked.scan_indexText are,
    List.filterMap_map]
  refine List.filterMap_congr fun placeholder member => ?_
  have trigger : (indexPlaceholder (recordParams list records) (recordLists list records) position
      placeholder).trigger? = placeholder.trigger? := rfl
  rw [Function.comp_apply, (asked.asks placeholder member).insert?_indexPlaceholder are here]
  simp only [trigger, Option.bind_eq_bind, Option.bind_some, Option.pure_def]
  cases placeholder.trigger? <;> rfl

variable {copy : Outline} (there : copies[position]? = some copy)
include there

theorem text_start_copy (member : id ∈ copy.ids) :
    (Pass.singles.start document (recordParams list records)).1.text id =
      record.fill list element.text := by
  have inside : id ∈ document.descendants document.root :=
    copied.mem_descendants (Outline.mem_idsAll.mpr ⟨copy, List.mem_of_getElem? there, member⟩)
  have tag : document.tag id = element.tag :=
    (congrArg Element.tag same).trans (tag_indexElement _ _ element)
  rw [copied.put.text, copied.text_copy listed same, tag]
  by_cases isText : element.tag = Wordml.text
  · rw [if_pos ⟨inside, isText⟩, if_pos isText]
    exact (copied.stands.inside element listed).fillValue_indexText are here
  · rw [if_neg fun both => isText both.2, if_neg isText, copied.stands.text_eq_empty listed isText]
    exact (record.fill_empty list).symm

end Values

end RecordsCopied

end Filling

end WordTemplate
