import WordTemplate.Proofs.Filling.Dressing
import WordTemplate.Proofs.Filling.RecordTriggers
import WordTemplate.Proofs.Filling.Unmatched

/-! Filling a document with a list of records. The row for the records is replaced by one row for each
record that stays, and nothing else that the document says changes. -/

namespace WordTemplate

open Markup
open Markup.Outline (idsAll toTrees)
open Markup.Tree (textOf)

/-- An element without its attributes. -/
def Markup.Element.bare (element : Element) : Element :=
  { element with attributes := [] }

theorem Markup.Element.bare_congr {first second : Element} (tag : second.tag = first.tag)
    (text : second.text = first.text) : second.bare = first.bare := by
  rw [bare, bare, tag, text]

theorem Markup.Outline.allText_toTree (document : Document) (outline : Outline) :
    (outline.toTree document).allText = String.join (outline.ids.map document.text) := by
  rw [Tree.allText, Document.elements_toTree, textOf, List.map_map]
  rfl

theorem Markup.Tree.textOf_map_bare (elements : List Element) :
    textOf (elements.map Element.bare) = textOf elements := by
  rw [textOf, textOf, List.map_map]
  rfl

theorem Markup.Tree.allText_map_bare (tree : Tree) : (tree.map Element.bare).allText = tree.allText := by
  rw [Tree.allText, Tree.elements_map, Tree.textOf_map_bare, Tree.allText]

section Lists

variable {α β γ : Type}

theorem map_eq_map_of_decided {δ : Type} {first : α → δ} {second : β → δ} {left : α → γ} {right : β → γ}
    {items : List α} {others : List β} (same : items.map first = others.map second)
    (decided : ∀ item ∈ items, ∀ other ∈ others, first item = second other → left item = right other) :
    items.map left = others.map right := by
  induction items generalizing others with
  | nil =>
      obtain rfl := List.map_eq_nil_iff.mp same.symm
      rfl
  | cons item rest ih =>
      obtain ⟨other, more, rfl, here, later⟩ := List.map_eq_cons_iff.mp same.symm
      rw [List.map_cons, List.map_cons, decided item (by simp) other (by simp) here.symm,
        ih later.symm fun item inside other listed =>
          decided item (List.mem_cons_of_mem _ inside) other (List.mem_cons_of_mem _ listed)]

theorem map_filter_of_forall₂ {keepLeft : α → Bool} {keepRight : β → Bool} {left : α → γ}
    {right : β → γ} {items : List α} {others : List β}
    (agree : List.Forall₂ (fun item other => keepLeft item = keepRight other ∧ left item = right other)
      items others) : (items.filter keepLeft).map left = (others.filter keepRight).map right := by
  induction agree with
  | nil => rfl
  | cons here _ ih =>
      rw [List.filter_cons, List.filter_cons, here.1]
      split
      · rw [List.map_cons, List.map_cons, here.2, ih]
      · exact ih

end Lists

namespace Filling

variable {list : String} {records : List Record}

def unseenCopies (document : Document) (params : Params) (copies : List Outline) : List Outline :=
  copies.filter fun copy =>
    ∀ firing ∈ Pass.singles.fired document params, firing.text ∉ copy.ids

namespace RecordsCopied

variable {tree row : Tree} {place : List Nat} {document : Document} {context : Context}
  {copies : List Outline}
  (copied : RecordsCopied list records tree place row document context copies)
  (are : AreRecords list records)
include copied are

theorem stays_of_unseen {position : Nat} {record : Record} (here : records[position]? = some record)
    {copy : Outline} (there : copies[position]? = some copy)
    (unseen : ∀ firing ∈ Pass.singles.fired document (recordParams list records),
      firing.text ∉ copy.ids) : record.stays list row.allText = true := by
  have tidy : ∀ element ∈ row.elements, Placeholder.Tidy element.text := fun element member =>
    (copied.stands.inside element member).tidy
  rw [Record.stays, List.all_eq_true]
  intro placeholder scanned
  rw [Bool.or_eq_true, Option.isNone_iff_eq_none, bne_iff_ne]
  by_contra neither
  rw [not_or, ne_eq, not_not] at neither
  obtain ⟨triggered, empty⟩ := neither
  rw [Tree.allText, scan_textOf tidy] at scanned
  obtain ⟨element, listed, scanned⟩ := List.mem_flatMap.mp scanned
  have isText : element.tag = Wordml.text := by
    by_contra notText
    rw [copied.stands.text_eq_empty listed notText, Placeholder.scan_empty] at scanned
    simp at scanned
  obtain ⟨id, inside, same⟩ := copied.exists_id here there listed
  have kind := ((copied.stands.inside element listed).asks placeholder scanned).trigger?
  rw [kind, ite_eq_left_iff, Classical.not_imp] at triggered
  rw [if_neg triggered.1] at kind
  let firing : Firing := ⟨id, document.parent? id, ⟨.empty, .remove, .row⟩, ""⟩
  refine unseen firing (copied.mem_fired_iff.mpr ⟨rfl, id, ?_, ?_, ?_⟩) inside
  · exact copied.mem_descendants (Outline.mem_idsAll.mpr ⟨copy, List.mem_of_getElem? there, inside⟩)
  · exact (congrArg Element.tag same).trans ((tag_indexElement _ _ element).trans isText)
  · rw [copied.textFirings_copy listed same are here isText, List.mem_filterMap]
    exact ⟨placeholder, scanned, by rw [kind, empty]; rfl⟩

theorem unseen_of_stays {position : Nat} {record : Record} (here : records[position]? = some record)
    {copy : Outline} (there : copies[position]? = some copy)
    (stays : record.stays list row.allText = true) :
    ∀ firing ∈ Pass.singles.fired document (recordParams list records), firing.text ∉ copy.ids := by
  intro firing fired seen
  obtain ⟨other, record', copy', here', there', fires⟩ := copied.firesIn are fired
  -- A text stands in one copy only, so that the trigger is one of the record itself.
  have nodup := (List.nodup_append.mp (Document.holds_fill_iff.mp copied.holds).nodup).2.1
  have within : firing.text ∈ copy'.ids := by
    rw [← Outline.node_eta copy', Outline.ids]
    exact List.mem_cons_of_mem _ fires.text
  obtain rfl := eq_of_mem_ids nodup (List.mem_of_getElem? there) (List.mem_of_getElem? there') seen within
  obtain rfl : position = other :=
    (List.getElem?_inj (List.getElem?_eq_some_iff.mp there).1
      (nodup_of_idsAll nodup)).mp (there.trans there'.symm)
  obtain rfl := Option.some.inj (here.symm.trans here')
  obtain ⟨placeholder, scanned, triggered, value⟩ := fires.asked
  rw [Record.stays, List.all_eq_true] at stays
  have stayed := stays placeholder scanned
  rw [Bool.or_eq_true, Option.isNone_iff_eq_none, bne_iff_ne, value] at stayed
  rcases stayed with none | filled
  · rw [none] at triggered
    simp at triggered
  · have empty := fires.fires
    rw [Firing.fires, fires.trigger, Trigger.fires, String.isEmpty_iff] at empty
    exact filled empty

/-- A copy is seen from by a trigger that fires exactly if its record does not stay. -/
theorem seen_iff {position : Nat} {record : Record} (here : records[position]? = some record)
    {copy : Outline} (there : copies[position]? = some copy) :
    decide (∀ firing ∈ Pass.singles.fired document (recordParams list records), firing.text ∉ copy.ids) =
      record.stays list row.allText := by
  rw [Bool.eq_iff_iff, decide_eq_true_eq]
  exact ⟨copied.stays_of_unseen are here there, copied.unseen_of_stays are here there⟩

/-- When the values are in, the copies are left from which no trigger was seen. -/
theorem leaves : Leaves (Pass.singles.start document (recordParams list records)).1 context
    (unseenCopies document (recordParams list records) copies)
    (fillSingles document (recordParams list records)) := by
  have rewritten := copied.put.rewritten
  have tags := rewritten.removes.tag
  have run := Pass.singles.run_eq document (recordParams list records)
  rw [Pass.run] at run
  rw [run]
  refine leaves_evaluateAll (copied.holds.congr rewritten.links) (fun copy member => ?_)
    fun firing fired => ?_
  · rw [Context.tagsAbove_congr tags]
    exact isLowestRow_congr tags (copied.lowest_copy member)
  · obtain ⟨position, record, copy, here, there, fires⟩ := copied.firesIn are fired
    have member := List.mem_of_getElem? there
    obtain ⟨front, back, same⟩ := List.append_of_mem member
    have stands : document.HoldsIn (context.beside front back) [copy] := by
      rw [← Document.holds_fill_iff, Context.fill_beside, List.append_assoc]
      exact same ▸ copied.holds
    obtain ⟨above, inside, held⟩ := Outline.exists_parent stands.links firing.text fires.text
    refine ⟨copy, member, ?_, ?_, fires.fires, fires.text, above, inside, fires.holder.trans held⟩
    · rw [fires.trigger]
    · rw [fires.trigger]

theorem text_filled (id : NodeId) : (fillSingles document (recordParams list records)).text id =
    (Pass.singles.start document (recordParams list records)).1.text id :=
  congrArg Element.text ((copied.leaves are).same id)

theorem plain_filled {id : NodeId} (live : document.isLive id = true) :
    Braceless ((fillSingles document (recordParams list records)).text id).toList ∧
      holdsLineFeed ((fillSingles document (recordParams list records)).text id) = false := by
  rw [copied.text_filled are]
  have stands := copied.holds.mem_of_isLive id live
  rw [(Document.idsAll_fill context copies).mem_iff, List.mem_append] at stands
  rcases stands with around | inside
  · rw [copied.text_start_around around]
    exact copied.text_around around
  · obtain ⟨copy, member, inside⟩ := Outline.mem_idsAll.mp inside
    obtain ⟨position, record, here, there⟩ := copied.exists_position member
    obtain ⟨element, listed, same⟩ := copied.exists_element here there inside
    have said := are.valueFor (List.mem_of_getElem? here)
    have whole := (Tree.elements_perm_of_at? copied.stands.rowAt).mem_iff.mpr
      (List.mem_append_left _ listed)
    rw [copied.text_start_copy listed same are here there inside]
    exact ⟨braceless_render (copied.stands.inside element listed).tidy fun asked => (said asked).1,
      holdsLineFeed_render (copied.stands.lines element whole) fun asked => (said asked).2⟩

theorem allText_filled {position : Nat} {record : Record} (here : records[position]? = some record)
    {copy : Outline} (there : copies[position]? = some copy) :
    (copy.toTree (fillSingles document (recordParams list records))).allText =
      record.fill list row.allText := by
  have tidy : ∀ element ∈ row.elements, Placeholder.Tidy element.text := fun element member =>
    (copied.stands.inside element member).tidy
  have shown := congrArg Tree.elements (copied.toTree_copy here there)
  rw [Document.elements_toTree, Tree.elements_map] at shown
  rw [Outline.allText_toTree, Tree.allText, record.fill_textOf list tidy]
  refine congrArg String.join (map_eq_map_of_decided shown fun id inside element listed same => ?_)
  exact (copied.text_filled are id).trans
    (copied.text_start_copy listed same are here there inside)

/-- There is one row left for each record that stays, in their order. -/
theorem allTexts_filled :
    (unseenCopies document (recordParams list records) copies).map
        (fun copy => (copy.toTree (fillSingles document (recordParams list records))).allText) =
      (records.filter (·.stays list row.allText)).map (·.fill list row.allText) := by
  refine map_filter_of_forall₂ (List.forall₂_iff_get.mpr ⟨copied.length_copies, fun index left right => ?_⟩)
  have here := List.getElem?_eq_getElem right
  have there := List.getElem?_eq_getElem left
  exact ⟨copied.seen_iff are here there, copied.allText_filled are here there⟩

theorem isLive_of_filled {id : NodeId}
    (live : (fillSingles document (recordParams list records)).isLive id = true) :
    document.isLive id = true := by
  have stands := (copied.leaves are).holds.mem_of_isLive id live
  rw [(Document.idsAll_fill context _).mem_iff, List.mem_append] at stands
  refine copied.holds.isLive_of_mem ((Document.idsAll_fill context copies).mem_iff.mpr ?_)
  refine List.mem_append.mpr (stands.imp_right fun inside => ?_)
  obtain ⟨copy, member, inside⟩ := Outline.mem_idsAll.mp inside
  exact Outline.mem_idsAll.mpr ⟨copy, List.filter_subset_self copies member, inside⟩

theorem sweepUnset_eq (params : Params) :
    sweepUnset (fillSingles document (recordParams list records)) params =
      fillSingles document (recordParams list records) := by
  refine sweepUnset_of_none fun id live _ placeholder scanned => ?_
  rw [Placeholder.scan_of_braceless (copied.plain_filled are (copied.isLive_of_filled are live)).1] at scanned
  simp at scanned

theorem splitLines_eq : splitLines (fillSingles document (recordParams list records)) =
    (fillSingles document (recordParams list records), 0) :=
  splitLines_of_none fun _ live _ => (copied.plain_filled are (copied.isLive_of_filled are live)).2

/-- In the end the rows for the records that stay are in the place of the row, and around them the
document says what it said. -/
theorem shows_stripped {result : Document}
    (done : result = stripMarks (fillSingles document (recordParams list records))) :
    result.isLive result.root = true ∧ ∃ shell rows,
      [result.liveTree result.root] = Tree.splice rows place shell ∧
        rows.map Tree.allText =
          (records.filter (·.stays list row.allText)).map (·.fill list row.allText) ∧
        (∀ copy ∈ rows, copy.element.tag = row.element.tag) ∧
        Tree.at? place shell = some row ∧ shell.map Element.bare = tree.map Element.bare := by
  have leaves := copied.leaves are
  have allTexts := copied.allTexts_filled are
  have stripped : Document.Rewritten (fillSingles document (recordParams list records)) result :=
    done ▸ Document.rewritten_removeAttributeDeep _ _ _
  have text (id : NodeId) : result.text id =
      (fillSingles document (recordParams list records)).text id := by
    rw [done, text_stripMarks]
  have tag (id : NodeId) : result.tag id = document.tag id :=
    (stripped.removes.tag id).trans ((congrArg Element.tag (leaves.same id)).trans
      (copied.put.rewritten.removes.tag id))
  generalize left_eq : unseenCopies document (recordParams list records) copies = left at leaves allTexts
  have holds : result.Holds (context.fill left) := leaves.holds.congr stripped.links
  -- The hole is below the root, which is the same whatever rows are left.
  obtain ⟨root, whole, isRoot⟩ := copied.isRoot
  obtain ⟨-, after, filled, same⟩ := Context.exists_root copied.hole_inside whole left
  have top : after.id = result.root := by
    rw [same, isRoot, stripped.ages.root, leaves.root, copied.put.rewritten.ages.root]
  have shown : [result.liveTree result.root] = context.trees result (toTrees result left) := by
    have whole : result.Holds ((Context.top [] []).fill [after]) := by rwa [filled] at holds
    rw [← Context.toTrees_fill, filled, ← top, whole.liveTree]
    rfl
  -- Attributes apart, the document is the tree it was with the rows that are left in place of the row.
  have alike : ([result.liveTree result.root]).map (Markup.Tree.map Element.bare) =
      Tree.splice ((toTrees result left).map (Markup.Tree.map Element.bare)) place (tree.map Element.bare) := by
    rw [shown, ← Tree.map_splice _ copied.stands.rowAt, ← copied.around]
    refine Context.map_trees_congr (fun id around => Element.bare_congr (tag id) ?_) rfl
    exact (text id).trans ((copied.text_filled are id).trans (copied.text_start_around around))
  obtain ⟨shell, rows, splits, mapped, leads, around⟩ := Tree.exists_splice_of_map
    (Tree.at?_map Element.bare copied.stands.rowAt) alike
  have live : result.isLive result.root = true := by
    rw [filled] at holds
    exact top ▸ holds.isLive_of_mem (by simp [idsAll, Outline.id_mem_ids])
  refine ⟨live, shell, rows, splits, ?_, fun copy member => ?_, leads, around⟩
  · have allText : rows.map Tree.allText = (toTrees result left).map Tree.allText := by
      have both := congrArg (List.map Tree.allText) mapped
      simpa [Function.comp_def, Tree.allText_map_bare] using both
    rw [allText, ← allTexts, Outline.toTrees_eq, List.map_map]
    refine List.map_congr_left fun copy _ => ?_
    rw [Function.comp_apply, Outline.allText_toTree, Outline.allText_toTree, funext text]
  · have listed := List.mem_map_of_mem (f := Markup.Tree.map Element.bare) member
    rw [mapped, Outline.toTrees_eq, List.map_map] at listed
    obtain ⟨outline, inside, same⟩ := List.mem_map.mp listed
    have among : outline ∈ copies := List.filter_subset_self copies (left_eq ▸ inside)
    obtain ⟨position, record, here, there⟩ := copied.exists_position among
    have tags := congrArg (fun tree : Tree => tree.element.tag) same
    have origin := congrArg (fun tree : Tree => tree.element.tag) (copied.toTree_copy here there)
    simp only [Function.comp_apply, Tree.element_map, Outline.tag_toTree, Element.bare, tag,
      tag_indexElement] at tags origin
    exact tags.symm.trans origin

end RecordsCopied

theorem fill_eq_prepare (document : Document) (params : Params) : fill document params =
    stripMarks (splitLines (sweepUnset (fillSingles (fillInline (expandLeftovers (expandRows
      (fillSingles (prepare document) params) params).1 params).1 params) params) params)).1 :=
  rfl

def nameText : String :=
  "\x7b\x7bTeam.Name\x7d\x7d, "

def mailText : String :=
  "\x7b\x7bTeam.Mail :empty:remove:row\x7d\x7d"

def memberRow : Tree :=
  .node { tag := "w:tr" } [.node { tag := "w:tc" } [.node { tag := "w:p" } [.node { tag := "w:r" }
    [.node { tag := "w:t", text := nameText } [], .node { tag := "w:t", text := mailText } []]]]]

def memberTable : Tree :=
  .node { tag := "w:tbl" } [.node { tag := "w:tr" } [.node { tag := "w:t", text := "Team" } []], memberRow]

def memberText : String :=
  "<w:tbl><w:tr><w:t>Team</w:t></w:tr><w:tr><w:tc><w:p><w:r><w:t>\x7b\x7bTeam.Name\x7d\x7d, </w:t>" ++
    "<w:t>\x7b\x7bTeam.Mail :empty:remove:row\x7d\x7d</w:t></w:r></w:p></w:tc></w:tr></w:tbl>"

def members : List Record :=
  [[("Mail", "a@x"), ("Name", "Ada")], [("Mail", ""), ("Name", "Bob")],
    [("Mail", "e@x"), ("Name", "Eve")]]

theorem isField_mail : IsField "Mail" :=
  ⟨⟨by decide, by decide, by decide⟩, 'a', by decide, by decide⟩

theorem isField_name : IsField "Name" :=
  ⟨⟨by decide, by decide, by decide⟩, 'a', by decide, by decide⟩

theorem areRecords_members : AreRecords "Team" members where
  list := ⟨by decide, by decide, by decide⟩
  fields := by
    have both : ∀ record ∈ members, ∀ field ∈ record, field.1 = "Mail" ∨ field.1 = "Name" := by decide
    intro record member field listed
    rcases both record member field listed with same | same
    · exact same ▸ isField_mail
    · exact same ▸ isField_name
  values := by decide

theorem asksFields_of_scan {text : String} {placeholder : Placeholder} (tidy : Placeholder.Tidy text)
    (scanned : Placeholder.scan text = [placeholder]) (asks : AsksField list records placeholder) :
    AsksFields list records text := by
  refine ⟨tidy, fun other member => ?_⟩
  rw [scanned, List.mem_singleton] at member
  exact member ▸ asks

theorem asksFields_memberRow : ∀ element ∈ memberRow.elements, AsksFields "Team" members element.text := by
  have texts : ∀ element ∈ memberRow.elements, Braceless element.text.toList ∨
      element.text = nameText ∨ element.text = mailText := by decide
  intro element member
  rcases texts element member with plain | same | same
  · exact asksFields_of_braceless plain
  · rw [same]
    have scanned : Placeholder.scan nameText = [⟨false, "Team.Name", "", none, []⟩] := by decide +kernel
    exact asksFields_of_scan (by decide +kernel) scanned
      ⟨rfl, rfl, .inl rfl, "Name", isField_name, by unfold Params.Fielded; decide, rfl⟩
  · rw [same]
    have scanned : Placeholder.scan mailText =
        [⟨false, "Team.Mail", " :empty:remove:row", none, ["empty", "remove", "row"]⟩] := by decide +kernel
    exact asksFields_of_scan (by decide +kernel) scanned
      ⟨rfl, rfl, .inr rfl, "Mail", isField_mail, by unfold Params.Fielded; decide, rfl⟩

end Filling

end WordTemplate
