import WordTemplate.Proofs.Filling.RowPlaces
import WordTemplate.Proofs.Filling.TextSingles
import WordTemplate.Proofs.Params.Records

/-! Placeholders that ask for a field of records. They repeat the row for the records, and in the copy for
a record the value of the field takes their place. -/

namespace WordTemplate

/-- What a record says where a placeholder asks for one of its fields. -/
def Record.valueFor (list : String) (record : Record) (placeholder : Placeholder) : String :=
  ((record.find? fun field => fieldKey list field.1 = placeholder.key).map Prod.snd).getD ""

theorem Record.valueFor_of_lookup {list : String} {record : Record} {placeholder : Placeholder}
    {field value : String} (key : placeholder.key = fieldKey list field)
    (said : record.lookup field = some value) : record.valueFor list placeholder = value := by
  have same (entry : String × String) : fieldKey list entry.1 = placeholder.key ↔ entry.1 = field := by
    rw [key, fieldKey, fieldKey, String.append_right_inj]
  simp only [Record.valueFor, same]
  clear same
  induction record with
  | nil => simp at said
  | cons entry rest ih =>
      rw [List.lookup_cons] at said
      by_cases named : entry.1 = field
      · have first : (field == entry.1) = true := by simpa using named.symm
        rw [first] at said
        simpa [named] using said
      · have other : (field == entry.1) = false := by simpa using Ne.symm named
        rw [other] at said
        rw [List.find?_cons_of_neg (by simpa using named)]
        exact ih said

namespace Filling

open Markup

/-- The placeholder asks for the value of a field that all records have, and may remove the row when
it is empty. -/
structure AsksField (list : String) (records : List Record) (placeholder : Placeholder) : Prop where
  value : placeholder.asksKey = false
  single : placeholder.separator = none
  modifiers : placeholder.modifiers = [] ∨ placeholder.modifiers = ["empty", "remove", "row"]
  field : ∃ field, IsField field ∧ Params.Fielded records field ∧ placeholder.key = fieldKey list field

/-- Every brace of the text belongs to a placeholder that asks for a field. -/
structure AsksFields (list : String) (records : List Record) (text : String) : Prop where
  tidy : Placeholder.Tidy text
  asks : ∀ placeholder ∈ Placeholder.scan text, AsksField list records placeholder

/-- A list of records with names and values as a template can use them. -/
structure AreRecords (list : String) (records : List Record) : Prop where
  list : IsName list
  fields : ∀ record ∈ records, ∀ field ∈ record, IsField field.1
  values : ∀ record ∈ records, ∀ field ∈ record,
    Braceless field.2.toList ∧ holdsLineFeed field.2 = false

/-- The parameters that are a list of records. -/
abbrev recordParams (list : String) (records : List Record) : Params :=
  ⟨[Param.ofRecords list records]⟩

variable {list : String} {records : List Record}

theorem AsksFields.append {front back : String} (first : AsksFields list records front)
    (second : AsksFields list records back) : AsksFields list records (front ++ back) := by
  refine ⟨first.tidy.append second.tidy, fun placeholder member => ?_⟩
  rw [Placeholder.scan, first.tidy.ofText_append second.tidy, List.filterMap_append] at member
  exact (List.mem_append.mp member).elim (first.asks placeholder) (second.asks placeholder)

theorem asksFields_of_braceless {text : String} (plain : Braceless text.toList) :
    AsksFields list records text := by
  refine ⟨Placeholder.tidy_of_braceless plain, fun placeholder member => ?_⟩
  rw [Placeholder.scan_of_braceless plain] at member
  simp at member

namespace AsksField

variable {placeholder : Placeholder} (asks : AsksField list records placeholder)
include asks

theorem isInline : placeholder.isInline = false := by
  rw [Placeholder.isInline, asks.single]
  rfl

theorem format (value : String) : placeholder.format value = value := by
  have none : placeholder.formatter? = none := by
    rw [Placeholder.formatter?]
    rcases asks.modifiers with none | trigger
    · rw [none]
      rfl
    · rw [trigger]
      rfl
  rw [Placeholder.format, none]

theorem trigger? : placeholder.trigger? =
    if placeholder.modifiers = [] then none else some ⟨.empty, .remove, .row⟩ := by
  rw [Placeholder.trigger?]
  rcases asks.modifiers with none | trigger
  · rw [none]
    rfl
  · rw [trigger]
    rfl

variable (are : AreRecords list records)
include are

theorem insert?_eq_none : insert? (recordParams list records) placeholder = none := by
  obtain ⟨field, isField, -, key⟩ := asks.field
  rw [insert?, key, Params.get?_fieldKey are.list isField]
  rfl

theorem pendingList? : ∃ field, IsField field ∧ Params.Fielded records field ∧
    placeholder.key = fieldKey list field ∧
      (recordParams list records).pendingList? placeholder.key =
        some ⟨Param.ofRecords list records, field⟩ := by
  obtain ⟨field, isField, fielded, key⟩ := asks.field
  refine ⟨field, isField, fielded, key, ?_⟩
  rw [key]
  exact Params.pendingList?_fieldKey are.list isField
    (fun record member entry inside => (are.fields record member entry inside).toIsName) fielded

theorem repeating? : repeating? (recordParams list records) placeholder =
    some (Param.ofRecords list records) := by
  obtain ⟨field, -, -, -, pending⟩ := asks.pendingList? are
  exact repeating?_eq_some.mpr ⟨asks.isInline, _, pending, rfl⟩

theorem pendings : Pendings (recordParams list records) [Param.ofRecords list records] := by
  obtain ⟨field, -, -, -, pending⟩ := asks.pendingList? are
  intro other member
  obtain rfl := List.mem_singleton.mp member
  exact ⟨_, _, pending, rfl⟩

variable {position : Nat} {record : Record} (here : records[position]? = some record)
include here

theorem indexPlaceholder : ∃ field, IsField field ∧ placeholder.key = fieldKey list field ∧
    (record.lookup field).isSome = true ∧
      indexPlaceholder (recordParams list records) [Param.ofRecords list records] position placeholder =
        { placeholder with key := recordKey list (1 + position) field } := by
  obtain ⟨field, isField, fielded, key, pending⟩ := asks.pendingList? are
  have item := Param.getElem?_children_ofRecords list records position
  rw [here, Option.map_some] at item
  refine ⟨field, isField, key, fielded record (List.mem_of_getElem? here), ?_⟩
  rw [indexPlaceholder_of_item pending item, Param.key_ofRecord,
    Params.indexed_fieldKey are.list isField]

theorem insert?_indexPlaceholder :
    insert? (recordParams list records) (Filling.indexPlaceholder (recordParams list records)
        [Param.ofRecords list records] position placeholder) =
      some (.text (record.valueFor list placeholder), record.valueFor list placeholder) := by
  obtain ⟨field, isField, key, has, indexed⟩ := asks.indexPlaceholder are here
  obtain ⟨value, said⟩ := Option.isSome_iff_exists.mp has
  obtain ⟨param, found, scalar, same⟩ := Params.get?_recordKey are.list isField
    (fun record member entry inside => (are.fields record member entry inside).toIsName) here said
  rw [indexed, insert?, found, Record.valueFor_of_lookup key said]
  simp only [Option.bind_eq_bind, Option.bind_some, scalar, same, asks.value]
  rw [if_neg (by decide)]
  exact congrArg (fun content => some (Insert.text content, value)) (asks.format value)

theorem repeating?_indexPlaceholder :
    Filling.repeating? (recordParams list records) (Filling.indexPlaceholder
      (recordParams list records) [Param.ofRecords list records] position placeholder) = none := by
  obtain ⟨field, isField, key, has, indexed⟩ := asks.indexPlaceholder are here
  have quiet := Params.pendingList?_recordKey are.list isField (List.getElem?_eq_some_iff.mp here).1
  rw [indexed, Filling.repeating?, quiet, Option.map_none, ite_self]

end AsksField

theorem keyed_records (list : String) (records : List Record) : (recordParams list records).Keyed :=
  Params.keyed_ofJson (Params.ofJson_records list records)

namespace AsksFields

variable {text : String} (asks : AsksFields list records text) (are : AreRecords list records)
include asks are

theorem proper_indexPlaceholder (position : Nat) : ∀ placeholder ∈ Placeholder.scan text,
    (indexPlaceholder (recordParams list records) [Param.ofRecords list records] position
      placeholder).Proper := by
  intro placeholder member
  have proper := Piece.proper_of_mem_scan member
  have pendings := (asks.asks placeholder member).pendings are
  exact proper.withKey (isKey_indexPlaceholder (keyed_records list records) pendings position proper.isKey)

theorem scan_indexText (position : Nat) :
    Placeholder.scan (indexText (recordParams list records) [Param.ofRecords list records] position text) =
      (Placeholder.scan text).map
        (indexPlaceholder (recordParams list records) [Param.ofRecords list records] position) := by
  rw [indexText_eq, Placeholder.scan_rewrite (asks.proper_indexPlaceholder are position)]

variable {position : Nat} {record : Record} (here : records[position]? = some record)
include here

theorem fillValue_indexText :
    fillValue (recordParams list records)
        (indexText (recordParams list records) [Param.ofRecords list records] position text) =
      Piece.render (record.valueFor list) (Piece.ofText text) := by
  rw [fillValue, indexText_eq, Placeholder.render_ofText_rewrite (asks.proper_indexPlaceholder are position)]
  refine Placeholder.render_congr fun placeholder member => ?_
  rw [Function.comp_apply, (asks.asks placeholder member).insert?_indexPlaceholder are here]

end AsksFields

theorem AreRecords.valueFor (are : AreRecords list records) {record : Record} (member : record ∈ records)
    (placeholder : Placeholder) :
    Braceless (record.valueFor list placeholder).toList ∧
      holdsLineFeed (record.valueFor list placeholder) = false := by
  rw [Record.valueFor]
  cases found : record.find? fun field => fieldKey list field.1 = placeholder.key with
  | none => exact ⟨braceless_nil, rfl⟩
  | some field => exact are.values record member field (List.mem_of_find?_eq_some found)

section Render

variable {text : String} {replace : Placeholder → String}

theorem braceless_render (tidy : Placeholder.Tidy text)
    (plain : ∀ placeholder, Braceless (replace placeholder).toList) :
    Braceless (Piece.render replace (Piece.ofText text)).toList := by
  rw [Piece.toList_render]
  refine braceless_flatMap fun piece member => ?_
  cases piece with
  | literal content => exact tidy content member
  | marker placeholder => exact plain placeholder

theorem holdsLineFeed_render (none : holdsLineFeed text = false)
    (plain : ∀ placeholder, holdsLineFeed (replace placeholder) = false) :
    holdsLineFeed (Piece.render replace (Piece.ofText text)) = false := by
  rw [holdsLineFeed, List.contains_eq_mem, decide_eq_false_iff_not, Piece.toList_render, List.mem_flatMap]
  rintro ⟨piece, member, listed⟩
  cases piece with
  | literal content =>
      rw [holdsLineFeed, List.contains_eq_mem, decide_eq_false_iff_not] at none
      rw [← Piece.sources_split text.toList] at none
      exact none (List.mem_flatMap.mpr ⟨_, member, listed⟩)
  | marker placeholder =>
      have here := plain placeholder
      rw [holdsLineFeed, List.contains_eq_mem, decide_eq_false_iff_not] at here
      exact here listed

end Render

theorem imageless_records (list : String) (records : List Record) :
    Imageless (recordParams list records) := by
  intro placeholder insert value given
  obtain ⟨param, found, gives⟩ := exists_gives_of_insert? given
  cases gives with
  | key | scalar | unresolved => rfl
  | image resolved _ =>
      rw [Param.isResolvedImage, Params.image?_of_mem_all (Params.mem_all_of_get? found)] at resolved
      cases resolved

end Filling

end WordTemplate
