import WordTemplate.Filling.Inline
import WordTemplate.Filling.Singles
import WordTemplate.Proofs.Markup.Rooted
import WordTemplate.Proofs.Params.Values
import WordTemplate.Proofs.Placeholder.Tidy

/-! What takes the place of placeholders. From parameters without braces come texts without braces, so
that a tidy text stays tidy, and no placeholder that addresses a scalar is left in it. -/

namespace WordTemplate.Filling

open Markup
open Placeholder (Tidy Filled Replaces)

def Addressed (params : Params) (key : String) : Prop :=
  ∃ param, params.get? key = some param ∧ param.isScalar = true

/-- Markup that shows no brace when it is read. -/
def PlainMarkup (content : String) : Prop :=
  ∀ fragment, Document.parseFragment content = .ok fragment →
    fragment.AllSlots fun text => Braceless text.toList

structure Plain (params : Params) : Prop where
  keyed : params.Keyed
  braceless : params.Braceless
  images : ∀ param ∈ params.all, param.isResolvedImage = true → PlainMarkup param.value

def Insert.Filled (params : Params) : Insert → Prop
  | text content => Placeholder.Filled (Addressed params) content
  | markup content => PlainMarkup content

variable {params : Params}

theorem not_addressed {param : Param} {key : String} (found : params.get? key = some param)
    (other : param.isScalar = false) : ¬ Addressed params key := by
  rintro ⟨scalar, looked, isScalar⟩
  rw [found, Option.some.injEq] at looked
  rw [← looked, other] at isScalar
  exact absurd isScalar (by decide)

/-- What is put in for a placeholder whose key leads to a parameter. -/
inductive Gives (placeholder : Placeholder) (param : Param) : Insert → Prop
  | key : Gives placeholder param (.text (placeholder.format param.key))
  | scalar (isScalar : param.isScalar = true) :
      Gives placeholder param (.text (placeholder.format param.value))
  | image (resolved : param.isResolvedImage = true) (noScalar : param.isScalar = false) :
      Gives placeholder param (.markup param.value)
  | unresolved : Gives placeholder param (.text "")

theorem exists_gives_of_insert? {placeholder : Placeholder} {insert : Insert} {value : String}
    (found : insert? params placeholder = some (insert, value)) :
    ∃ param, params.get? placeholder.key = some param ∧ Gives placeholder param insert := by
  simp only [insert?, Option.bind_eq_bind, Option.bind_eq_some_iff] at found
  obtain ⟨param, looked, given⟩ := found
  refine ⟨param, looked, ?_⟩
  split at given
  · split at given
    · cases given
    · cases given
      exact .key
  · split at given
    · rename_i kind
      cases given
      exact .scalar (by simp [Param.isScalar, kind])
    · rename_i image kind
      split at given
      · rename_i resolved
        cases given
        exact .image resolved (by simp [Param.isScalar, kind])
      · cases given
        exact .unresolved
    · cases given
    · cases given

theorem insert?_eq_some (plain : Plain params) {placeholder : Placeholder} {insert : Insert}
    {value : String} (found : insert? params placeholder = some (insert, value)) :
    (∃ content, insert = .text content ∧ Braceless content.toList) ∨
      (∃ content, insert = .markup content ∧ PlainMarkup content ∧
        ¬ Addressed params placeholder.key) := by
  obtain ⟨param, looked, gives⟩ := exists_gives_of_insert? found
  have listed := Params.mem_all_of_get? looked
  cases gives with
  | key => exact .inl ⟨_, rfl, placeholder.braceless_format (plain.braceless.key param listed)⟩
  | scalar isScalar =>
      exact .inl ⟨_, rfl, placeholder.braceless_format (plain.braceless.value param listed isScalar)⟩
  | image resolved noScalar =>
      exact .inr ⟨_, rfl, plain.images param listed resolved, not_addressed looked noScalar⟩
  | unresolved => exact .inl ⟨"", rfl, braceless_nil⟩

/-- Only keys that lead to no scalar leave a placeholder as it is. -/
theorem not_addressed_of_insert?_eq_none {placeholder : Placeholder}
    (none : insert? params placeholder = none) : ¬ Addressed params placeholder.key := by
  rintro ⟨param, looked, isScalar⟩
  have kind : param.kind = .scalar := by simpa [Param.isScalar] using isScalar
  have notList : param.isList = false := by simp [Param.isList, kind]
  simp only [insert?, looked, Option.bind_eq_bind, Option.bind_some, notList, kind] at none
  split at none <;> simp at none

theorem join_contents (params : Params) (pieces : List Piece) :
    String.join ((pieces.map (insertOf params)).map Insert.content) =
      Piece.render (fun placeholder => (insertOf params (.marker placeholder)).content) pieces := by
  rw [← String.toList_inj, String.toList_join, Piece.toList_render, List.map_map, List.flatMap_map]
  apply List.flatMap_congr
  intro piece _
  cases piece with
  | literal text => simp [insertOf, Insert.content, Piece.rendered]
  | marker placeholder => rfl

theorem filled_source {placeholder : Placeholder} (proper : placeholder.Proper)
    (free : ¬ Addressed params placeholder.key) :
    Filled (Addressed params) placeholder.source :=
  have replaces : Replaces (Addressed params) Placeholder.source placeholder := .inr ⟨rfl, free⟩
  Placeholder.filled_piece proper replaces

theorem filled_insertOf (plain : Plain params) {content : String} (tidy : Tidy content) :
    ∀ piece ∈ Piece.ofText content, (insertOf params piece).Filled params := by
  intro piece member
  have neat := tidy.neat piece member
  cases piece with
  | literal text => exact Placeholder.filled_of_braceless (by rw [String.toList_ofList]; exact neat)
  | marker placeholder =>
      rw [insertOf]
      cases found : insert? params placeholder with
      | none => exact filled_source neat (not_addressed_of_insert?_eq_none found)
      | some given =>
          obtain ⟨insert, value⟩ := given
          rcases insert?_eq_some plain found with ⟨text, rfl, braceless⟩ | ⟨markup, rfl, readable, -⟩
          · exact Placeholder.filled_of_braceless braceless
          · exact readable

theorem joinTexts_cons {property : Insert → Prop}
    (append : ∀ front back, property (.text front) → property (.text back) →
      property (.text (front ++ back))) {first : Insert} {rest : List Insert} (here : property first)
    (others : ∀ insert ∈ joinTexts rest, property insert) :
    ∀ insert ∈ joinTexts (first :: rest), property insert := by
  cases first with
  | markup content =>
      rw [joinTexts]
      exact List.forall_mem_cons.mpr ⟨here, others⟩
  | text content =>
      rw [joinTexts]
      split
      · rename_i next behind joined
        rw [joined] at others
        obtain ⟨second, behind⟩ := List.forall_mem_cons.mp others
        exact List.forall_mem_cons.mpr ⟨append content next here second, behind⟩
      · exact List.forall_mem_cons.mpr ⟨here, others⟩

theorem filled_joinTexts {inserts : List Insert} (filled : ∀ insert ∈ inserts, insert.Filled params) :
    ∀ insert ∈ joinTexts inserts, insert.Filled params := by
  induction inserts with
  | nil => simp [joinTexts]
  | cons first rest ih =>
      refine joinTexts_cons (fun _ _ => Placeholder.filled_append) (filled first (by simp)) ?_
      exact ih fun other member => filled other (by simp [member])

theorem filled_contents {inserts : List Insert} (filled : ∀ insert ∈ inserts, insert.Filled params)
    (noMarkup : inserts.any Insert.isMarkup = false) :
    Filled (Addressed params) (String.join (inserts.map Insert.content)) := by
  apply Placeholder.filled_join
  intro text member
  obtain ⟨insert, listed, rfl⟩ := List.mem_map.mp member
  have here := filled insert listed
  cases insert with
  | text content => exact here
  | markup content =>
      rw [List.any_eq_false] at noMarkup
      exact absurd rfl (noMarkup _ listed)

theorem filled_of_no_insert {content : String} (tidy : Tidy content)
    (none : (Placeholder.scan content).any (fun placeholder =>
      (insert? params placeholder).isSome) = false) : Filled (Addressed params) content := by
  refine ⟨tidy, ?_⟩
  intro placeholder member
  rw [List.any_eq_false] at none
  exact not_addressed_of_insert?_eq_none (by simpa using none placeholder member)

theorem filled_fillValue (plain : Plain params) {value : String} (tidy : Tidy value) :
    Filled (Addressed params) (fillValue params value) := by
  rw [fillValue]
  apply Placeholder.filled_render tidy
  intro placeholder _
  rw [Replaces]
  cases found : insert? params placeholder with
  | none => exact .inr ⟨rfl, not_addressed_of_insert?_eq_none found⟩
  | some given =>
      obtain ⟨insert, content⟩ := given
      rcases insert?_eq_some plain found with ⟨text, rfl, braceless⟩ | ⟨markup, rfl, -, free⟩
      · exact .inl braceless
      · exact .inr ⟨rfl, free⟩

theorem braceless_inlineParts (plain : Plain params) (placeholder : Placeholder) {found : Numbered}
    (listed : found.param ∈ params.all) :
    ∀ part ∈ inlineParts placeholder found, Braceless part.toList := by
  intro part member
  unfold inlineParts at member
  split at member
  · obtain ⟨item, below, given⟩ := List.mem_filterMap.mp member
    have inside := Params.mem_all_of_child listed below
    split at given
    · cases given
      exact plain.braceless.key item inside
    · split at given
      · rename_i isScalar
        cases given
        exact placeholder.braceless_format (plain.braceless.value item inside isScalar)
      · simp at given
  · split at member
    · rw [List.mem_singleton] at member
      exact member ▸ braceless_toString found.number
    · split at member
      · rename_i isScalar
        rw [List.mem_singleton] at member
        exact member ▸ placeholder.braceless_format (plain.braceless.value _ listed isScalar)
      · simp at member

theorem exists_parts_of_inlineValue? {placeholder : Placeholder} {value : String}
    (given : inlineValue? params placeholder = some value) :
    ∃ separator, placeholder.separator = some separator ∧
      value = separator.intercalate ((params.findAll placeholder.key).flatMap (inlineParts placeholder)) := by
  simp only [inlineValue?, Option.bind_eq_bind, Option.bind_eq_some_iff] at given
  obtain ⟨separator, asked, joined⟩ := given
  refine ⟨separator, asked, ?_⟩
  split at joined
  · cases joined
  · exact (Option.some.inj joined).symm

theorem braceless_inlineValue? (plain : Plain params) {placeholder : Placeholder}
    (proper : placeholder.Proper) {value : String}
    (given : inlineValue? params placeholder = some value) : Braceless value.toList := by
  obtain ⟨separator, asked, rfl⟩ := exists_parts_of_inlineValue? given
  apply braceless_intercalate (proper.braceless_separator asked)
  intro part member
  obtain ⟨found, listed, inside⟩ := List.mem_flatMap.mp member
  exact braceless_inlineParts plain placeholder (Params.mem_all_of_findAll listed) part inside

theorem tidy_inline (plain : Plain params) {content : String} (tidy : Tidy content) :
    Tidy (Piece.render (fun placeholder =>
      (inlineValue? params placeholder).getD placeholder.source) (Piece.ofText content)) := by
  refine Filled.tidy (?_ : Filled (fun _ => False) _)
  apply Placeholder.filled_render tidy
  intro placeholder member
  rw [Replaces]
  cases given : inlineValue? params placeholder with
  | none => exact .inr ⟨rfl, fun impossible => impossible⟩
  | some value => exact .inl (braceless_inlineValue? plain (Piece.proper_of_mem_scan member) given)

end WordTemplate.Filling
