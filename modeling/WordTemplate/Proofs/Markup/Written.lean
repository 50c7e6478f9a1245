import Mathlib.Data.List.TakeWhile
import WordTemplate.Markup.Reader

/-! Reading back what was written: escaped texts and values, names, and the tags of an element. -/

namespace WordTemplate.Markup

open Token (isSpace isQuote isData)

structure Names (name : List Char) (c : Char) : Prop where
  text : resolveReference name = [c]
  value : attributeReference? name = some c
  plain : ∀ mark ∈ [';', '&', '<', '"'], mark ∉ name

theorem names_escape : Names "amp".toList '&' ∧ Names "lt".toList '<' ∧ Names "gt".toList '>' ∧
    Names "quot".toList '"' ∧ Names "apos".toList '\'' := by
  refine ⟨?_, ?_, ?_, ?_, ?_⟩ <;> exact ⟨by decide, by decide, by simp⟩

theorem escapeTextChar_cases (c : Char) :
    isData c = true ∧ escapeTextChar c = [c] ∨
      ∃ name, Names name c ∧ escapeTextChar c = '&' :: (name ++ [';']) := by
  obtain ⟨amp, lt, gt, _⟩ := names_escape
  by_cases isAmp : c = '&'
  · subst isAmp
    exact .inr ⟨_, amp, rfl⟩
  · by_cases isLt : c = '<'
    · subst isLt
      exact .inr ⟨_, lt, rfl⟩
    · by_cases isGt : c = '>'
      · subst isGt
        exact .inr ⟨_, gt, rfl⟩
      · exact .inl ⟨by simp [isData, isAmp, isLt], by rw [escapeTextChar] <;> assumption⟩

theorem escapeAttributeChar_cases (c : Char) :
    c ≠ '&' ∧ c ≠ '"' ∧ escapeAttributeChar c = [c] ∨
      ∃ name, Names name c ∧ escapeAttributeChar c = '&' :: (name ++ [';']) := by
  obtain ⟨_, _, _, quot, apos⟩ := names_escape
  by_cases isQuot : c = '"'
  · subst isQuot
    exact .inr ⟨_, quot, rfl⟩
  · by_cases isApos : c = '\''
    · subst isApos
      exact .inr ⟨_, apos, rfl⟩
    · have same : escapeAttributeChar c = escapeTextChar c := by
        rw [escapeAttributeChar] <;> assumption
      rw [same]
      rcases escapeTextChar_cases c with ⟨data, kept⟩ | escaped
      · refine .inl ⟨?_, isQuot, kept⟩
        rintro rfl
        simp [isData] at data
      · exact .inr escaped

theorem quote_not_mem_escapeAttribute (value : List Char) : '"' ∉ escapeAttribute value := by
  rw [escapeAttribute, List.mem_flatMap]
  rintro ⟨c, _, member⟩
  rcases escapeAttributeChar_cases c with ⟨_, other, kept⟩ | ⟨name, names, escaped⟩
  · rw [kept, List.mem_singleton] at member
    exact other member.symm
  · rw [escaped] at member
    simp only [List.mem_cons, List.mem_append, Char.reduceEq, List.not_mem_nil, or_false,
      false_or] at member
    exact names.plain '"' (by simp) member

theorem cutReference?_append {name : List Char} (semicolon : ';' ∉ name) (ampersand : '&' ∉ name)
    (rest : List Char) : cutReference? (name ++ ';' :: rest) = some (name, rest) := by
  induction name with
  | nil => rfl
  | cons c name ih =>
      simp only [List.mem_cons, not_or] at semicolon ampersand
      simp [cutReference?, Ne.symm semicolon.1, Ne.symm ampersand.1, ih semicolon.2 ampersand.2]

theorem Names.cutReference? {name : List Char} {c : Char} (names : Names name c)
    (rest : List Char) : cutReference? (name ++ ';' :: rest) = some (name, rest) :=
  cutReference?_append (names.plain _ (by simp)) (names.plain _ (by simp)) rest

theorem unescapeAttribute?_escapeAttribute (value : List Char) :
    unescapeAttribute? (escapeAttribute value) = some value := by
  induction value with
  | nil => simp [escapeAttribute, unescapeAttribute?]
  | cons c rest ih =>
      have step : escapeAttribute (c :: rest) = escapeAttributeChar c ++ escapeAttribute rest := rfl
      rw [step]
      rcases escapeAttributeChar_cases c with ⟨other, _, kept⟩ | ⟨name, names, escaped⟩
      · rw [kept, List.singleton_append, unescapeAttribute?, if_neg other, ih]
        rfl
      · have cut := names.cutReference? (escapeAttribute rest)
        rw [escaped, List.cons_append, List.append_assoc, List.singleton_append, unescapeAttribute?,
          if_pos rfl]
        split
        · rename_i found after same
          rw [cut, Option.some.injEq, Prod.mk.injEq] at same
          obtain ⟨rfl, rfl⟩ := same
          simp [names.value, ih]
        · rename_i none
          rw [cut] at none
          simp at none

theorem attributeValue_escapeAttribute (value : List Char) :
    attributeValue (escapeAttribute value) = value := by
  rw [attributeValue, unescapeAttribute?_escapeAttribute]
  rfl

/-! Names and tags -/

theorem span_until {ends : Char → Bool} {word : List Char} (inside : ∀ c ∈ word, ends c = false)
    (rest : List Char) (stops : ∀ c ∈ rest.head?, ends c = true) :
    (word ++ rest).takeWhile (fun c => !ends c) = word ∧
      (word ++ rest).dropWhile (fun c => !ends c) = rest := by
  have inside : ∀ c ∈ word, (!ends c) = true := by
    intro c member
    rw [inside c member]
    rfl
  rw [List.takeWhile_append_of_pos inside, List.dropWhile_append_of_pos inside]
  cases rest with
  | nil => simp
  | cons c rest => simp [stops c (by simp)]

/-- A name that can stand in a tag as it is. -/
structure IsName (name : List Char) : Prop where
  nonempty : name ≠ []
  space : ∀ c ∈ name, isSpace c = false
  mark : ∀ c ∈ ['<', '>', '/', '=', '&', '\'', '"'], c ∉ name

instance (name : List Char) : Decidable (IsName name) :=
  decidable_of_iff (name ≠ [] ∧ (name.all fun c => !isSpace c) = true ∧
      (['<', '>', '/', '=', '&', '\'', '"'].all fun c => !name.contains c) = true) <| by
    simp only [List.all_eq_true, Bool.not_eq_true', List.contains_eq_mem, decide_eq_false_iff_not]
    exact ⟨fun ⟨nonempty, space, mark⟩ => ⟨nonempty, space, mark⟩,
      fun isName => ⟨isName.nonempty, isName.space, isName.mark⟩⟩

/-- A name that is read in a tag as it was written. It may be empty or hold marks that mean nothing there. -/
structure Legible (name : List Char) : Prop where
  space : ∀ c ∈ name, isSpace c = false
  mark : ∀ c ∈ ['>', '/', '=', '\'', '"'], c ∉ name

theorem IsName.legible {name : List Char} (isName : IsName name) : Legible name := by
  have fewer : ['>', '/', '=', '\'', '"'] ⊆ ['<', '>', '/', '=', '&', '\'', '"'] := by simp
  exact ⟨isName.space, fun c listed => isName.mark c (fewer listed)⟩

namespace Token

theorem cutTag_append {plain : List Char} (bracket : '>' ∉ plain)
    (quotes : ∀ c ∈ plain, isQuote c = false) (rest : List Char) :
    cutTag none (plain ++ rest) =
      (cutTag none rest).map fun (before, after) => (plain ++ before, after) := by
  induction plain with
  | nil => simp
  | cons c plain ih =>
      simp only [List.mem_cons, not_or] at bracket
      have others := ih bracket.2 fun c member => quotes c (List.mem_cons_of_mem _ member)
      simp [cutTag, Ne.symm bracket.1, quotes c (by simp), others, Function.comp_def]

theorem cutTag_quoted {value : List Char} (fresh : '"' ∉ value) (rest : List Char) :
    cutTag (some '"') (value ++ '"' :: rest) =
      (cutTag none rest).map fun (before, after) => (value ++ '"' :: before, after) := by
  induction value with
  | nil => simp [cutTag]
  | cons c value ih =>
      simp only [List.mem_cons, not_or] at fresh
      simp [cutTag, Ne.symm fresh.1, ih fresh.2, Function.comp_def]

theorem cutAt_quote {value : List Char} (fresh : '"' ∉ value) (rest : List Char) :
    cutAt ['"'] (value ++ '"' :: rest) = some (value, rest) := by
  induction value with
  | nil => simp [cutAt]
  | cons c value ih =>
      simp only [List.mem_cons, not_or] at fresh
      simp [cutAt, fresh.1, ih fresh.2]

end Token

namespace Legible

open Token

variable {name : List Char}

theorem isQuote (legible : Legible name) : ∀ c ∈ name, isQuote c = false := by
  intro c member
  have double : c ≠ '"' := fun same => legible.mark '"' (by simp) (same ▸ member)
  have single : c ≠ '\'' := fun same => legible.mark '\'' (by simp) (same ▸ member)
  simp [Token.isQuote, double, single]

theorem cutTag (legible : Legible name) (rest : List Char) :
    Token.cutTag none (name ++ rest) =
      (Token.cutTag none rest).map fun (before, after) => (name ++ before, after) :=
  cutTag_append (legible.mark '>' (by simp)) legible.isQuote rest

theorem dropSpaceEnd (legible : Legible name) : dropSpaceEnd name = name := by
  have kept : name.reverse.dropWhile isSpace = name.reverse := by
    cases same : name.reverse with
    | nil => rfl
    | cons c rest =>
        have member : c ∈ name := by
          rw [← List.mem_reverse, same]
          exact List.mem_cons_self ..
        simp [legible.space c member]
  rw [Token.dropSpaceEnd, kept, List.reverse_reverse]

end Legible

/-- An element that can be written and read again. -/
structure Element.Writable (element : Element) : Prop where
  tag : IsName element.tag.toList
  head : element.tag.toList.head? ≠ some '!' ∧ element.tag.toList.head? ≠ some '?'
  key : ∀ entry ∈ element.attributes, IsName entry.key.toList
  distinct : (element.attributes.map Attribute.key).Nodup

/-- An element whose tags are read as they were written. -/
structure Element.Legible (element : Element) : Prop where
  tag : Markup.Legible element.tag.toList
  head : ∀ c ∈ element.tag.toList.head?, c ≠ '!' ∧ c ≠ '?'
  key : ∀ entry ∈ element.attributes, entry.key.toList ≠ [] ∧ Markup.Legible entry.key.toList
  distinct : (element.attributes.map Attribute.key).Nodup

theorem Element.Writable.legible {element : Element} (writable : element.Writable) : element.Legible := by
  refine ⟨writable.tag.legible, ?_, fun entry member => ?_, writable.distinct⟩
  · intro c first
    rw [Option.mem_def] at first
    exact ⟨fun same => writable.head.1 (same ▸ first), fun same => writable.head.2 (same ▸ first)⟩
  · have isName := writable.key entry member
    exact ⟨isName.nonempty, isName.legible⟩

open Markup.Tree (writeAttribute writeStart)

namespace Token

variable {attributes : List Attribute}

theorem cutTag_writeAttribute {entry : Attribute} (key : Legible entry.key.toList) (rest : List Char) :
    cutTag none (writeAttribute entry ++ rest) =
      (cutTag none rest).map fun (before, after) => (writeAttribute entry ++ before, after) := by
  have lead : cutTag none (' ' :: (entry.key.toList ++ '=' :: '"' ::
      (escapeAttribute entry.value.toList ++ '"' :: rest))) =
        (cutTag none rest).map fun (before, after) => (' ' :: (entry.key.toList ++ '=' :: '"' ::
          (escapeAttribute entry.value.toList ++ '"' :: before)), after) := by
    have quoted := cutTag_quoted (quote_not_mem_escapeAttribute entry.value.toList) rest
    simp [cutTag, isQuote, key.cutTag, quoted, Function.comp_def]
  simpa [writeAttribute] using lead

theorem cutTag_writeAttributes (keys : ∀ entry ∈ attributes, Legible entry.key.toList)
    (rest : List Char) :
    cutTag none (attributes.flatMap writeAttribute ++ rest) =
      (cutTag none rest).map fun (before, after) =>
        (attributes.flatMap writeAttribute ++ before, after) := by
  induction attributes with
  | nil => simp
  | cons entry others ih =>
      have later := ih fun entry member => keys entry (List.mem_cons_of_mem _ member)
      rw [List.flatMap_cons, List.append_assoc, cutTag_writeAttribute (keys entry (by simp)), later]
      simp [Function.comp_def]

theorem readAttributes_writeAttribute {entry : Attribute}
    (key : entry.key.toList ≠ [] ∧ Legible entry.key.toList) {seen : List String}
    (fresh : entry.key ∉ seen) (fuel : Nat) (rest : List Char) :
    readAttributes seen (fuel + 1) (writeAttribute entry ++ rest) =
      entry :: readAttributes (entry.key :: seen) fuel rest := by
  have value := cutAt_quote (quote_not_mem_escapeAttribute entry.value.toList) rest
  obtain ⟨c, word, spelled⟩ := List.exists_cons_of_ne_nil key.1
  have written : writeAttribute entry ++ rest = ' ' :: (c :: (word ++ '=' :: '"' ::
      (escapeAttribute entry.value.toList ++ '"' :: rest))) := by
    simp [writeAttribute, spelled]
  have inside : ∀ c ∈ word, (decide (c = '=') || isSpace c) = false := by
    intro other member
    have listed : other ∈ entry.key.toList := by
      rw [spelled]
      exact List.mem_cons_of_mem _ member
    have equals : other ≠ '=' := fun same => key.2.mark '=' (by simp) (same ▸ listed)
    simp [equals, key.2.space other listed]
  have first : isSpace c = false := key.2.space c (by simp [spelled])
  obtain ⟨taken, dropped⟩ := span_until inside
    ('=' :: '"' :: (escapeAttribute entry.value.toList ++ '"' :: rest)) (by simp)
  have named : String.ofList (c :: word) = entry.key := by
    rw [← spelled, String.ofList_toList]
  have skipped : (' ' :: (c :: (word ++ '=' :: '"' ::
      (escapeAttribute entry.value.toList ++ '"' :: rest)))).dropWhile isSpace =
        c :: (word ++ '=' :: '"' :: (escapeAttribute entry.value.toList ++ '"' :: rest)) := by
    rw [List.dropWhile_cons_of_pos (by decide), List.dropWhile_cons_of_neg (by simp [first])]
  rw [written, readAttributes, skipped]
  simp only [taken, dropped, named]
  simp [isSpace, isQuote, fresh, value, attributeValue_escapeAttribute]

/-- The attributes are read as they were written, whatever blanks follow. -/
theorem readAttributes_writeAttributes
    (keys : ∀ entry ∈ attributes, entry.key.toList ≠ [] ∧ Legible entry.key.toList)
    {seen : List String} (fresh : ∀ entry ∈ attributes, entry.key ∉ seen)
    (distinct : (attributes.map Attribute.key).Nodup) {fuel : Nat}
    (enough : attributes.length < fuel) {tail : List Char} (blank : tail.all isSpace = true) :
    readAttributes seen fuel (attributes.flatMap writeAttribute ++ tail) = attributes := by
  induction attributes generalizing seen fuel with
  | nil =>
      cases fuel with
      | zero => simp at enough
      | succ fuel =>
          have skipped : tail.dropWhile isSpace = [] := by
            rw [List.dropWhile_eq_nil_iff]
            exact List.all_eq_true.mp blank
          simp [readAttributes, skipped]
  | cons entry others ih =>
      cases fuel with
      | zero => simp at enough
      | succ fuel =>
          rw [List.map_cons, List.nodup_cons] at distinct
          rw [List.flatMap_cons, List.append_assoc,
            readAttributes_writeAttribute (keys entry (by simp)) (fresh entry (by simp))]
          rw [ih (fun entry member => keys entry (List.mem_cons_of_mem _ member)) ?_ distinct.2
            (by simpa using enough)]
          intro other member
          rw [List.mem_cons, not_or]
          refine ⟨?_, fresh other (List.mem_cons_of_mem _ member)⟩
          intro same
          exact distinct.1 (same ▸ List.mem_map_of_mem member)

theorem length_le_writeAttributes (attributes : List Attribute) :
    attributes.length ≤ (attributes.flatMap writeAttribute).length := by
  induction attributes with
  | nil => simp
  | cons entry others ih =>
      simp only [List.flatMap_cons, List.length_append, List.length_cons, writeAttribute]
      omega

/-! The marks behind an opening bracket that tell what begins there -/

theorem readBracket?_of_start {source : List Char}
    (start : ∀ c ∈ source.head?, c ≠ '/' ∧ c ≠ '!' ∧ c ≠ '?') :
    readBracket? source = (cutTag none source).map fun (content, after) => (ofStart content, after) := by
  have apart : ∀ {mark : Char} {rest : List Char}, source = mark :: rest →
      mark ≠ '/' ∧ mark ≠ '!' ∧ mark ≠ '?' := by
    rintro mark rest rfl
    exact start mark rfl
  unfold readBracket?
  split
  · exact absurd rfl (apart rfl).1
  · exact absurd rfl (apart rfl).2.2
  · exact absurd rfl (apart rfl).2.1
  · cases cutTag none source <;> rfl

theorem head_writeStart {element : Element} (slash : '/' ∉ element.tag.toList)
    (head : ∀ c ∈ element.tag.toList.head?, c ≠ '!' ∧ c ≠ '?') {tail : List Char}
    (ends : ∀ c ∈ tail.head?, c ≠ '/' ∧ c ≠ '!' ∧ c ≠ '?') :
    ∀ c ∈ (element.tag.toList ++ (element.attributes.flatMap writeAttribute ++ tail)).head?,
      c ≠ '/' ∧ c ≠ '!' ∧ c ≠ '?' := by
  intro c first
  cases tag : element.tag.toList with
  | nil =>
      cases attributes : element.attributes with
      | nil =>
          rw [tag, attributes] at first
          exact ends c first
      | cons entry others =>
          simp only [tag, attributes, List.flatMap_cons, writeAttribute, List.nil_append,
            List.cons_append, List.head?_cons, Option.mem_def, Option.some.injEq] at first
          rw [← first]
          decide
  | cons mark word =>
      rw [tag] at slash head first
      cases first
      exact ⟨fun same => slash (by simp [same]), head c rfl⟩

section Tags

variable {element : Element} (legible : element.Legible)
include legible

theorem readStart_writeStart (tail : List Char) (blank : tail.all isSpace = true) :
    readStart (element.tag.toList ++ (element.attributes.flatMap writeAttribute ++ tail)) =
      (element.tag, element.attributes) := by
  have stops : ∀ c ∈ (element.attributes.flatMap writeAttribute ++ tail).head?, isSpace c = true := by
    intro c first
    cases attributes : element.attributes with
    | nil =>
        rw [attributes, List.flatMap_nil, List.nil_append] at first
        exact List.all_eq_true.mp blank c (List.mem_of_mem_head? first)
    | cons entry others =>
        simp only [attributes, List.flatMap_cons, writeAttribute, List.cons_append, List.head?_cons,
          Option.mem_def, Option.some.injEq] at first
        rw [← first]
        decide
  obtain ⟨taken, dropped⟩ := span_until legible.tag.space _ stops
  have length := length_le_writeAttributes element.attributes
  have read : readAttributes [] ((element.attributes.flatMap writeAttribute ++ tail).length + 1)
      (element.attributes.flatMap writeAttribute ++ tail) = element.attributes :=
    readAttributes_writeAttributes legible.key (by simp) legible.distinct
      (by rw [List.length_append]; omega) blank
  rw [readStart, taken, dropped]
  simp only [read, String.ofList_toList]

theorem getLast?_writeStart :
    (element.tag.toList ++ element.attributes.flatMap writeAttribute).getLast? ≠ some '/' := by
  intro last
  have ends : ∀ entry : Attribute, (writeAttribute entry).getLast? = some '"' := by
    intro entry
    rw [writeAttribute, List.getLast?_concat]
  rcases List.eq_nil_or_concat element.attributes with none | ⟨others, entry, some⟩
  · rw [none, List.flatMap_nil, List.append_nil] at last
    exact legible.tag.mark '/' (by simp) (List.mem_of_getLast? last)
  · rw [some] at last
    simp only [List.concat_eq_append, List.flatMap_append, List.flatMap_cons, List.flatMap_nil,
      List.append_nil, ← List.append_assoc] at last
    rw [List.getLast?_append, ends] at last
    simp at last

theorem ofStart_opening :
    ofStart (element.tag.toList ++ element.attributes.flatMap writeAttribute) =
      .opening element.tag element.attributes := by
  have last := getLast?_writeStart legible
  have read := readStart_writeStart legible [] rfl
  rw [List.append_nil] at read
  rw [ofStart, read]
  split
  · rename_i same
    exact absurd same last
  · rfl

theorem ofStart_empty :
    ofStart (element.tag.toList ++ element.attributes.flatMap writeAttribute ++ [' ', '/']) =
      .empty element.tag element.attributes := by
  have read := readStart_writeStart legible [' '] rfl
  have shorter : (element.tag.toList ++ element.attributes.flatMap writeAttribute ++
      [' ', '/']).dropLast = element.tag.toList ++
        (element.attributes.flatMap writeAttribute ++ [' ']) := by
    simp
  rw [ofStart, shorter, read]
  simp

theorem next?_start (ending : List Char) (plain : ∀ c ∈ ending, c ≠ '>' ∧ isQuote c = false)
    (space : ∀ c ∈ ending.head?, c = ' ') (rest : List Char) :
    next? (writeStart element ++ ending ++ '>' :: rest) =
      some (ofStart (element.tag.toList ++ element.attributes.flatMap writeAttribute ++ ending),
        rest) := by
  have bracket : '>' ∉ ending := fun member => (plain _ member).1 rfl
  have cut := cutTag_append bracket (fun c member => (plain c member).2) ('>' :: rest)
  have lead : writeStart element ++ ending ++ '>' :: rest = '<' :: (element.tag.toList ++
      (element.attributes.flatMap writeAttribute ++ (ending ++ '>' :: rest))) := by
    simp [writeStart]
  have ends : ∀ c ∈ (ending ++ '>' :: rest).head?, c ≠ '/' ∧ c ≠ '!' ∧ c ≠ '?' := by
    intro c first
    cases ending with
    | nil =>
        cases first
        decide
    | cons mark others =>
        cases first
        rw [space c rfl]
        decide
  have start := head_writeStart (legible.tag.mark '/' (by simp)) legible.head ends
  rw [lead, next?, if_pos rfl, readBracket?_of_start start, legible.tag.cutTag,
    cutTag_writeAttributes (fun entry member => (legible.key entry member).2), cut]
  simp [cutTag]

theorem next?_opening (rest : List Char) :
    next? (writeStart element ++ '>' :: rest) =
      some (.opening element.tag element.attributes, rest) := by
  have read := next?_start legible [] (by simp) (by simp) rest
  simpa [ofStart_opening legible] using read

theorem next?_empty (rest : List Char) :
    next? (writeStart element ++ [' ', '/', '>'] ++ rest) =
      some (.empty element.tag element.attributes, rest) := by
  have read := next?_start legible [' ', '/'] (by simp [isQuote]) (by simp) rest
  rw [ofStart_empty legible] at read
  simpa using read

theorem next?_closing (rest : List Char) :
    next? ('<' :: '/' :: element.tag.toList ++ ['>'] ++ rest) = some (.closing element.tag, rest) := by
  have cut := legible.tag.cutTag ('>' :: rest)
  simp only [cutTag, if_pos, Option.map_some, List.append_nil] at cut
  simp [next?, readBracket?, cut, legible.tag.dropSpaceEnd]

end Tags

theorem next?_reference {name : List Char} {c : Char} (names : Names name c) (rest : List Char) :
    next? ('&' :: (name ++ [';']) ++ rest) = some (.reference name, rest) := by
  have cut := names.cutReference? rest
  have bracket : name.contains '<' = false := by
    have fresh := names.plain '<' (by simp)
    simpa [List.contains_eq_mem] using fresh
  have lead : '&' :: (name ++ [';']) ++ rest = '&' :: (name ++ ';' :: rest) := by simp
  rw [lead, next?, if_neg (by decide), if_pos rfl, readReference?, cut]
  simp only [Option.bind_eq_bind, Option.bind_some, bracket]
  rfl

end Token

end WordTemplate.Markup
