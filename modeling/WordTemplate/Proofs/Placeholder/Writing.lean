import WordTemplate.Proofs.Placeholder.Rekeying

/-! Markers that are written from their parts and read again. What is read has the parts that were written, with
the modifiers in small letters. -/

namespace WordTemplate

namespace Text

theorem trimStart_eq_self {text : List Char} (plain : ∀ c ∈ text.head?, isBlank c = false) :
    trimStart text = text := by
  cases text with
  | nil => rfl
  | cons c rest => exact List.dropWhile_cons_of_neg (by simpa using plain)

theorem trimEnd_eq_self {text : List Char} (plain : ∀ c ∈ text.getLast?, isBlank c = false) :
    trimEnd text = text := by
  have same : trimStart text.reverse = text.reverse := trimStart_eq_self (by simpa using plain)
  rw [trimStart] at same
  rw [trimEnd, same, List.reverse_reverse]

end Text

namespace Formatter

theorem ofName?_eq_some_iff {part : String} {formatter : Formatter} :
    ofName? part = some formatter ↔ part = formatter.name := by
  constructor
  · intro found
    have named := List.find?_some found
    exact (of_decide_eq_true named).symm
  · rintro rfl
    cases formatter <;> decide

theorem ofName?_eq_none_iff {part : String} :
    ofName? part = none ↔ ∀ formatter : Formatter, part ≠ formatter.name := by
  simp only [Option.eq_none_iff_forall_ne_some, Ne, ofName?_eq_some_iff]

theorem ofModifiers?_eq_some_iff {modifiers : List String} {formatter : Formatter} :
    ofModifiers? modifiers = some formatter ↔
      ∃ front back, modifiers = front ++ formatter.name :: back ∧
        ∀ part ∈ back, ∀ other : Formatter, part ≠ other.name := by
  rw [ofModifiers?, List.getLast?_eq_some_iff]
  constructor
  · rintro ⟨others, same⟩
    obtain ⟨front, last, rfl, -, ends⟩ := List.filterMap_eq_append_iff.mp same
    obtain ⟨before, part, back, rfl, -, named, none⟩ := List.filterMap_eq_cons_iff.mp ends
    refine ⟨front ++ before, back, ?_, fun other listed => ?_⟩
    · rw [List.append_assoc, ofName?_eq_some_iff.mp named]
    · exact ofName?_eq_none_iff.mp (List.filterMap_eq_nil_iff.mp none other listed)
  · rintro ⟨front, back, rfl, none⟩
    have silent : back.filterMap ofName? = [] :=
      List.filterMap_eq_nil_iff.mpr fun part listed => ofName?_eq_none_iff.mpr (none part listed)
    refine ⟨front.filterMap ofName?, ?_⟩
    rw [List.filterMap_append, List.filterMap_cons_some (ofName?_eq_some_iff.mpr rfl), silent]

end Formatter

namespace Trigger

/-- The words of a trigger: a condition, a command and a scope. -/
def AreWords (modifiers : List String) : Prop :=
  ∃ condition command scope, modifiers = [condition, command, scope] ∧
    condition ∈ ["empty", "value", "="] ∧ command ∈ ["remove", "clear"] ∧
    scope ∈ ["placeholder", "cell", "row", "list", "table", "section"]

theorem isSome_find?_word_iff {α : Type} {items : List α} {write : α → String} {word : String} :
    (items.find? fun item => write item = word).isSome ↔ word ∈ items.map write := by
  rw [List.find?_isSome, List.mem_map]
  simp only [decide_eq_true_eq]

theorem isSome_conditionOfWord?_iff {word : String} :
    (Condition.ofWord? word).isSome ↔ word ∈ ["empty", "value", "="] := by
  rw [Condition.ofWord?.eq_def]
  split <;> simp_all

/-- A trigger is read from exactly three modifiers, each a word of its kind. -/
theorem isSome_ofModifiers?_iff {modifiers : List String} :
    (ofModifiers? modifiers).isSome ↔ AreWords modifiers := by
  have commands (word : String) : (Command.ofWord? word).isSome ↔ word ∈ ["remove", "clear"] :=
    isSome_find?_word_iff
  have scopes (word : String) : (Scope.ofWord? word).isSome ↔
      word ∈ ["placeholder", "cell", "row", "list", "table", "section"] :=
    isSome_find?_word_iff
  by_cases three : ∃ condition command scope, modifiers = [condition, command, scope]
  · obtain ⟨condition, command, scope, rfl⟩ := three
    have words : AreWords [condition, command, scope] ↔
        condition ∈ ["empty", "value", "="] ∧ command ∈ ["remove", "clear"] ∧
          scope ∈ ["placeholder", "cell", "row", "list", "table", "section"] := by
      constructor
      · rintro ⟨_, _, _, ⟨⟩, known⟩
        exact known
      · exact fun known => ⟨_, _, _, rfl, known⟩
    rw [words, ← isSome_conditionOfWord?_iff, ← commands, ← scopes, ofModifiers?]
    cases Condition.ofWord? condition <;> cases Command.ofWord? command <;> cases Scope.ofWord? scope <;> simp
  · have none : ofModifiers? modifiers = none := by
      rw [ofModifiers?.eq_def]
      split
      · exact absurd ⟨_, _, _, rfl⟩ three
      · rfl
    rw [none]
    refine iff_of_false (by decide) ?_
    rintro ⟨condition, command, scope, same, -⟩
    exact three ⟨condition, command, scope, same⟩

end Trigger

namespace Placeholder

open Text (isWordChar isBlank)

/-- A marker written from its parts, each modifier behind a colon. -/
def written (asksKey : Bool) (key separator : String) (modifiers : List String) : String :=
  "\x7b\x7b" ++ (if asksKey then "#" else "") ++ key ++ " " ++ separator ++
    String.join (modifiers.map fun part => ":" ++ part) ++ "\x7d\x7d"

/-- What may stand between a key and modifiers: no word characters, braces and colons, without blanks in front,
and without blanks behind where modifiers follow. -/
structure IsSeparator (separator : List Char) (followed : Prop) : Prop where
  plain : ∀ c ∈ separator, isWordChar c = false ∧ Piece.isBrace c = false ∧ c ≠ ':'
  front : ∀ c ∈ separator.head?, isBlank c = false
  behind : followed → ∀ c ∈ separator.getLast?, isBlank c = false

variable {separator : List Char} {parts : List (List Char)}

theorem IsSeparator.separatorOf_eq (isSeparator : IsSeparator separator (parts ≠ [])) :
    separatorOf separator parts = separator := by
  have front := Text.trimStart_eq_self isSeparator.front
  cases parts with
  | nil => exact front
  | cons part rest =>
      rw [separatorOf, front]
      exact Text.trimEnd_eq_self (isSeparator.behind (by simp))

/-- The first chain that reaches to the end starts behind the separator, which holds no colon. -/
theorem IsSeparator.cutBefore {followed : Prop} (isSeparator : IsSeparator separator followed)
    (modifiers : parts = [] ∨ AreModifiers parts) : CutBefore (separator ++ chained parts) separator parts := by
  refine ⟨rfl, modifiers, ?_⟩
  rintro front behind whole ⟨others, several, rfl⟩
  by_contra shorter
  obtain ⟨part, rest, rfl⟩ := List.exists_cons_of_ne_nil several.some
  have colon : ':' ∈ separator := by
    rw [List.append_eq_append_iff] at whole
    rcases whole with ⟨more, rfl, -⟩ | ⟨more, rfl, chain⟩
    · exact absurd (by simp) shorter
    · cases more with
      | nil => exact absurd (by simp) shorter
      | cons c tail =>
          obtain ⟨rfl, -⟩ := List.cons.inj chain
          simp
  exact (isSeparator.plain ':' colon).2.2 rfl

theorem IsSeparator.keyBefore {followed : Prop} (isSeparator : IsSeparator separator followed) {key : List Char}
    (isKey : IsKey key) : KeyBefore key (' ' :: (separator ++ chained parts)) := by
  refine keyBefore_iff.mpr ⟨isKey, cutKeyRun_eq_nil_iff.mpr ?_⟩
  rintro c rest ⟨⟩ (word | dot | hyphen | ⟨-, next, others, text, word⟩)
  · exact absurd word (by decide)
  · exact absurd dot (by decide)
  · exact absurd hyphen (by decide)
  · cases separator with
    | cons first behind =>
        obtain ⟨rfl, -⟩ := List.cons.inj text
        simp [(isSeparator.plain first (by simp)).1] at word
    | nil =>
        cases parts with
        | nil => simp at text
        | cons part rest =>
            obtain ⟨rfl, -⟩ := List.cons.inj text
            exact absurd word (by decide)

/-- The placeholder that has the given parts. -/
def ofParts (asksKey : Bool) (key separator : String) (modifiers : List String) : Placeholder where
  asksKey := asksKey
  key := key
  suffix := " " ++ separator ++ String.join (modifiers.map fun part => ":" ++ part)
  separator := if separator = "" then none else some separator
  modifiers := modifiers.map fun part => String.ofList (Text.lower part.toList)

theorem source_ofParts (asksKey : Bool) (key separator : String) (modifiers : List String) :
    (ofParts asksKey key separator modifiers).source = written asksKey key separator modifiers := by
  simp [source, withKey, ofParts, written, String.append_assoc]

theorem toList_chained (modifiers : List String) :
    (String.join (modifiers.map fun part => ":" ++ part)).toList = chained (modifiers.map String.toList) := by
  induction modifiers with
  | nil => rfl
  | cons part rest ih => simp [ih, List.map_cons, chained_cons]

/-- Modifiers in a marker: at most three, none of them empty, of word characters and equals signs. -/
structure AreParts (modifiers : List String) : Prop where
  few : modifiers.length ≤ 3
  filled : ∀ part ∈ modifiers, part ≠ ""
  letters : ∀ part ∈ modifiers, ∀ c ∈ part.toList, isWordChar c = true ∨ c = '='

theorem AreParts.areModifiers {modifiers : List String} (are : AreParts modifiers) (some : modifiers ≠ []) :
    AreModifiers (modifiers.map String.toList) where
  some := by simpa using some
  few := by simpa using are.few
  filled := by simpa using are.filled
  letters := by simpa using are.letters

variable {asksKey : Bool} {key separator : String} {modifiers : List String}

theorem toList_suffix_ofParts : (ofParts asksKey key separator modifiers).suffix.toList =
    ' ' :: (separator.toList ++ chained (modifiers.map String.toList)) := by
  simp [ofParts, ← toList_chained]

theorem reads_ofParts (isKey : IsKey key.toList) (isSeparator : IsSeparator separator.toList (modifiers ≠ []))
    (are : AreParts modifiers) :
    Reads (ofParts asksKey key separator modifiers).body (ofParts asksKey key separator modifiers) := by
  refine ⟨rfl, toList_suffix_ofParts ▸ isSeparator.keyBefore isKey, ?_⟩
  rw [toList_suffix_ofParts]
  have parts : modifiers.map String.toList = [] ∨ AreModifiers (modifiers.map String.toList) := by
    by_cases none : modifiers = []
    · exact .inl (by simp [none])
    · exact .inr (are.areModifiers none)
  have apart : separatorOf separator.toList (modifiers.map String.toList) = separator.toList :=
    IsSeparator.separatorOf_eq (by simpa using isSeparator)
  have follows := Follows.suffix (isSeparator.cutBefore parts)
    (by rw [apart]; exact fun c listed => (isSeparator.plain c listed).1)
  rw [apart, List.map_map] at follows
  simpa [ofParts, Function.comp_def] using follows

theorem isBrace_of_isWordChar {c : Char} (word : isWordChar c = true) : Piece.isBrace c = false := by
  by_contra brace
  simp only [Piece.isBrace, Bool.not_eq_false, Bool.or_eq_true, decide_eq_true_eq] at brace
  rcases brace with rfl | rfl <;> exact absurd word (by decide)

theorem proper_ofParts (isKey : IsKey key.toList)
    (isSeparator : IsSeparator separator.toList (modifiers ≠ [])) (are : AreParts modifiers) :
    (ofParts asksKey key separator modifiers).Proper := by
  refine ⟨ofBody?_eq_some_iff.mpr (reads_ofParts isKey isSeparator are), ?_⟩
  have sign : Braceless (if asksKey then ['#'] else []) := by
    cases asksKey <;> decide
  have chain : Braceless (chained (modifiers.map String.toList)) := by
    rw [chained, List.flatMap_map]
    refine braceless_flatMap fun part listed => braceless_cons.mpr ⟨by decide, fun c member => ?_⟩
    rcases are.letters part listed c member with word | rfl
    · exact isBrace_of_isWordChar word
    · decide
  have body : (ofParts asksKey key separator modifiers).body = (if asksKey then ['#'] else []) ++ key.toList ++
      ' ' :: (separator.toList ++ chained (modifiers.map String.toList)) := by
    rw [Placeholder.body, toList_suffix_ofParts]
    rfl
  rw [body]
  refine braceless_append.mpr ⟨braceless_append.mpr ⟨sign, plain_of_isKeyRun isKey.1⟩, braceless_cons.mpr ?_⟩
  exact ⟨by decide, braceless_append.mpr ⟨fun c listed => (isSeparator.plain c listed).2.1, chain⟩⟩

/-- A marker that is written from its parts is read as a placeholder with these parts, its modifiers in small
letters. The last modifier that names a formatter is the formatter, and there is a trigger exactly if the
modifiers are a condition, a command and a scope. -/
theorem parse?_written (filled : key ≠ "") (whole : cutKey key.toList = (key.toList, []))
    (isSeparator : IsSeparator separator.toList (modifiers ≠ [])) (are : AreParts modifiers) :
    ∃ placeholder, parse? (written asksKey key separator modifiers) = some placeholder ∧
      placeholder.asksKey = asksKey ∧ placeholder.key = key ∧
      placeholder.separator = (if separator = "" then none else some separator) ∧
      placeholder.modifiers = modifiers.map (fun part => String.ofList (Text.lower part.toList)) ∧
      (∀ formatter : Formatter, placeholder.formatter? = some formatter ↔
        ∃ front back, placeholder.modifiers = front ++ formatter.name :: back ∧
          ∀ part ∈ back, ∀ other : Formatter, part ≠ other.name) ∧
      (placeholder.trigger?.isSome ↔ Trigger.AreWords placeholder.modifiers) := by
  have isKey := isKey_of_cutKey (mt String.toList_eq_nil_iff.mp filled) whole
  have proper : (ofParts asksKey key separator modifiers).Proper := proper_ofParts isKey isSeparator are
  have neat : ∀ piece ∈ [Piece.marker (ofParts asksKey key separator modifiers)], piece.Neat := by
    simpa [Piece.Neat] using proper
  have scanned := Piece.scan_sources neat
  refine ⟨ofParts asksKey key separator modifiers, ?_, rfl, rfl, rfl, rfl,
    fun formatter => Formatter.ofModifiers?_eq_some_iff, Trigger.isSome_ofModifiers?_iff⟩
  rw [parse?, ← source_ofParts]
  simpa [Piece.source, Piece.placeholder?] using congrArg List.head? scanned

/-- A separator in front of a trigger that is written in capital letters. -/
theorem parse?_written_trigger :
    (("Phone-no. 2" : String) ≠ "" ∧ cutKey "Phone-no. 2".toList = ("Phone-no. 2".toList, []) ∧
        IsSeparator "= ,".toList (["EMPTY", "Remove", "row"] ≠ []) ∧ AreParts ["EMPTY", "Remove", "row"]) ∧
      ∃ placeholder,
        parse? "\x7b\x7b#Phone-no. 2 = ,:EMPTY:Remove:row\x7d\x7d" = some placeholder ∧
        placeholder.key = "Phone-no. 2" ∧ placeholder.separator = some "= ," ∧
        placeholder.modifiers = ["empty", "remove", "row"] ∧ placeholder.trigger?.isSome := by
  have whole : cutKey "Phone-no. 2".toList = ("Phone-no. 2".toList, []) := by decide +kernel
  have isSeparator : IsSeparator "= ,".toList (["EMPTY", "Remove", "row"] ≠ []) := by
    refine ⟨fun c listed => ?_, fun c listed => ?_, fun _ c listed => ?_⟩
    · obtain rfl | rfl | rfl : c = '=' ∨ c = ' ' ∨ c = ',' := by simpa using listed
      all_goals decide
    · obtain rfl : '=' = c := by simpa using listed
      decide
    · obtain rfl : ',' = c := by simpa using listed
      decide
  have are : AreParts ["EMPTY", "Remove", "row"] := by
    have spelled : (["EMPTY", "Remove", "row"].all fun part =>
        part.toList.all fun c => isWordChar c || c = '=') = true := by decide +kernel
    refine ⟨by decide, by decide, fun part listed c inside => ?_⟩
    simpa using List.all_eq_true.mp (List.all_eq_true.mp spelled part listed) c inside
  refine ⟨⟨by decide, whole, isSeparator, are⟩, ?_⟩
  obtain ⟨placeholder, read, -, key, apart, modifiers, -, trigger⟩ :=
    @parse?_written true _ _ _ (by decide) whole isSeparator are
  have lowered : ["EMPTY", "Remove", "row"].map (fun part => String.ofList (Text.lower part.toList)) =
      ["empty", "remove", "row"] := by decide +kernel
  rw [lowered] at modifiers
  refine ⟨placeholder, read, key, apart, modifiers, trigger.mpr ?_⟩
  rw [modifiers]
  exact ⟨"empty", "remove", "row", rfl, by decide, by decide, by decide⟩

end Placeholder

end WordTemplate
