import WordTemplate.Proofs.Placeholder.Tidy

/-! The grammar of markers, stated without cutting anything: a key goes on as far as it can, and the modifiers
are the first chain that reaches to the end of what stands behind the key. A body is read as a placeholder
exactly when the grammar relates the two. -/

namespace WordTemplate

namespace Placeholder

open Text (isWordChar)

/-- A key goes on with the character when the given text stands behind the character. -/
def GoesOn (c : Char) (behind : List Char) : Prop :=
  isWordChar c = true ∨ c = '.' ∨ c = '-' ∨
    c = ' ' ∧ ∃ next rest, behind = next :: rest ∧ isWordChar next = true

/-- A key in front of the given text: it starts with a word character, goes on with each of its characters
and could not go on any further. -/
structure KeyBefore (key behind : List Char) : Prop where
  starts : ∃ c rest, key = c :: rest ∧ isWordChar c = true
  goesOn : ∀ front c rest, key = front ++ c :: rest → GoesOn c (rest ++ behind)
  stops : ∀ c rest, behind = c :: rest → ¬ GoesOn c rest

def chained (parts : List (List Char)) : List Char :=
  parts.flatMap fun part => ':' :: part

/-- Parts that may be chained: one to three, none of them empty, of word characters and equals signs. -/
structure AreModifiers (parts : List (List Char)) : Prop where
  some : parts ≠ []
  few : parts.length ≤ 3
  filled : ∀ part ∈ parts, part ≠ []
  letters : ∀ part ∈ parts, ∀ c ∈ part, isWordChar c = true ∨ c = '='

def IsChained (text : List Char) : Prop :=
  ∃ parts, AreModifiers parts ∧ text = chained parts

/-- Where a suffix is cut: before the first chain that reaches to its end, or at its end if there is none. -/
structure CutBefore (suffix before : List Char) (parts : List (List Char)) : Prop where
  whole : suffix = before ++ chained parts
  modifiers : parts = [] ∨ AreModifiers parts
  first : ∀ front behind, suffix = front ++ behind → IsChained behind → before.length ≤ front.length

/-- Blanks at the end belong to the separator only if no modifiers stand behind them. -/
def separatorOf (before : List Char) : List (List Char) → List Char
  | [] => Text.trimStart before
  | _ :: _ => Text.trimEnd (Text.trimStart before)

/-- What may stand behind a key: nothing, or a blank and a suffix whose separator has no word character. -/
inductive Follows : List Char → Option String → List String → Prop
  | nothing : Follows [] none []
  | suffix {suffix before : List Char} {parts : List (List Char)} (cut : CutBefore suffix before parts)
      (plain : ∀ c ∈ separatorOf before parts, isWordChar c = false) :
      Follows (' ' :: suffix)
        (if separatorOf before parts = [] then none else some (String.ofList (separatorOf before parts)))
        (parts.map fun part => String.ofList (Text.lower part))

structure Reads (body : List Char) (placeholder : Placeholder) : Prop where
  whole : placeholder.body = body
  key : KeyBefore placeholder.key.toList placeholder.suffix.toList
  follows : Follows placeholder.suffix.toList placeholder.separator placeholder.modifiers

/-! Keys. -/

theorem joins_iff {c : Char} {behind : List Char} : joins c behind = true ↔ GoesOn c behind := by
  rw [joins, GoesOn]
  by_cases blank : c = ' '
  · subst blank
    have other : ¬ isWordChar ' ' = true := by decide
    cases behind <;> simp [other]
  · simp only [blank, if_false, isKeyChar, Bool.or_eq_true, decide_eq_true_eq, false_and, or_false, or_assoc]
    rfl

theorem cutKeyRun_eq_nil_iff {behind : List Char} :
    cutKeyRun behind = ([], behind) ↔ ∀ c rest, behind = c :: rest → ¬ GoesOn c rest := by
  cases behind with
  | nil => simp [cutKeyRun]
  | cons c rest =>
      rw [cutKeyRun_cons]
      by_cases joined : joins c rest = true
      · simp [joined, joins_iff.mp joined]
      · have stop : ¬ GoesOn c rest := fun on => joined (joins_iff.mpr on)
        simp [joined, stop]

theorem joins_of_joins_append {c : Char} {rest behind : List Char}
    (stop : cutKeyRun behind = ([], behind)) (joined : joins c (rest ++ behind) = true) :
    joins c rest = true := by
  cases rest with
  | cons next others => exact joined
  | nil =>
      rcases joins_iff.mp joined with word | dot | hyphen | ⟨rfl, next, others, text, word⟩
      · exact joins_iff.mpr (.inl word)
      · exact joins_iff.mpr (.inr (.inl dot))
      · exact joins_iff.mpr (.inr (.inr (.inl hyphen)))
      · exact absurd (.inl word) (cutKeyRun_eq_nil_iff.mp stop next others text)

theorem isKeyRun_iff {run behind : List Char} (stop : cutKeyRun behind = ([], behind)) :
    IsKeyRun run ↔ ∀ front c rest, run = front ++ c :: rest → GoesOn c (rest ++ behind) := by
  induction run with
  | nil => simp [isKeyRun_nil]
  | cons c rest ih =>
      rw [isKeyRun_cons, ih]
      constructor
      · rintro ⟨joined, later⟩ front d others same
        rcases List.cons_eq_append_iff.mp same with ⟨-, here⟩ | ⟨tail, -, below⟩
        · obtain ⟨rfl, rfl⟩ := List.cons.inj here
          exact joins_iff.mp (joins_append behind joined)
        · exact later tail d others below
      · intro goesOn
        refine ⟨joins_of_joins_append stop (joins_iff.mpr (goesOn [] c rest rfl)), ?_⟩
        rintro front d others rfl
        exact goesOn (c :: front) d others rfl

theorem keyBefore_iff {key behind : List Char} :
    KeyBefore key behind ↔ IsKey key ∧ cutKeyRun behind = ([], behind) := by
  constructor
  · rintro ⟨starts, goesOn, stops⟩
    have stop := cutKeyRun_eq_nil_iff.mpr stops
    exact ⟨⟨(isKeyRun_iff stop).mpr goesOn, starts⟩, stop⟩
  · rintro ⟨⟨run, starts⟩, stop⟩
    exact ⟨starts, (isKeyRun_iff stop).mp run, cutKeyRun_eq_nil_iff.mp stop⟩

theorem cutKey_eq_iff {text key behind : List Char} (filled : key ≠ []) :
    cutKey text = (key, behind) ↔ key ++ behind = text ∧ KeyBefore key behind := by
  rw [keyBefore_iff]
  constructor
  · intro cut
    have spec : (cutKey text).1 ≠ [] → _ := cutKey_spec
    rw [cut] at spec
    exact spec filled
  · rintro ⟨rfl, isKey, stop⟩
    exact cutKey_of_isKey isKey stop

/-! Chains. -/

@[simp]
theorem chained_nil : chained [] = [] := rfl

@[simp]
theorem chained_cons (part : List Char) (parts : List (List Char)) :
    chained (part :: parts) = ':' :: part ++ chained parts := rfl

theorem chained_pieces (text : List Char) : chained (Text.pieces ':' text) = ':' :: text := by
  induction text with
  | nil => rfl
  | cons c rest ih =>
      rw [Text.pieces]
      by_cases colon : c = ':'
      · rw [if_pos colon, chained_cons, ih, colon]
        rfl
      · rw [if_neg colon]
        cases cut : Text.pieces ':' rest with
        | nil => exact absurd cut (Text.pieces_ne_nil ':' rest)
        | cons first others =>
            rw [cut, chained_cons, List.cons_append, List.cons.injEq] at ih
            simp [← ih.2]

theorem pieces_append_chained {first : List Char} {parts : List (List Char)} (free : ':' ∉ first)
    (others : ∀ part ∈ parts, ':' ∉ part) :
    Text.pieces ':' (first ++ chained parts) = first :: parts := by
  rw [Text.pieces_eq_splitOn]
  induction parts generalizing first with
  | nil => rw [chained_nil, List.append_nil, List.splitOn_eq_singleton free]
  | cons part rest ih =>
      rw [chained_cons, List.cons_append, List.splitOn_append_cons_self_of_not_mem free,
        ih (others part (by simp)) fun other member => others other (by simp [member])]

theorem pieces_chained {parts : List (List Char)} (free : ∀ part ∈ parts, ':' ∉ part) :
    Text.pieces ':' (chained parts) = [] :: parts := by
  have cut := pieces_append_chained List.not_mem_nil free
  exact cut

theorem AreModifiers.free {parts : List (List Char)} (modifiers : AreModifiers parts) :
    ∀ part ∈ parts, ':' ∉ part := by
  intro part listed colon
  rcases modifiers.letters part listed ':' colon with word | sign
  · exact absurd word (by decide)
  · exact absurd sign (by decide)

theorem areModifiers_iff {parts : List (List Char)} :
    AreModifiers parts ↔ parts ≠ [] ∧ parts.length ≤ maxModifiers ∧ parts.all isModifier = true := by
  simp only [List.all_eq_true, isModifier, Bool.and_eq_true, Bool.not_eq_true', List.isEmpty_eq_false_iff,
    Bool.or_eq_true, decide_eq_true_eq]
  constructor
  · rintro ⟨some, few, filled, letters⟩
    exact ⟨some, few, fun part listed => ⟨filled part listed, letters part listed⟩⟩
  · rintro ⟨some, few, each⟩
    exact ⟨some, few, fun part listed => (each part listed).1, fun part listed => (each part listed).2⟩

theorem isChain_iff {text : List Char} : isChain text = true ↔ IsChained text := by
  constructor
  · intro chain
    unfold isChain at chain
    split at chain
    · rename_i rest
      rw [Bool.and_eq_true, decide_eq_true_eq] at chain
      have modifiers := areModifiers_iff.mpr ⟨Text.pieces_ne_nil ':' rest, chain⟩
      exact ⟨_, modifiers, (chained_pieces rest).symm⟩
    · simp at chain
  · rintro ⟨parts, modifiers, rfl⟩
    have free := modifiers.free
    obtain ⟨some, few, all⟩ := areModifiers_iff.mp modifiers
    cases parts with
    | nil => exact absurd rfl some
    | cons part rest =>
        have others : ∀ other ∈ rest, ':' ∉ other := fun other member => free other (by simp [member])
        have cut := pieces_append_chained (free part (by simp)) others
        rw [chained_cons, List.cons_append, isChain, cut, Bool.and_eq_true, decide_eq_true_eq]
        exact ⟨few, all⟩

/-! Suffixes. -/

theorem CutBefore.free {suffix before : List Char} {parts : List (List Char)}
    (cut : CutBefore suffix before parts) : ∀ part ∈ parts, ':' ∉ part := by
  rcases cut.modifiers with rfl | modifiers
  · simp
  · exact modifiers.free

theorem CutBefore.length_le {suffix before other : List Char} {parts others : List (List Char)}
    (cut : CutBefore suffix before parts) (again : CutBefore suffix other others) :
    before.length ≤ other.length := by
  rcases again.modifiers with rfl | modifiers
  · have shorter : before.length ≤ suffix.length := by
      rw [cut.whole, List.length_append]
      exact Nat.le_add_right ..
    rwa [again.whole, chained_nil, List.append_nil] at shorter
  · exact cut.first other (chained others) again.whole ⟨others, modifiers, rfl⟩

theorem CutBefore.unique {suffix before other : List Char} {parts others : List (List Char)}
    (cut : CutBefore suffix before parts) (again : CutBefore suffix other others) :
    before = other ∧ parts = others := by
  have length := Nat.le_antisymm (cut.length_le again) (again.length_le cut)
  obtain ⟨front, chain⟩ := List.append_inj (cut.whole.symm.trans again.whole) length
  have pieces := congrArg (Text.pieces ':') chain
  rw [pieces_chained cut.free, pieces_chained again.free, List.cons.injEq] at pieces
  exact ⟨front, pieces.2⟩

theorem exists_cutBefore (suffix : List Char) :
    ∃ parts, (cutChain suffix).2 = chained parts ∧ CutBefore suffix (cutChain suffix).1 parts := by
  induction suffix with
  | nil => exact ⟨[], rfl, rfl, .inl rfl, by simp [cutChain]⟩
  | cons c rest ih =>
      rw [cutChain]
      by_cases chain : isChain (c :: rest) = true
      · obtain ⟨parts, modifiers, whole⟩ := isChain_iff.mp chain
        rw [if_pos chain]
        exact ⟨parts, whole, whole, .inr modifiers, by simp⟩
      · obtain ⟨parts, same, cut⟩ := ih
        rw [if_neg chain]
        refine ⟨parts, same, by rw [List.cons_append, ← cut.whole], cut.modifiers, ?_⟩
        intro front behind whole chained
        rcases List.cons_eq_append_iff.mp whole with ⟨-, here⟩ | ⟨tail, rfl, below⟩
        · exact absurd (isChain_iff.mpr (here ▸ chained)) chain
        · exact Nat.succ_le_succ (cut.first tail behind below chained)

theorem CutBefore.cutChain_eq {suffix before : List Char} {parts : List (List Char)}
    (cut : CutBefore suffix before parts) : cutChain suffix = (before, chained parts) := by
  obtain ⟨others, chain, again⟩ := exists_cutBefore suffix
  obtain ⟨front, same⟩ := cut.unique again
  rw [Prod.ext_iff]
  exact ⟨front.symm, same ▸ chain⟩

theorem CutBefore.readSuffix?_eq {suffix before : List Char} {parts : List (List Char)}
    (cut : CutBefore suffix before parts) :
    readSuffix? suffix =
      if (separatorOf before parts).any isWordChar then none
      else
        some (if separatorOf before parts = [] then none
          else some (String.ofList (separatorOf before parts)),
          parts.map fun part => String.ofList (Text.lower part)) := by
  have modifiers : chainModifiers (chained parts) =
      parts.map fun part => String.ofList (Text.lower part) := by
    rw [chainModifiers, pieces_chained cut.free, List.tail_cons]
  have separator : (if (chained parts).isEmpty then Text.trimStart before
      else Text.trimEnd (Text.trimStart before)) = separatorOf before parts := by
    cases parts <;> rfl
  simp only [readSuffix?, cut.cutChain_eq, separator, modifiers]
  simp only [List.isEmpty_iff]

theorem readSuffix?_eq_some_iff {suffix : List Char} {separator : Option String}
    {modifiers : List String} :
    readSuffix? suffix = some (separator, modifiers) ↔ Follows (' ' :: suffix) separator modifiers := by
  constructor
  · intro read
    obtain ⟨parts, -, cut⟩ := exists_cutBefore suffix
    rw [cut.readSuffix?_eq] at read
    split at read
    · simp at read
    · rename_i plain
      rw [Option.some.injEq, Prod.mk.injEq] at read
      obtain ⟨rfl, rfl⟩ := read
      exact .suffix cut (by simpa using plain)
  · rintro (_ | ⟨cut, plain⟩)
    rw [cut.readSuffix?_eq, if_neg (by simpa using plain)]

theorem follows_iff {behind : List Char} {separator : Option String} {modifiers : List String} :
    Follows behind separator modifiers ↔
      behind = [] ∧ separator = none ∧ modifiers = [] ∨
        ∃ suffix, behind = ' ' :: suffix ∧ readSuffix? suffix = some (separator, modifiers) := by
  constructor
  · intro follows
    cases follows with
    | nothing => exact .inl ⟨rfl, rfl, rfl⟩
    | suffix cut plain => exact .inr ⟨_, rfl, readSuffix?_eq_some_iff.mpr (.suffix cut plain)⟩
  · rintro (⟨rfl, rfl, rfl⟩ | ⟨suffix, rfl, read⟩)
    · exact .nothing
    · exact readSuffix?_eq_some_iff.mp read

/-! Bodies. -/

theorem readKeyed?_eq_some_iff {asksKey : Bool} {text : List Char} {placeholder : Placeholder} :
    readKeyed? asksKey text = some placeholder ↔
      placeholder.asksKey = asksKey ∧ placeholder.key.toList ++ placeholder.suffix.toList = text ∧
        KeyBefore placeholder.key.toList placeholder.suffix.toList ∧
        Follows placeholder.suffix.toList placeholder.separator placeholder.modifiers := by
  constructor
  · intro read
    rw [readKeyed?] at read
    cases cut : cutKey text with
    | mk front behind =>
        rw [cut] at read
        by_cases empty : front = []
        · simp [empty] at read
        · obtain ⟨whole, key⟩ := (cutKey_eq_iff empty).mp cut
          simp only [List.isEmpty_iff, empty, if_false] at read
          split at read
          · rw [Option.some.injEq] at read
            subst read
            rw [String.toList_ofList]
            exact ⟨rfl, whole, key, .nothing⟩
          · rename_i rest
            simp only [Option.bind_eq_bind, Option.bind_eq_some_iff, Option.pure_def,
              Option.some.injEq] at read
            obtain ⟨⟨separator, modifiers⟩, suffix, rfl⟩ := read
            rw [String.toList_ofList, String.toList_ofList]
            exact ⟨rfl, whole, key, readSuffix?_eq_some_iff.mp suffix⟩
          · simp at read
  · rintro ⟨asks, whole, key, follows⟩
    have filled : placeholder.key.toList ≠ [] := by
      obtain ⟨c, rest, start, -⟩ := key.starts
      simp [start]
    have cut := (cutKey_eq_iff filled).mpr ⟨whole, key⟩
    have written : String.ofList placeholder.suffix.toList = placeholder.suffix := String.ofList_toList
    obtain ⟨_, key, suffix, separator, modifiers⟩ := placeholder
    simp only at asks cut filled follows written
    rw [readKeyed?, cut]
    rcases follows_iff.mp follows with ⟨nothing, rfl, rfl⟩ | ⟨rest, blank, read⟩
    · simp [filled, asks, String.toList_eq_nil_iff.mp nothing]
    · simp only [List.isEmpty_iff, filled, if_false, blank]
      rw [blank] at written
      simp [read, written, asks]

theorem ofBody?_eq_some_iff {body : List Char} {placeholder : Placeholder} :
    ofBody? body = some placeholder ↔ Reads body placeholder := by
  have unsigned (key : KeyBefore placeholder.key.toList placeholder.suffix.toList) (rest : List Char) :
      placeholder.key.toList ++ placeholder.suffix.toList ≠ '#' :: rest := by
    obtain ⟨c, others, start, word⟩ := key.starts
    rw [start, List.cons_append]
    intro same
    rw [(List.cons.inj same).1, not_isWordChar_numberSign] at word
    exact absurd word (by decide)
  constructor
  · intro read
    unfold ofBody? at read
    split at read
    · obtain ⟨asks, whole, key, follows⟩ := readKeyed?_eq_some_iff.mp read
      exact ⟨by simp [Placeholder.body, asks, ← whole], key, follows⟩
    · obtain ⟨asks, whole, key, follows⟩ := readKeyed?_eq_some_iff.mp read
      exact ⟨by simp [Placeholder.body, asks, ← whole], key, follows⟩
  · rintro ⟨rfl, key, follows⟩
    cases asks : placeholder.asksKey with
    | true =>
        have signed : placeholder.body = '#' :: (placeholder.key.toList ++ placeholder.suffix.toList) := by
          simp [Placeholder.body, asks]
        rw [signed, ofBody?]
        exact readKeyed?_eq_some_iff.mpr ⟨asks, rfl, key, follows⟩
    | false =>
        have plain : placeholder.body = placeholder.key.toList ++ placeholder.suffix.toList := by
          simp [Placeholder.body, asks]
        rw [plain, ofBody?]
        · exact readKeyed?_eq_some_iff.mpr ⟨asks, rfl, key, follows⟩
        · exact unsigned key

/-- Four modifiers are no chain, and the first one cannot be a separator. -/
example : ofBody? "A :a:b:c:d".toList = none := by
  decide

end Placeholder

end WordTemplate
