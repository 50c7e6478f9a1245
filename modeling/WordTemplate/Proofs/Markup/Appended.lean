import WordTemplate.Proofs.Markup.RoundTrip

/-! Markup to which more text is appended. A token that was read is read again, with the new text behind
the old; only character data at the end of the text may go on in it. So nothing that follows the end of
the root changes the root. -/

namespace WordTemplate.Markup

theorem cutReference?_behind {source name after : List Char}
    (cut : cutReference? source = some (name, after)) (more : List Char) :
    cutReference? (source ++ more) = some (name, after ++ more) := by
  induction source generalizing name with
  | nil => simp [cutReference?] at cut
  | cons c rest ih =>
      unfold cutReference? at cut
      split at cut
      · simp at cut
      · rename_i equal
        cases equal
        cases cut
        rfl
      · simp at cut
      · rename_i first others semicolon ampersand equal
        cases equal
        obtain ⟨inner, found, rfl⟩ := Token.map_cons_eq_some.mp cut
        rw [List.cons_append, cutReference?, ih found]
        · rfl
        · exact semicolon
        · exact ampersand

namespace Token

/-! A word that the text begins with, or does not -/

theorem isPrefixOf_behind_of_le {word source : List Char} (fits : word.length ≤ source.length)
    (more : List Char) : word.isPrefixOf (source ++ more) = word.isPrefixOf source := by
  rw [Bool.eq_iff_iff, List.isPrefixOf_iff_prefix, List.isPrefixOf_iff_prefix]
  constructor
  · intro begins
    exact List.prefix_of_prefix_length_le begins (List.prefix_append source more) fits
  · intro begins
    exact begins.trans (List.prefix_append source more)

/-- A word that can hold a bracket only as its last character is told by a text with a bracket in it. -/
theorem isPrefixOf_behind (word : List Char) {source : List Char} (bracket : '>' ∈ source)
    (inner : '>' ∉ word.dropLast) (more : List Char) :
    word.isPrefixOf (source ++ more) = word.isPrefixOf source := by
  rcases Nat.lt_or_ge source.length word.length with short | fits
  · have none : ∀ {text : List Char}, source <+: text → word.isPrefixOf text = false := by
      intro text start
      rw [Bool.eq_false_iff, ne_eq, List.isPrefixOf_iff_prefix]
      intro begins
      have inside : source <+: word.dropLast :=
        List.prefix_of_prefix_length_le (List.prefix_of_prefix_length_le start begins (by omega))
          (List.dropLast_prefix word) (by rw [List.length_dropLast]; omega)
      exact inner (inside.subset bracket)
    rw [none (List.prefix_append source more), none (List.prefix_refl source)]
  · exact isPrefixOf_behind_of_le fits more

theorem length_le_of_startsWithWord {word text : List Char} (starts : startsWithWord word text = true) :
    word.length ≤ text.length := by
  rw [startsWithWord, List.isPrefixOf_iff_prefix] at starts
  have bound := starts.length_le
  rw [List.length_map, List.length_take] at bound
  omega

theorem startsWithWord_behind {word text : List Char} (bracket : '>' ∈ text)
    (inner : '>' ∉ word.dropLast) (more : List Char) :
    startsWithWord word (text ++ more) = startsWithWord word text := by
  rw [startsWithWord, startsWithWord, List.take_append]
  rcases Nat.lt_or_ge text.length word.length with short | fits
  · have whole : text.take word.length = text := List.take_of_length_le (by omega)
    have upper : '>' ∈ text.map Char.toUpper := List.mem_map.mpr ⟨'>', bracket, by decide⟩
    rw [whole, List.map_append, isPrefixOf_behind word upper inner]
  · have nothing : word.length - text.length = 0 := by omega
    rw [nothing, List.take_zero, List.append_nil]

/-! Cutting -/

theorem length_pattern_le_of_cutAt {pattern source before after : List Char}
    (cut : cutAt pattern source = some (before, after)) : pattern.length ≤ source.length := by
  induction source generalizing before with
  | nil => simp [cutAt] at cut
  | cons c rest ih =>
      simp only [cutAt] at cut
      split at cut
      · rename_i begins
        exact (List.isPrefixOf_iff_prefix.mp begins).length_le
      · obtain ⟨inner, found, rfl⟩ := map_cons_eq_some.mp cut
        have shorter := ih found
        rw [List.length_cons]
        omega

theorem cutAt_behind {pattern source before after : List Char}
    (cut : cutAt pattern source = some (before, after)) (more : List Char) :
    cutAt pattern (source ++ more) = some (before, after ++ more) := by
  induction source generalizing before with
  | nil => simp [cutAt] at cut
  | cons c rest ih =>
      have same := isPrefixOf_behind_of_le (length_pattern_le_of_cutAt cut) more
      simp only [cutAt] at cut
      rw [List.cons_append] at same
      rw [List.cons_append, cutAt, same]
      split at cut
      · rename_i begins
        have fits := (List.isPrefixOf_iff_prefix.mp begins).length_le
        cases cut
        rw [if_pos begins, ← List.cons_append, List.drop_append_of_le_length fits]
      · rename_i others
        obtain ⟨inner, found, rfl⟩ := map_cons_eq_some.mp cut
        rw [if_neg others, ih found]
        rfl

theorem mem_of_cutAt {pattern source before after : List Char} {mark : Char}
    (inside : mark ∈ pattern) (cut : cutAt pattern source = some (before, after)) : mark ∈ source := by
  induction source generalizing before with
  | nil => simp [cutAt] at cut
  | cons c rest ih =>
      simp only [cutAt] at cut
      split at cut
      · rename_i begins
        exact (List.isPrefixOf_iff_prefix.mp begins).subset inside
      · obtain ⟨inner, found, rfl⟩ := map_cons_eq_some.mp cut
        exact List.mem_cons_of_mem c (ih found)

theorem cutTag_behind {quote : Option Char} {source before after : List Char}
    (cut : cutTag quote source = some (before, after)) (more : List Char) :
    cutTag quote (source ++ more) = some (before, after ++ more) := by
  induction source generalizing quote before with
  | nil => simp [cutTag] at cut
  | cons c rest ih =>
      have onward : ∀ {quote : Option Char} {before : List Char},
          ((cutTag quote rest).map fun parts => (c :: parts.1, parts.2)) = some (before, after) →
            ((cutTag quote (rest ++ more)).map fun parts => (c :: parts.1, parts.2)) =
              some (before, after ++ more) := by
        intro quote before mapped
        obtain ⟨inner, found, rfl⟩ := map_cons_eq_some.mp mapped
        rw [ih found]
        rfl
      cases quote with
      | some mark => exact onward cut
      | none =>
          simp only [List.cons_append, cutTag] at cut ⊢
          split at cut
          · rename_i ends
            cases cut
            rw [if_pos ends]
          · rename_i inside
            rw [if_neg inside]
            exact onward cut

theorem bracket_mem_of_cutType {state : TypeState} {source before after : List Char}
    (cut : cutType state source = some (before, after)) : '>' ∈ source := by
  induction source generalizing state before with
  | nil => simp [cutType] at cut
  | cons c rest ih =>
      have onward : ∀ {state : TypeState} {before : List Char},
          ((cutType state rest).map fun parts => (c :: parts.1, parts.2)) = some (before, after) →
            '>' ∈ c :: rest := by
        intro state before mapped
        obtain ⟨inner, found, rfl⟩ := map_cons_eq_some.mp mapped
        exact List.mem_cons_of_mem c (ih found)
      simp only [cutType] at cut
      repeat' split at cut
      all_goals first | exact onward cut | simp_all

theorem ofMarkup_behind {source : List Char} (bracket : '>' ∈ source) (more : List Char) :
    TypeState.ofMarkup (source ++ more) = TypeState.ofMarkup source := by
  have comment := isPrefixOf_behind "!--".toList bracket (by decide) more
  have instruction := isPrefixOf_behind ['?'] bracket (by decide) more
  have declarations : (quotingDeclarations.any fun word => word.toList.isPrefixOf (source ++ more)) =
      quotingDeclarations.any fun word => word.toList.isPrefixOf source := by
    have plain : ∀ word ∈ quotingDeclarations, '>' ∉ word.toList.dropLast := by decide
    rw [Bool.eq_iff_iff, List.any_eq_true, List.any_eq_true]
    exact exists_congr fun word => and_congr_right fun listed => by
      rw [isPrefixOf_behind _ bracket (plain word listed) more]
  rw [TypeState.ofMarkup, TypeState.ofMarkup, comment, instruction, declarations]

theorem cutType_behind {state : TypeState} {source before after : List Char}
    (cut : cutType state source = some (before, after)) (more : List Char) :
    cutType state (source ++ more) = some (before, after ++ more) := by
  induction source generalizing state before with
  | nil => simp [cutType] at cut
  | cons c rest ih =>
      have onward : ∀ {state : TypeState},
          ((cutType state rest).map fun parts => (c :: parts.1, parts.2)) = some (before, after) →
            ((cutType state (rest ++ more)).map fun parts => (c :: parts.1, parts.2)) =
              some (before, after ++ more) := by
        intro state mapped
        obtain ⟨inner, found, rfl⟩ := map_cons_eq_some.mp mapped
        rw [ih found]
        rfl
      have markup :
          ((cutType (.ofMarkup rest) rest).map fun parts => (c :: parts.1, parts.2)) =
              some (before, after) →
            ((cutType (.ofMarkup (rest ++ more)) (rest ++ more)).map fun parts =>
              (c :: parts.1, parts.2)) = some (before, after ++ more) := by
        intro mapped
        obtain ⟨inner, found, _⟩ := map_cons_eq_some.mp mapped
        rw [ofMarkup_behind (bracket_mem_of_cutType found)]
        exact onward mapped
      have done : some (([] : List Char), rest) = some (before, after) →
          some (([] : List Char), rest ++ more) = some (before, after ++ more) := by
        intro same
        cases same
        rfl
      -- Both sides ask the same questions about the next character.
      have branch : ∀ {asked : Prop} [Decidable asked] {first second third fourth : Option _},
          (first = some (before, after) → third = some (before, after ++ more)) →
            (second = some (before, after) → fourth = some (before, after ++ more)) →
              (if asked then first else second) = some (before, after) →
                (if asked then third else fourth) = some (before, after ++ more) := by
        intro asked _ first second third fourth met missed found
        split at found
        · rename_i holds
          rw [if_pos holds]
          exact met found
        · rename_i fails
          rw [if_neg fails]
          exact missed found
      have bracket := bracket_mem_of_cutType cut
      have comment := isPrefixOf_behind ['-', '-', '>'] bracket (by decide) more
      have instruction := isPrefixOf_behind ['?', '>'] bracket (by decide) more
      rw [List.cons_append] at comment instruction
      rcases state with (_ | mark) | _ | (_ | mark) | _ | (_ | lead) | (_ | lead) | _
      all_goals simp only [List.cons_append, cutType, comment, instruction] at cut ⊢
      case before.none => exact branch done (branch onward onward) cut
      case subset => exact branch onward (branch markup onward) cut
      case declaration.none => exact branch onward onward cut
      case after => exact branch done onward cut
      all_goals exact onward cut

/-! Tokens -/

/-- What follows an exclamation mark is told by the words it begins with. -/
theorem readBracket?_behind_exclamation {rest after : List Char} {token : Token}
    (read : readBracket? ('!' :: rest) = some (token, after)) (more : List Char) :
    readBracket? ('!' :: (rest ++ more)) = some (token, after ++ more) := by
  have words : '>' ∈ rest → ("--".toList.isPrefixOf (rest ++ more) = "--".toList.isPrefixOf rest ∧
      "[CDATA[".toList.isPrefixOf (rest ++ more) = "[CDATA[".toList.isPrefixOf rest ∧
      startsWithWord "DOCTYPE".toList (rest ++ more) = startsWithWord "DOCTYPE".toList rest) :=
    fun bracket => ⟨isPrefixOf_behind _ bracket (by decide) more,
      isPrefixOf_behind _ bracket (by decide) more, startsWithWord_behind bracket (by decide) more⟩
  have inside : ∀ {count : Nat}, '>' ∈ rest.drop count → '>' ∈ rest := fun {count} member =>
    (List.drop_suffix count rest).subset member
  simp only [readBracket?] at read ⊢
  split at read
  · rename_i comment
    obtain ⟨⟨content, behind⟩, cut, same⟩ := Option.bind_eq_some_iff.mp read
    cases same
    have fits : 2 ≤ rest.length := (List.isPrefixOf_iff_prefix.mp comment).length_le
    have bracket := inside (mem_of_cutAt (by decide) cut)
    rw [(words bracket).1, if_pos comment, List.drop_append_of_le_length fits, cutAt_behind cut]
    rfl
  · rename_i noComment
    split at read
    · rename_i data
      obtain ⟨⟨content, behind⟩, cut, same⟩ := Option.bind_eq_some_iff.mp read
      cases same
      have fits : 7 ≤ rest.length := (List.isPrefixOf_iff_prefix.mp data).length_le
      have bracket := inside (mem_of_cutAt (by decide) cut)
      rw [(words bracket).1, (words bracket).2.1, if_neg noComment, if_pos data,
        List.drop_append_of_le_length fits, cutAt_behind cut]
      rfl
    · rename_i noData
      split at read
      · rename_i type
        obtain ⟨⟨content, behind⟩, cut, same⟩ := Option.bind_eq_some_iff.mp read
        have fits : 7 ≤ rest.length := length_le_of_startsWithWord type
        have bracket := inside (bracket_mem_of_cutType cut)
        simp only at same
        split at same
        · simp at same
        · rename_i named
          cases same
          rw [(words bracket).1, (words bracket).2.1, (words bracket).2.2, if_neg noComment,
            if_neg noData, if_pos type, List.drop_append_of_le_length fits, cutType_behind cut]
          simp only [Option.bind_eq_bind, Option.bind_some, if_neg named]
          rfl
      · simp at read

theorem readBracket?_behind {source after : List Char} {token : Token}
    (read : readBracket? source = some (token, after)) (more : List Char) :
    readBracket? (source ++ more) = some (token, after ++ more) := by
  unfold readBracket? at read
  split at read
  · obtain ⟨⟨tag, behind⟩, cut, same⟩ := Option.bind_eq_some_iff.mp read
    cases same
    rw [List.cons_append, readBracket?, cutTag_behind cut]
    rfl
  · rename_i rest
    split at read
    · simp at read
    · rename_i noEnd
      obtain ⟨⟨content, behind⟩, cut, same⟩ := Option.bind_eq_some_iff.mp read
      cases same
      have closes := isPrefixOf_behind ['>'] (mem_of_cutAt (by decide) cut) (by decide) more
      rw [List.cons_append, readBracket?, closes, if_neg noEnd, cutAt_behind cut]
      rfl
  · rename_i rest
    exact readBracket?_behind_exclamation (by rw [readBracket?]; exact read) more
  · rename_i slash question exclamation
    obtain ⟨⟨content, behind⟩, cut, same⟩ := Option.bind_eq_some_iff.mp read
    cases same
    cases source with
    | nil => simp [cutTag] at cut
    | cons c rest =>
        have cut := cutTag_behind cut more
        rw [List.cons_append] at cut ⊢
        have head : ∀ {mark : Char}, (∀ others, c :: rest ≠ mark :: others) →
            ∀ others, c :: (rest ++ more) ≠ mark :: others := by
          intro mark apart others same
          exact apart rest (by rw [(List.cons.inj same).1])
        rw [readBracket?, cut]
        · rfl
        · exact head slash
        · exact head question
        · exact head exclamation

theorem readReference?_behind {source after : List Char} {token : Token}
    (read : readReference? source = some (token, after)) (more : List Char) :
    readReference? (source ++ more) = some (token, after ++ more) := by
  obtain ⟨⟨name, behind⟩, cut, same⟩ := Option.bind_eq_some_iff.mp read
  simp only at same
  split at same
  · simp at same
  · rename_i proper
    cases same
    rw [readReference?, cutReference?_behind cut]
    simp only [Option.bind_eq_bind, Option.bind_some, if_neg proper]
    rfl

theorem next?_behind {source after : List Char} {token : Token}
    (read : next? source = some (token, after))
    (ends : ∀ content, token = .text content → after ≠ []) (more : List Char) :
    next? (source ++ more) = some (token, after ++ more) := by
  cases source with
  | nil => simp [next?] at read
  | cons c rest =>
      rw [List.cons_append]
      simp only [next?] at read ⊢
      split at read
      · rename_i bracket
        rw [if_pos bracket]
        exact readBracket?_behind read more
      · rename_i noBracket
        rw [if_neg noBracket]
        split at read
        · rename_i ampersand
          rw [if_pos ampersand]
          exact readReference?_behind read more
        · rename_i noReference
          rw [if_neg noReference]
          cases read
          have stops := ends _ rfl
          have stopped : (rest.takeWhile isData).length ≠ rest.length := by
            intro whole
            have parts := congrArg List.length (List.takeWhile_append_dropWhile (p := isData) (l := rest))
            rw [List.length_append, whole] at parts
            exact stops (List.length_eq_zero_iff.mp (by omega))
          rw [List.takeWhile_append, if_neg stopped, List.dropWhile_append,
            if_neg (by simpa using stops)]

end Token

namespace Stage

theorem step?_afterRoot {root : Tree} {stray : List String} {token : Token} {next : Stage}
    (step : (afterRoot root stray).step? token = some next) : ∃ others, next = afterRoot root others := by
  cases token with
  | closing tag =>
      cases closes_of_closeElement? step with
      | stray root name rest => exact ⟨rest, rfl⟩
  | opening tag attributes =>
      cases step
      exact ⟨tag :: stray, rfl⟩
  | empty | text | reference | declaration | ignored =>
      cases step
      exact ⟨stray, rfl⟩

theorem run_afterRoot (root : Tree) (stray : List String) (tokens : List Token) :
    ∃ others, ((afterRoot root stray).run tokens).1 = afterRoot root others := by
  induction tokens generalizing stray with
  | nil => exact ⟨stray, rfl⟩
  | cons token rest ih =>
      rw [run]
      split
      · rename_i next step
        obtain ⟨others, rfl⟩ := step?_afterRoot step
        exact ih others
      · exact ⟨stray, rfl⟩

theorem outcome_stopped (stage : Stage) (source : List Char)
    (stopped : ∀ token after, Token.next? source = some (token, after) → stage.step? token = none) :
    stage.outcome source = (stage, false) := by
  rw [outcome, Token.scan]
  split
  · rename_i token after read
    simp [run, taken, stopped token after read]
  · rfl

/-- The root that a text ends is the root of every longer text. -/
theorem outcome_behind_root {stage : Stage} {source : List Char} {root : Tree} {stray : List String}
    (ended : (stage.outcome source).1 = afterRoot root stray) (more : List Char) :
    ∃ others, (stage.outcome (source ++ more)).1 = afterRoot root others := by
  induction size : source.length using Nat.strongRecOn generalizing stage source with
  | ind length ih =>
      by_cases closed : ∃ root stray, stage = afterRoot root stray
      · obtain ⟨earlier, names, rfl⟩ := closed
        obtain ⟨others, same⟩ := run_afterRoot earlier names (Token.scan source).1
        cases same.symm.trans ended
        exact run_afterRoot root names (Token.scan (source ++ more)).1
      · rcases Option.eq_none_or_eq_some (Token.next? source) with none | ⟨⟨token, after⟩, read⟩
        · have same := outcome_stopped stage source (by simp [none])
          rw [same] at ended
          exact absurd ⟨root, stray, ended⟩ closed
        · rcases Option.eq_none_or_eq_some (stage.step? token) with none | ⟨next, step⟩
          · have same := outcome_stopped stage source (by simp [read, none])
            rw [same] at ended
            exact absurd ⟨root, stray, ended⟩ closed
          · have shorter := Token.length_of_next? read
            have later : (next.outcome after).1 = afterRoot root stray := by
              rw [outcome_step read step] at ended
              exact ended
            have ends : ∀ content, token = .text content → after ≠ [] := by
              rintro content rfl rfl
              cases step
              have done := outcome_stopped (stage.addText content) [] (by simp [Token.next?])
              rw [done] at later
              cases stage with
              | afterRoot earlier names => exact closed ⟨earlier, names, rfl⟩
              | beforeRoot => cases later
              | inside inner outer => cases later
            rw [outcome_step (Token.next?_behind read ends more) step]
            exact ih after.length (size ▸ shorter) later rfl

end Stage

end WordTemplate.Markup
