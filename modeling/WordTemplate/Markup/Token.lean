import WordTemplate.Markup.Tree

/-!
Tokens of a markup text: tags, character data and references, and whatever else stands between
brackets. Reading a token consumes at least one character; a text that breaks off inside a token, or
holds none where one has to begin, is malformed from there on.
-/

namespace WordTemplate.Markup

inductive Token
  | opening (tag : String) (attributes : List Attribute)
  /-- A start tag that closes its element itself. -/
  | empty (tag : String) (attributes : List Attribute)
  | closing (tag : String)
  | text (content : List Char)
  | reference (name : List Char)
  | declaration
  /-- Comments, processing instructions and document types. -/
  | ignored
deriving DecidableEq, Repr

namespace Token

/-- Blanks inside markup: space, tab, carriage return and line feed. -/
def isSpace (c : Char) : Bool :=
  c = ' ' || c = '\t' || c = '\r' || c = '\n'

def isQuote (c : Char) : Bool :=
  c = '"' || c = '\''

/-- Cuts a text at the first occurrence of a pattern, which is dropped. -/
def cutAt (pattern : List Char) : List Char → Option (List Char × List Char)
  | [] => none
  | c :: rest =>
    if pattern.isPrefixOf (c :: rest) then some ([], (c :: rest).drop pattern.length)
    else (cutAt pattern rest).map fun (before, after) => (c :: before, after)

/-- Cuts a tag at its closing bracket; one inside quotes does not close it. -/
def cutTag (quote : Option Char) : List Char → Option (List Char × List Char)
  | [] => none
  | c :: rest =>
    let onward (quote : Option Char) : Option (List Char × List Char) :=
      (cutTag quote rest).map fun (before, after) => (c :: before, after)
    match quote with
    | some mark => onward (if c = mark then none else some mark)
    | none =>
      if c = '>' then some ([], rest)
      else onward (if isQuote c then some c else none)

inductive TypeState
  /-- Before the internal subset, maybe inside a quoted name. -/
  | before (quote : Option Char)
  /-- In the internal subset, between declarations. -/
  | subset
  /-- Inside a declaration that holds quoted values, maybe inside one of them. -/
  | declaration (quote : Option Char)
  /-- Inside any other markup of the subset. -/
  | markup
  /-- Inside a comment, with characters left that cannot end it. -/
  | comment (lead : Nat)
  /-- Inside an instruction, with characters left that cannot end it. -/
  | instruction (lead : Nat)
  | after
deriving DecidableEq, Repr

/-- How the declarations begin that hold quoted values. -/
def quotingDeclarations : List String :=
  ["!ATTLIST", "!ENTITY", "!NOTATION"]

/-- The state behind the opening bracket of markup in the internal subset. -/
def TypeState.ofMarkup (source : List Char) : TypeState :=
  if "!--".toList.isPrefixOf source then comment 3
  else if ['?'].isPrefixOf source then instruction 1
  else if quotingDeclarations.any fun word => word.toList.isPrefixOf source then declaration none
  else markup

def cutType : TypeState → List Char → Option (List Char × List Char)
  | _, [] => none
  | state, c :: rest =>
    let onward (state : TypeState) : Option (List Char × List Char) :=
      (cutType state rest).map fun (before, after) => (c :: before, after)
    let toggle (quote : Option Char) : Option Char :=
      match quote with
      | some mark => if c = mark then none else some mark
      | none => if isQuote c then some c else none
    match state with
    | .before none =>
      if c = '>' then some ([], rest)
      else if c = '[' then onward .subset
      else onward (.before (toggle none))
    | .before quote => onward (.before (toggle quote))
    | .subset =>
      if c = ']' then onward .after
      else if c = '<' then onward (.ofMarkup rest)
      else onward .subset
    | .declaration none =>
      if c = '>' then onward .subset else onward (.declaration (toggle none))
    | .declaration quote => onward (.declaration (toggle quote))
    | .markup => onward (if c = '>' then .subset else .markup)
    | .comment (lead + 1) => onward (.comment lead)
    | .comment 0 => onward (if ['-', '-', '>'].isPrefixOf (c :: rest) then .markup else .comment 0)
    | .instruction (lead + 1) => onward (.instruction lead)
    | .instruction 0 =>
      onward (if ['?', '>'].isPrefixOf (c :: rest) then .markup else .instruction 0)
    | .after => if c = '>' then some ([], rest) else onward .after

/-- A word of letters is met in either case. -/
def startsWithWord (word text : List Char) : Bool :=
  word.isPrefixOf ((text.take word.length).map Char.toUpper)

/-- Reads the attributes of a tag from left to right; what is malformed drops an attribute only. -/
def readAttributes (seen : List String) : Nat → List Char → List Attribute
  | 0, _ => []
  | fuel + 1, source =>
    match source.dropWhile isSpace with
    | [] => []
    | first :: rest =>
      let endsKey (c : Char) : Bool := c = '=' || isSpace c
      let key := String.ofList (first :: rest.takeWhile fun c => !endsKey c)
      match (rest.dropWhile fun c => !endsKey c).dropWhile isSpace with
      | '=' :: after =>
        if seen.contains key then
          -- Of attributes with one key the first stays.
          readAttributes seen fuel (('=' :: after).dropWhile fun c => !isSpace c)
        else
          match after.dropWhile isSpace with
          | [] => []
          | mark :: value =>
            if isQuote mark then
              match cutAt [mark] value with
              | some (value, after) =>
                ⟨key, String.ofList (attributeValue value)⟩ ::
                  readAttributes (key :: seen) fuel after
              -- A value that does not end, ends the list.
              | none => []
            else
              -- A value without quotes is dropped, but its key counts as seen.
              readAttributes (key :: seen) fuel ((mark :: value).dropWhile fun c => !isSpace c)
      -- A key without value is dropped.
      | after => readAttributes seen fuel after

/-- The tag and the attributes between the brackets of a start tag. -/
def readStart (content : List Char) : String × List Attribute :=
  let attributes := content.dropWhile fun c => !isSpace c
  (String.ofList (content.takeWhile fun c => !isSpace c),
    readAttributes [] (attributes.length + 1) attributes)

def dropSpaceEnd (text : List Char) : List Char :=
  (text.reverse.dropWhile isSpace).reverse

/-- What stands between the brackets of a start tag; a slash at its end closes the element. -/
def ofStart (content : List Char) : Token :=
  match content.getLast? with
  | some '/' =>
    let (tag, attributes) := readStart content.dropLast
    empty tag attributes
  | _ =>
    let (tag, attributes) := readStart content
    opening tag attributes

/-- An instruction for `xml` itself is a declaration. -/
def ofInstruction : List Char → Token
  | 'x' :: 'm' :: 'l' :: rest =>
    match rest with
    | [] => declaration
    | c :: _ => if isSpace c then declaration else ignored
  | _ => ignored

def readBracket? : List Char → Option (Token × List Char)
  | '/' :: rest => do
    let (tag, after) ← cutTag none rest
    return (closing (String.ofList (dropSpaceEnd tag)), after)
  | '?' :: rest =>
    if ['>'].isPrefixOf rest then none
    else do
      let (content, after) ← cutAt ['?', '>'] rest
      return (ofInstruction content, after)
  | '!' :: rest =>
    if "--".toList.isPrefixOf rest then do
      let (_, after) ← cutAt "-->".toList (rest.drop 2)
      return (ignored, after)
    else if "[CDATA[".toList.isPrefixOf rest then do
      let (content, after) ← cutAt "]]>".toList (rest.drop 7)
      return (text content, after)
    else if startsWithWord "DOCTYPE".toList rest then do
      let (content, after) ← cutType (.before none) (rest.drop 7)
      if content.all isSpace then none else return (ignored, after)
    else none
  | rest => do
    let (content, after) ← cutTag none rest
    return (ofStart content, after)

/-- Reads what follows an ampersand: a name up to a semicolon, without brackets and ampersands. -/
def readReference? (source : List Char) : Option (Token × List Char) := do
  let (name, after) ← cutReference? source
  if name.contains '<' then none else return (reference name, after)

def isData (c : Char) : Bool :=
  c != '<' && c != '&'

/-- Reads the token a text begins with; none if the text is empty or malformed there. -/
def next? : List Char → Option (Token × List Char)
  | [] => none
  | c :: rest =>
    if c = '<' then readBracket? rest
    else if c = '&' then readReference? rest
    else some (text (c :: rest.takeWhile isData), rest.dropWhile isData)

theorem length_of_cutAt {pattern source before after : List Char}
    (cut : cutAt pattern source = some (before, after)) : after.length ≤ source.length := by
  induction source generalizing before with
  | nil => simp [cutAt] at cut
  | cons c rest ih =>
    simp only [cutAt] at cut
    split at cut
    · simp only [Option.some.injEq, Prod.mk.injEq] at cut
      rw [← cut.2]
      simp only [List.length_drop]
      omega
    · obtain ⟨⟨inner, rest'⟩, found, same⟩ := Option.map_eq_some_iff.1 cut
      simp only [Prod.mk.injEq] at same
      obtain ⟨_, rfl⟩ := same
      have shorter := ih found
      simp only [List.length_cons]
      omega

theorem length_of_cutTag {quote : Option Char} {source before after : List Char}
    (cut : cutTag quote source = some (before, after)) : after.length ≤ source.length := by
  induction source generalizing quote before with
  | nil => simp [cutTag] at cut
  | cons c rest ih =>
    have onward : ∀ {quote : Option Char} {before : List Char},
        ((cutTag quote rest).map fun (before, after) => (c :: before, after)) =
          some (before, after) → after.length ≤ (c :: rest).length := by
      intro quote before mapped
      obtain ⟨⟨inner, rest'⟩, found, same⟩ := Option.map_eq_some_iff.1 mapped
      simp only [Prod.mk.injEq] at same
      obtain ⟨_, rfl⟩ := same
      have shorter := ih found
      simp only [List.length_cons]
      omega
    cases quote with
    | some mark => exact onward cut
    | none =>
      simp only [cutTag] at cut
      split at cut
      · simp only [Option.some.injEq, Prod.mk.injEq] at cut
        simp [← cut.2]
      · exact onward cut

theorem length_of_cutType {state : TypeState} {source before after : List Char}
    (cut : cutType state source = some (before, after)) : after.length ≤ source.length := by
  induction source generalizing state before with
  | nil => simp [cutType] at cut
  | cons c rest ih =>
    have onward : ∀ {state : TypeState} {before : List Char},
        ((cutType state rest).map fun (before, after) => (c :: before, after)) =
          some (before, after) → after.length ≤ (c :: rest).length := by
      intro state before mapped
      obtain ⟨⟨inner, rest'⟩, found, same⟩ := Option.map_eq_some_iff.1 mapped
      simp only [Prod.mk.injEq] at same
      obtain ⟨_, rfl⟩ := same
      have shorter := ih found
      simp only [List.length_cons]
      omega
    have done : ∀ {before : List Char},
        some (([] : List Char), rest) = some (before, after) →
          after.length ≤ (c :: rest).length := by
      intro before same
      simp only [Option.some.injEq, Prod.mk.injEq] at same
      simp [← same.2]
    simp only [cutType] at cut
    repeat' split at cut
    all_goals first | exact onward cut | exact done cut

/-- The ways to read what follows an opening bracket. -/
inductive ReadsBracket : List Char → Token → List Char → Prop
  | closing {rest tag after : List Char} (cut : cutTag none rest = some (tag, after)) :
      ReadsBracket ('/' :: rest) (closing (String.ofList (dropSpaceEnd tag))) after
  | instruction {rest content after : List Char}
      (cut : cutAt ['?', '>'] rest = some (content, after)) :
      ReadsBracket ('?' :: rest) (ofInstruction content) after
  | comment {rest content after : List Char}
      (cut : cutAt "-->".toList (rest.drop 2) = some (content, after)) :
      ReadsBracket ('!' :: rest) ignored after
  | data {rest content after : List Char}
      (cut : cutAt "]]>".toList (rest.drop 7) = some (content, after)) :
      ReadsBracket ('!' :: rest) (text content) after
  | documentType {rest content after : List Char}
      (cut : cutType (.before none) (rest.drop 7) = some (content, after)) :
      ReadsBracket ('!' :: rest) ignored after
  | start {source content after : List Char}
      (head : ∀ c ∈ source.head?, c ≠ '/' ∧ c ≠ '!' ∧ c ≠ '?')
      (cut : cutTag none source = some (content, after)) :
      ReadsBracket source (ofStart content) after

theorem reads_of_readBracket? {source after : List Char} {token : Token}
    (read : readBracket? source = some (token, after)) : ReadsBracket source token after := by
  unfold readBracket? at read
  split at read
  · obtain ⟨⟨tag, behind⟩, cut, same⟩ := Option.bind_eq_some_iff.1 read
    cases same
    exact .closing cut
  · split at read
    · simp at read
    · obtain ⟨⟨content, behind⟩, cut, same⟩ := Option.bind_eq_some_iff.1 read
      cases same
      exact .instruction cut
  · split at read
    · obtain ⟨⟨content, behind⟩, cut, same⟩ := Option.bind_eq_some_iff.1 read
      cases same
      exact .comment cut
    · split at read
      · obtain ⟨⟨content, behind⟩, cut, same⟩ := Option.bind_eq_some_iff.1 read
        cases same
        exact .data cut
      · split at read
        · obtain ⟨⟨content, behind⟩, cut, same⟩ := Option.bind_eq_some_iff.1 read
          simp only at same
          split at same
          · simp at same
          · cases same
            exact .documentType cut
        · simp at read
  · rename_i slash question exclamation
    obtain ⟨⟨content, behind⟩, cut, same⟩ := Option.bind_eq_some_iff.1 read
    cases same
    refine .start (fun c first => ?_) cut
    obtain ⟨rest, rfl⟩ := List.head?_eq_some_iff.1 first
    refine ⟨?_, ?_, ?_⟩
    · rintro rfl
      exact slash rest rfl
    · rintro rfl
      exact exclamation rest rfl
    · rintro rfl
      exact question rest rfl

theorem length_of_readBracket? {source after : List Char} {token : Token}
    (read : readBracket? source = some (token, after)) : after.length ≤ source.length := by
  have dropped : ∀ {rest : List Char} {count : Nat}, after.length ≤ (rest.drop count).length →
      after.length ≤ ('!' :: rest).length := by
    intro rest count shorter
    simp only [List.length_drop, List.length_cons] at shorter ⊢
    omega
  cases reads_of_readBracket? read with
  | closing cut => exact Nat.le_succ_of_le (length_of_cutTag cut)
  | instruction cut => exact Nat.le_succ_of_le (length_of_cutAt cut)
  | comment cut => exact dropped (length_of_cutAt cut)
  | data cut => exact dropped (length_of_cutAt cut)
  | documentType cut => exact dropped (length_of_cutType cut)
  | start _ cut => exact length_of_cutTag cut

theorem length_of_next? {source after : List Char} {token : Token}
    (read : next? source = some (token, after)) : after.length < source.length := by
  unfold next? at read
  split at read
  · simp at read
  · rename_i c rest
    split at read
    · have := length_of_readBracket? read
      simp only [List.length_cons]
      omega
    · split at read
      · obtain ⟨⟨name, after'⟩, cut, same⟩ := Option.bind_eq_some_iff.1 read
        simp only at same
        split at same
        · simp at same
        · simp only [pure, Option.some.injEq, Prod.mk.injEq] at same
          obtain ⟨_, rfl⟩ := same
          have := length_of_cutReference? cut
          simp only [List.length_cons]
          omega
      · simp only [Option.some.injEq, Prod.mk.injEq] at read
        obtain ⟨_, rfl⟩ := read
        have := (List.dropWhile_suffix isData (l := rest)).length_le
        simp only [List.length_cons]
        omega

/-- The tokens of a text up to its end or to where it is malformed, and whether the end was met. -/
def scan (source : List Char) : List Token × Bool :=
  match _read : next? source with
  | some (token, after) =>
    let (tokens, whole) := scan after
    (token :: tokens, whole)
  | none => ([], source.isEmpty)
termination_by source.length
decreasing_by exact length_of_next? _read

end Token

end WordTemplate.Markup
