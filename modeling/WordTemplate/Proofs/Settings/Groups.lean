import Mathlib.Data.List.TakeWhile
import WordTemplate.Settings.Expansion

/-! Names in braces. By the rule of the settings only a group, which is a dollar sign and a name in braces,
stands for a value. A text is expanded by this rule in every environment exactly if it holds no opening of
a group at all, or every dollar sign outside of its groups stands before a character that no name has. -/

namespace WordTemplate.Settings

namespace Stretch

def nextGroup : Char → List Char → Stretch × List Char
  | '$', '{' :: rest =>
    match rest.dropWhile (· != '}') with
    | _ :: after => (ofBody (rest.takeWhile (· != '}')), after)
    | [] => (literal ['$', '{'], rest)
  | c, rest => (literal [c], rest)

theorem nextGroup_group {body : List Char} (inside : '}' ∉ body) (rest : List Char) :
    nextGroup '$' ('{' :: (body ++ '}' :: rest)) = (ofBody body, rest) := by
  have passed : ∀ c ∈ body, (c != '}') = true := by
    intro c member
    simpa using ne_of_mem_of_not_mem member inside
  simp [nextGroup, List.dropWhile_append_of_pos passed, List.takeWhile_append_of_pos passed]

theorem nextGroup_open {rest : List Char} (unclosed : '}' ∉ rest) :
    nextGroup '$' ('{' :: rest) = (literal ['$', '{'], rest) := by
  have none : rest.dropWhile (· != '}') = [] := by
    rw [List.dropWhile_eq_nil_iff]
    intro c member
    simpa using ne_of_mem_of_not_mem member unclosed
  simp [nextGroup, none]

theorem nextGroup_plain {c : Char} {rest : List Char} (plain : c = '$' → rest.head? ≠ some '{') :
    nextGroup c rest = (literal [c], rest) := by
  unfold nextGroup
  split
  · simp at plain
  · rfl

theorem group_cases (c : Char) (rest : List Char) :
    (∃ body after, c = '$' ∧ rest = '{' :: (body ++ '}' :: after) ∧ '}' ∉ body) ∨
      (∃ behind, c = '$' ∧ rest = '{' :: behind ∧ '}' ∉ behind) ∨
      (c = '$' → rest.head? ≠ some '{') := by
  by_cases opens : c = '$' ∧ rest.head? = some '{'
  · obtain ⟨rfl, first⟩ := opens
    obtain ⟨behind, rfl⟩ := List.head?_eq_some_iff.mp first
    by_cases closed : '}' ∈ behind
    · obtain ⟨body, after, rfl, inside⟩ := List.eq_append_cons_of_mem closed
      exact .inl ⟨body, after, rfl, rfl, inside⟩
    · exact .inr (.inl ⟨behind, rfl, rfl, closed⟩)
  · exact .inr (.inr (not_and.mp opens))

theorem length_nextGroup_le (c : Char) (rest : List Char) :
    (nextGroup c rest).2.length ≤ rest.length := by
  rcases group_cases c rest with ⟨body, after, rfl, rfl, inside⟩ | ⟨behind, rfl, rfl, unclosed⟩ | plain
  · rw [nextGroup_group inside]
    simp only [List.length_cons, List.length_append]
    omega
  · rw [nextGroup_open unclosed]
    simp
  · rw [nextGroup_plain plain]

/-- A text as its groups, and the characters outside of them. -/
def groups (text : List Char) : List Stretch :=
  match text with
  | [] => []
  | c :: rest => (nextGroup c rest).1 :: groups (nextGroup c rest).2
termination_by text.length
decreasing_by
  have := length_nextGroup_le c rest
  simp only [List.length_cons]
  omega

/-- Taken without a brace behind it: a dollar sign stands before another one or before a name. -/
def isBare (c : Char) (rest : List Char) : Bool :=
  c = '$' && rest.head?.any fun d => d = '$' || Text.isWordChar d

/-- Somewhere outside of the groups. -/
def hasBare (text : List Char) : Bool :=
  match text with
  | [] => false
  | c :: rest => isBare c rest || hasBare (nextGroup c rest).2
termination_by text.length
decreasing_by
  have := length_nextGroup_le c rest
  simp only [List.length_cons]
  omega

theorem isBare_iff {c : Char} {rest : List Char} :
    isBare c rest = true ↔
      c = '$' ∧ ∃ d behind, rest = d :: behind ∧ (d = '$' ∨ Text.isWordChar d = true) := by
  cases rest <;> simp [isBare]

/-- Where no dollar sign is bare, a text starts with the same stretch by both rules. -/
theorem next_eq_nextGroup {c : Char} {rest : List Char} (plain : isBare c rest = false) :
    next c rest = nextGroup c rest := by
  unfold next
  split
  · rfl
  · simp [isBare] at plain
  · rename_i other _
    have first : rest.head? ≠ some '{' := by
      intro opens
      obtain ⟨behind, rfl⟩ := List.head?_eq_some_iff.mp opens
      exact other behind rfl
    have noName : rest.takeWhile Text.isWordChar = [] := by
      cases rest with
      | nil => rfl
      | cons d behind =>
          simp only [isBare, List.head?_cons, Option.any_some, decide_true, Bool.true_and,
            Bool.or_eq_false_iff] at plain
          simp [plain.2]
    rw [nextGroup_plain fun _ => first]
    simp [noName]
  · rename_i other _ _
    rw [nextGroup_plain fun dollar => absurd dollar other]

theorem split_eq_groups {text : List Char} (plain : hasBare text = false) : split text = groups text := by
  induction text using groups.induct with
  | case1 => simp [split, groups]
  | case2 c rest ih =>
      rw [hasBare, Bool.or_eq_false_iff] at plain
      rw [split, groups, next_eq_nextGroup plain.1, ih plain.2]

theorem groups_of_no_opening {text : List Char} (none : Text.occursIn ['$', '{'] text = false) :
    groups text = text.map fun c => literal [c] := by
  induction text with
  | nil => simp [groups]
  | cons c rest ih =>
      rw [Text.occursIn, Bool.or_eq_false_iff] at none
      have first : c = '$' → rest.head? ≠ some '{' := by
        rintro rfl opens
        obtain ⟨behind, rfl⟩ := List.head?_eq_some_iff.mp opens
        simp at none
      rw [groups, nextGroup_plain first, ih none.2]
      rfl

/-! Telling the two rules apart: what becomes of a text when every variable has the value `x`. -/

/-- What a stretch stands for when every variable has this value. -/
def shown (value : List Char) : Stretch → List Char
  | literal text => text
  | reference _ _ => value

theorem mapM_value (value : String) (stretches : List Stretch) :
    stretches.mapM (Stretch.value fun _ => some value) =
      .ok (stretches.map (shown value.toList)) := by
  induction stretches with
  | nil => rfl
  | cons stretch rest ih =>
      have first : stretch.value (fun _ => some value) = .ok (stretch.shown value.toList) := by
        cases stretch <;> rfl
      rw [List.mapM_cons, first, ih]
      rfl

theorem shown_ofBody (value body : List Char) : (ofBody body).shown value = value := by
  unfold ofBody
  split <;> rfl

def loose (text : List Char) : List Char :=
  (split text).flatMap (shown ['x'])

def strict (text : List Char) : List Char :=
  (groups text).flatMap (shown ['x'])

@[simp]
theorem loose_nil : loose [] = [] := by
  simp [loose, split]

theorem loose_cons (c : Char) (rest : List Char) :
    loose (c :: rest) = (next c rest).1.shown ['x'] ++ loose (next c rest).2 := by
  rw [loose, split, List.flatMap_cons, loose]

theorem strict_cons (c : Char) (rest : List Char) :
    strict (c :: rest) = (nextGroup c rest).1.shown ['x'] ++ strict (nextGroup c rest).2 := by
  rw [strict, groups, List.flatMap_cons, strict]

theorem loose_dollars (rest : List Char) : loose ('$' :: '$' :: rest) = '$' :: loose rest :=
  loose_cons '$' ('$' :: rest)

theorem head?_loose_name {d : Char} (word : Text.isWordChar d = true) (behind : List Char) :
    (loose ('$' :: d :: behind)).head? = some 'x' := by
  have brace : d ≠ '{' := by
    rintro rfl
    exact absurd word (by decide)
  have dollar : d ≠ '$' := by
    rintro rfl
    exact absurd word (by decide)
  have taken : next '$' (d :: behind) =
      (reference ((d :: behind).takeWhile Text.isWordChar) none,
        (d :: behind).dropWhile Text.isWordChar) := by
    unfold next
    split
    · rename_i same
      exact absurd (List.cons.inj same).1 brace
    · rename_i same
      exact absurd (List.cons.inj same).1 dollar
    · simp [word]
    · rename_i other _ _
      exact absurd rfl other
  rw [loose_cons, taken]
  rfl

theorem strict_plain {c : Char} {rest : List Char} (plain : c = '$' → rest.head? ≠ some '{') :
    strict (c :: rest) = c :: strict rest := by
  rw [strict_cons, nextGroup_plain plain]
  rfl

theorem head?_strict_dollar (rest : List Char) :
    (strict ('$' :: rest)).head? = some '$' ∨
      rest.head? = some '{' ∧ (strict ('$' :: rest)).head? = some 'x' := by
  rcases group_cases '$' rest with ⟨body, after, -, rfl, inside⟩ | ⟨behind, -, rfl, unclosed⟩ | plain
  · right
    rw [strict_cons, nextGroup_group inside, shown_ofBody]
    exact ⟨rfl, rfl⟩
  · left
    rw [strict_cons, nextGroup_open unclosed]
    rfl
  · left
    rw [strict_plain plain]
    rfl

theorem head?_dollars_strict (count : Nat) (rest : List Char) :
    (List.replicate count '$' ++ strict ('$' :: rest)).head? = some '$' ∨
      rest.head? = some '{' ∧
        (List.replicate count '$' ++ strict ('$' :: rest)).head? = some 'x' := by
  cases count with
  | zero => simpa using head?_strict_dollar rest
  | succ count => simp [List.replicate_succ]

theorem loose_plain {c : Char} {rest : List Char} (plain : isBare c rest = false)
    (closed : c = '$' → rest.head? ≠ some '{') : loose (c :: rest) = c :: loose rest := by
  rw [loose_cons, next_eq_nextGroup plain, nextGroup_plain closed]
  rfl

/-- What is left behind a dollar sign that was taken together with the one before it falls short of what
it should be, however many of these signs there are. -/
theorem loose_ne_dollars_strict (count : Nat) (rest : List Char) :
    loose rest ≠ List.replicate count '$' ++ strict ('$' :: rest) := by
  induction size : rest.length using Nat.strongRecOn generalizing count rest with
  | ind length ih =>
      intro same
      have heads := head?_dollars_strict count rest
      rw [← same] at heads
      cases rest with
      | nil => simp at heads
      | cons c behind =>
          by_cases dollar : c = '$'
          · subst dollar
            have pulled : List.replicate count '$' ++ strict ('$' :: '$' :: behind) =
                '$' :: (List.replicate count '$' ++ strict ('$' :: behind)) := by
              rw [strict_plain (by simp), ← List.cons_append, ← List.replicate_succ,
                List.replicate_succ', List.append_assoc, List.singleton_append]
            rw [pulled] at same
            have shorter : behind.length < length := by
              rw [← size, List.length_cons]
              exact Nat.lt_succ_self _
            cases bare : isBare '$' behind with
            | true =>
                obtain ⟨-, d, further, rfl, dollar | word⟩ := isBare_iff.mp bare
                · subst dollar
                  rw [loose_dollars, strict_plain (by simp), List.cons_inj_right,
                    ← List.singleton_append, ← List.append_assoc, ← List.replicate_succ'] at same
                  exact ih further.length (by simp at shorter; omega) (count + 1) further rfl same
                · have first := head?_loose_name word further
                  rw [same] at first
                  simp at first
            | false =>
                rcases group_cases '$' behind with
                  ⟨body, after, -, rfl, inside⟩ | ⟨further, -, rfl, unclosed⟩ | closed
                · rw [loose_cons, next_eq_nextGroup bare, nextGroup_group inside, shown_ofBody] at same
                  simp at same
                · rw [loose_cons, next_eq_nextGroup bare, nextGroup_open unclosed] at same
                  have second := head?_dollars_strict count ('{' :: further)
                  rw [← (List.cons.inj same).2] at second
                  simp at second
                · rw [loose_plain bare closed, List.cons_inj_right] at same
                  exact ih behind.length shorter count behind rfl same
          · have bare : isBare c behind = false := by simp [isBare, dollar]
            rw [loose_plain bare fun equal => absurd equal dollar] at heads
            rcases heads with first | ⟨brace, first⟩
            · simp [dollar] at first
            · simp at brace first
              simp [brace] at first

/-- A dollar sign that is bare shows. -/
theorem loose_ne_strict {text : List Char} (bare : hasBare text = true) : loose text ≠ strict text := by
  induction text using hasBare.induct with
  | case1 => simp [hasBare] at bare
  | case2 c rest ih =>
      rw [hasBare, Bool.or_eq_true] at bare
      cases here : isBare c rest with
      | true =>
          obtain ⟨rfl, d, behind, rfl, rfl | word⟩ := isBare_iff.mp here
          · rw [loose_dollars, strict_plain (by simp), ne_eq, List.cons_inj_right]
            exact loose_ne_dollars_strict 0 behind
          · have other : d ≠ '{' := by
              rintro rfl
              exact absurd word (by decide)
            have first := head?_loose_name word behind
            rw [strict_plain (by simpa using other)]
            intro same
            rw [same] at first
            simp at first
      | false =>
          have later := ih (bare.resolve_left (by simp [here]))
          rw [loose_cons, strict_cons, next_eq_nextGroup here, ne_eq, List.append_cancel_left_eq]
          exact later

/-! Groups lose nothing of a text, and only groups without a value and a default make it fail. -/

/-- How a stretch is written. -/
def written : Stretch → List Char
  | literal text => text
  | reference name none => '$' :: '{' :: (name ++ ['}'])
  | reference name (some default) => '$' :: '{' :: (name ++ ':' :: '-' :: (default ++ ['}']))

theorem append_of_cutDefault {body name default : List Char}
    (cut : cutDefault body = some (name, default)) : body = name ++ ':' :: '-' :: default := by
  induction body using cutDefault.induct generalizing name with
  | case1 => simp [cutDefault] at cut
  | case2 rest =>
      simp only [cutDefault, Option.some.injEq, Prod.mk.injEq] at cut
      simp [← cut.1, ← cut.2]
  | case3 c rest other ih =>
      rw [cutDefault] at cut
      · obtain ⟨⟨before, after⟩, found, same⟩ := Option.map_eq_some_iff.mp cut
        simp only [Prod.mk.injEq] at same
        obtain ⟨rfl, rfl⟩ := same
        rw [ih found, List.cons_append]
      · exact other

theorem written_ofBody (body : List Char) :
    (ofBody body).written = '$' :: '{' :: (body ++ ['}']) := by
  unfold ofBody
  split
  · rename_i cut
    simp [written, append_of_cutDefault cut]
  · rfl

theorem written_groups (text : List Char) : (groups text).flatMap written = text := by
  induction text using groups.induct with
  | case1 => simp [groups]
  | case2 c rest ih =>
      rw [groups, List.flatMap_cons, ih]
      rcases group_cases c rest with
        ⟨body, after, rfl, rfl, inside⟩ | ⟨behind, rfl, rfl, unclosed⟩ | plain
      · rw [nextGroup_group inside, written_ofBody]
        simp
      · rw [nextGroup_open unclosed]
        rfl
      · rw [nextGroup_plain plain]
        rfl

theorem exists_of_mapM_error {lookUp : String → Option String} {stretches : List Stretch} {name : String}
    (failed : stretches.mapM (Stretch.value lookUp) = .error name) :
    ∃ stretch ∈ stretches, stretch.value lookUp = .error name := by
  induction stretches with
  | nil => simp [pure, Except.pure] at failed
  | cons stretch rest ih =>
      rw [List.mapM_cons] at failed
      cases first : stretch.value lookUp with
      | error other =>
          rw [first] at failed
          exact ⟨stretch, by simp, first.trans (by cases failed; rfl)⟩
      | ok text =>
          cases later : rest.mapM (Stretch.value lookUp) with
          | error other =>
              rw [first, later] at failed
              obtain ⟨found, member, fails⟩ := ih (later.trans (by cases failed; rfl))
              exact ⟨found, List.mem_cons_of_mem _ member, fails⟩
          | ok texts =>
              rw [first, later] at failed
              cases failed

theorem eq_of_value_error {lookUp : String → Option String} {stretch : Stretch} {name : String}
    (failed : stretch.value lookUp = .error name) :
    stretch = reference name.toList none ∧ lookUp name = none := by
  cases stretch with
  | literal text => simp [value] at failed
  | reference word default =>
      cases found : lookUp (String.ofList word) with
      | some set => simp [value, found] at failed
      | none =>
          cases default with
          | some instead => simp [value, found] at failed
          | none =>
              simp only [value, found, Except.error.injEq] at failed
              subst failed
              exact ⟨by rw [String.toList_ofList], found⟩

end Stretch

/-- Puts in the values of groups, and leaves all else as it is written. -/
def expandGroups (lookUp : String → Option String) (text : String) : Except String String := do
  let values ← (Stretch.groups text.toList).mapM (Stretch.value lookUp)
  return String.ofList values.flatten

theorem expand_of_no_opening {text : String} (none : Text.occursIn ['$', '{'] text.toList = false)
    (lookUp : String → Option String) : expand lookUp text = expandGroups lookUp text := by
  have kept : ∀ chars : List Char, (chars.map fun c => Stretch.literal [c]).mapM
      (Stretch.value lookUp) = .ok (chars.map fun c => [c]) := by
    intro chars
    induction chars with
    | nil => rfl
    | cons c rest ih =>
        rw [List.map_cons, List.mapM_cons, ih]
        rfl
  have whole : (text.toList.map fun c => [c]).flatten = text.toList := by
    rw [← List.flatMap_def, List.flatMap_singleton']
  rw [expand, expandGroups, stretches, none, Stretch.groups_of_no_opening none, kept]
  simp [Stretch.value, whole, bind, Except.bind, pure, Except.pure]

/-- A text consists of its groups and of what is written around them. The values of the groups, and
nothing else, are put in by every environment, exactly if there is no opening of a group in the text or no
bare dollar sign; and only a group that has no default fails, when its variable has no value. -/
theorem expand_eq_expandGroups_iff (text : String) :
    (Stretch.groups text.toList).flatMap Stretch.written = text.toList ∧
      ((∀ lookUp, expand lookUp text = expandGroups lookUp text) ↔
        ¬ (Text.occursIn ['$', '{'] text.toList = true ∧ Stretch.hasBare text.toList = true)) ∧
      ∀ lookUp name, expandGroups lookUp text = .error name →
        Stretch.reference name.toList none ∈ Stretch.groups text.toList ∧ lookUp name = none := by
  refine ⟨Stretch.written_groups _, ⟨fun agree => ?_, fun apart lookUp => ?_⟩, fun lookUp name failed => ?_⟩
  · rintro ⟨opening, bare⟩
    have same := agree fun _ => some "x"
    rw [expand, expandGroups, stretches, if_pos opening, Stretch.mapM_value, Stretch.mapM_value] at same
    have texts := congrArg String.toList (Except.ok.inj same)
    simp only [String.toList_ofList, ← List.flatMap_def] at texts
    exact Stretch.loose_ne_strict bare texts
  · cases opening : Text.occursIn ['$', '{'] text.toList with
    | false => exact expand_of_no_opening opening lookUp
    | true =>
        have plain : Stretch.hasBare text.toList = false := by simpa [opening] using apart
        rw [expand, expandGroups, stretches, if_pos opening, Stretch.split_eq_groups plain]
  · rw [expandGroups] at failed
    cases values : (Stretch.groups text.toList).mapM (Stretch.value lookUp) with
    | error other =>
        rw [values] at failed
        obtain rfl := Except.error.inj failed
        obtain ⟨stretch, member, fails⟩ := Stretch.exists_of_mapM_error values
        obtain ⟨rfl, unset⟩ := Stretch.eq_of_value_error fails
        exact ⟨member, unset⟩
    | ok texts =>
        rw [values] at failed
        cases failed

/-- Beside a group, a dollar sign before a name stands for a value too. -/
theorem expand_home :
    let lookUp (name : String) : Option String := if name = "HOME" then some "/root" else none
    expand lookUp "$HOME/$\x7bPART:-body\x7d" = .ok "/root/body" ∧
      expandGroups lookUp "$HOME/$\x7bPART:-body\x7d" = .ok "$HOME/body" := by
  decide +kernel

end WordTemplate.Settings
