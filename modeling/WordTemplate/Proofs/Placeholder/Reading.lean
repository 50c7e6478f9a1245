import Mathlib.Data.List.Basic
import WordTemplate.Placeholder
import WordTemplate.Proofs.Params.Pending

/-! Reading placeholders. What is read from the body of a marker is written as the same body again,
and another key may be put in its place as long as it is a key as well. -/

namespace WordTemplate

namespace Placeholder

open Text (isWordChar)

def IsKeyRun (text : List Char) : Prop :=
  cutKeyRun text = (text, [])

def IsKey (text : List Char) : Prop :=
  IsKeyRun text ∧ ∃ c rest, text = c :: rest ∧ isWordChar c = true

/-- Whether a character belongs to a run of key characters when the given text follows. -/
def joins (c : Char) (rest : List Char) : Bool :=
  if c = ' ' then rest.head?.any isWordChar else isKeyChar c

theorem cutKeyRun_cons (c : Char) (rest : List Char) :
    cutKeyRun (c :: rest) =
      if joins c rest then (c :: (cutKeyRun rest).1, (cutKeyRun rest).2) else ([], c :: rest) := by
  cases rest <;> rfl

theorem isKeyRun_nil : IsKeyRun [] := rfl

theorem isKeyRun_cons {c : Char} {rest : List Char} :
    IsKeyRun (c :: rest) ↔ joins c rest = true ∧ IsKeyRun rest := by
  rw [IsKeyRun, cutKeyRun_cons]
  by_cases joined : joins c rest = true
  · simp [joined, IsKeyRun, Prod.ext_iff]
  · simp [joined]

theorem joins_append {c : Char} {rest : List Char} (after : List Char)
    (joined : joins c rest = true) : joins c (rest ++ after) = true := by
  rw [joins] at joined ⊢
  by_cases blank : c = ' '
  · rw [if_pos blank] at joined ⊢
    cases rest with
    | nil => simp at joined
    | cons next others => exact joined
  · rw [if_neg blank] at joined ⊢
    exact joined

theorem cutKeyRun_append {run : List Char} (whole : IsKeyRun run) (after : List Char) :
    cutKeyRun (run ++ after) = (run ++ (cutKeyRun after).1, (cutKeyRun after).2) := by
  induction run with
  | nil => rfl
  | cons c rest ih =>
      obtain ⟨joined, inner⟩ := isKeyRun_cons.mp whole
      rw [List.cons_append, cutKeyRun_cons, joins_append after joined, if_pos rfl, ih inner]
      rfl

theorem cutKeyRun_spec (text : List Char) :
    (cutKeyRun text).1 ++ (cutKeyRun text).2 = text ∧ IsKeyRun (cutKeyRun text).1 ∧
      cutKeyRun (cutKeyRun text).2 = ([], (cutKeyRun text).2) := by
  induction text with
  | nil => exact ⟨rfl, rfl, rfl⟩
  | cons c rest ih =>
      by_cases joined : joins c rest = true
      · rw [cutKeyRun_cons, if_pos joined]
        obtain ⟨whole, run, stop⟩ := ih
        refine ⟨by simp [whole], ?_, stop⟩
        refine isKeyRun_cons.mpr ⟨?_, run⟩
        rw [joins] at joined ⊢
        by_cases blank : c = ' '
        · rw [if_pos blank] at joined ⊢
          cases rest with
          | nil => simp at joined
          | cons next others =>
              have word : isWordChar next = true := joined
              have kept : joins next others = true := by
                have notBlank : next ≠ ' ' := by
                  rintro rfl
                  exact absurd word (by decide)
                simp [joins, notBlank, isKeyChar, word]
              rw [cutKeyRun_cons, if_pos kept]
              exact joined
        · rw [if_neg blank] at joined ⊢
          exact joined
      · rw [cutKeyRun_cons, if_neg joined]
        refine ⟨rfl, isKeyRun_nil, ?_⟩
        rw [cutKeyRun_cons, if_neg joined]

theorem isKeyRun_append {front back : List Char} (first : IsKeyRun front) (second : IsKeyRun back) :
    IsKeyRun (front ++ back) := by
  rw [IsKeyRun, cutKeyRun_append first, second]

theorem isKeyRun_of_append_separator {front back : List Char}
    (whole : IsKeyRun (front ++ Key.separator :: back)) : IsKeyRun front ∧ IsKeyRun back := by
  induction front with
  | nil => exact ⟨isKeyRun_nil, (isKeyRun_cons.mp whole).2⟩
  | cons c rest ih =>
      obtain ⟨joined, inner⟩ := isKeyRun_cons.mp whole
      obtain ⟨first, second⟩ := ih inner
      refine ⟨isKeyRun_cons.mpr ⟨?_, first⟩, second⟩
      rw [joins] at joined ⊢
      by_cases blank : c = ' '
      · rw [if_pos blank] at joined ⊢
        cases rest with
        | nil =>
            have word : isWordChar Key.separator = true := joined
            exact absurd word (by decide)
        | cons next others => exact joined
      · rw [if_neg blank] at joined ⊢
        exact joined

theorem isKeyRun_singleton_separator : IsKeyRun [Key.separator] :=
  isKeyRun_cons.mpr ⟨by decide, isKeyRun_nil⟩

theorem isWordChar_of_isDigit {c : Char} (digit : c.isDigit = true) : isWordChar c = true := by
  have bounds := Char.isDigit_iff_toNat.mp digit
  have small : c.toNat < 128 := by
    have high : '9'.toNat = 57 := rfl
    omega
  simp [isWordChar, Text.isAlphanumeric, small, Char.isAlphanum, digit]

theorem isKeyRun_of_isPosition {segment : String} (position : Key.isPosition segment = true) :
    IsKeyRun segment.toList := by
  simp only [Key.isPosition, Bool.and_eq_true, List.all_eq_true] at position
  have digits := position.2
  generalize segment.toList = text at digits
  induction text with
  | nil => exact isKeyRun_nil
  | cons c rest ih =>
      have word := isWordChar_of_isDigit (digits c (by simp))
      have notBlank : c ≠ ' ' := by
        rintro rfl
        exact absurd word (by decide)
      refine isKeyRun_cons.mpr ⟨?_, ih fun other member => digits other (by simp [member])⟩
      simp [joins, notBlank, isKeyChar, word]

theorem toList_ofSegments_cons {segment : String} {rest : List String} (some : rest ≠ []) :
    (Key.ofSegments (segment :: rest)).toList =
      segment.toList ++ Key.separator :: (Key.ofSegments rest).toList := by
  rw [Key.ofSegments_cons some, String.toList_append, String.toList_append, List.append_assoc]
  rfl

theorem isKeyRun_ofSegments_iff {segments : List String} :
    IsKeyRun (Key.ofSegments segments).toList ↔ ∀ segment ∈ segments, IsKeyRun segment.toList := by
  induction segments with
  | nil => simp [Key.ofSegments, isKeyRun_nil]
  | cons segment rest ih =>
      cases rest with
      | nil => simp
      | cons next others =>
          rw [toList_ofSegments_cons (by simp)]
          simp only [List.forall_mem_cons] at ih ⊢
          rw [← ih]
          constructor
          · exact isKeyRun_of_append_separator
          · rintro ⟨first, second⟩
            have middle := isKeyRun_append isKeyRun_singleton_separator second
            exact isKeyRun_append first middle

theorem head?_segments_of_isKey {key : String} (isKey : IsKey key.toList) :
    (Key.segments key).head? ≠ some "" := by
  obtain ⟨-, c, rest, text, word⟩ := isKey
  have notDot : c ≠ Key.separator := by
    rintro rfl
    exact absurd word (by decide)
  intro empty
  cases split : Key.segments key with
  | nil => exact absurd split (Key.segments_ne_nil key)
  | cons first others =>
      rw [split, List.head?_cons, Option.some.injEq] at empty
      subst empty
      have whole := Key.ofSegments_segments key
      rw [split] at whole
      cases others with
      | nil =>
          rw [Key.ofSegments_singleton] at whole
          rw [← whole] at text
          exact absurd text (by simp)
      | cons next others =>
          rw [← whole, toList_ofSegments_cons (by simp)] at text
          simp only [String.toList_empty, List.nil_append, List.cons.injEq] at text
          exact notDot text.1.symm

/-- The key of an item of a pending list is a key again. -/
theorem isKey_indexed {params : Params} {key : String} {pending : PendingList} {item : String}
    (keyed : params.Keyed) (found : params.pendingList? key = some pending)
    (isKey : IsKey key.toList) (position : Key.isPosition item = true) :
    IsKey (pending.indexed item).toList := by
  obtain ⟨first, front, back, cut⟩ := PendingList.exists_cut keyed found
  have whole := Key.ofSegments_segments key
  rw [cut.segments] at whole
  have filled : first ≠ "" := by
    have start := head?_segments_of_isKey isKey
    rw [cut.segments] at start
    simpa using start
  obtain ⟨run, c, rest, text, word⟩ := isKey
  rw [← whole] at run text
  have runs := isKeyRun_ofSegments_iff.mp run
  simp only [List.mem_cons, List.mem_append] at runs
  rw [cut.indexed filled]
  constructor
  · rw [isKeyRun_ofSegments_iff]
    intro segment member
    simp only [List.mem_cons, List.mem_append] at member
    rcases member with here | before | here | after
    · exact runs segment (.inl here)
    · exact runs segment (.inr (.inl before))
    · exact here ▸ isKeyRun_of_isPosition position
    · exact runs segment (.inr (.inr (PendingList.mem_of_mem_left after)))
  · rw [toList_ofSegments_cons (by simp)]
    cases start : first.toList with
    | nil => exact absurd (String.toList_eq_nil_iff.mp start) filled
    | cons d others =>
        refine ⟨d, _, rfl, ?_⟩
        have same : d = c := by
          cases tail : front ++ back with
          | nil =>
              rw [tail, Key.ofSegments_singleton, start] at text
              exact (List.cons.inj text).1
          | cons next more =>
              rw [tail, toList_ofSegments_cons (by simp), start] at text
              exact (List.cons.inj text).1
        rw [same]
        exact word

/-- The characters between the braces of a placeholder. -/
def body (placeholder : Placeholder) : List Char :=
  (if placeholder.asksKey then ['#'] else []) ++ placeholder.key.toList ++
    placeholder.suffix.toList

theorem toList_source (placeholder : Placeholder) :
    placeholder.source.toList = '{' :: '{' :: placeholder.body ++ ['}', '}'] := by
  simp only [source, withKey, body, String.toList_append]
  cases placeholder.asksKey <;> simp

theorem cutKey_of_isKey {key : List Char} (isKey : IsKey key) {suffix : List Char}
    (stop : cutKeyRun suffix = ([], suffix)) : cutKey (key ++ suffix) = (key, suffix) := by
  obtain ⟨run, c, rest, rfl, word⟩ := isKey
  rw [List.cons_append, cutKey, if_pos word, ← List.cons_append, cutKeyRun_append run, stop]
  simp

theorem cutKey_spec {text : List Char} (some : (cutKey text).1 ≠ []) :
    (cutKey text).1 ++ (cutKey text).2 = text ∧ IsKey (cutKey text).1 ∧
      cutKeyRun (cutKey text).2 = ([], (cutKey text).2) := by
  cases text with
  | nil => exact absurd rfl some
  | cons c rest =>
      by_cases word : isWordChar c = true
      · rw [cutKey, if_pos word] at some ⊢
        obtain ⟨whole, run, stop⟩ := cutKeyRun_spec (c :: rest)
        refine ⟨whole, ⟨run, ?_⟩, stop⟩
        cases cut : (cutKeyRun (c :: rest)).1 with
        | nil => exact absurd cut some
        | cons d others =>
            rw [cut, List.cons_append] at whole
            exact ⟨d, others, rfl, (List.cons.inj whole).1 ▸ word⟩
      · rw [cutKey, if_neg word] at some
        exact absurd rfl some

/-- Another key may be put into what reads as a placeholder. -/
theorem readKeyed?_spec {asksKey : Bool} {text : List Char} {placeholder : Placeholder}
    (read : readKeyed? asksKey text = some placeholder) :
    placeholder.asksKey = asksKey ∧ IsKey placeholder.key.toList ∧
      placeholder.key.toList ++ placeholder.suffix.toList = text ∧
      ∀ key : String, IsKey key.toList →
        readKeyed? asksKey (key.toList ++ placeholder.suffix.toList) =
          some { placeholder with key } := by
  rw [readKeyed?] at read
  cases cut : cutKey text with
  | mk front suffix =>
      rw [cut] at read
      by_cases empty : front.isEmpty = true
      · simp [empty] at read
      · have filled : (cutKey text).1 ≠ [] := by
          rw [cut]
          simpa using empty
        obtain ⟨whole, isKey, stop⟩ := cutKey_spec filled
        rw [cut] at whole isKey stop
        simp only [empty, Bool.false_eq_true, if_false] at read
        have nonempty : ∀ key : String, IsKey key.toList → key.toList.isEmpty = false := by
          rintro key ⟨-, c, rest, text, -⟩
          rw [text]
          rfl
        cases suffix with
        | nil =>
            simp only [Option.some.injEq] at read
            subst read
            refine ⟨rfl, by simpa using isKey, by simpa using whole, ?_⟩
            intro key proper
            have again := cutKey_of_isKey proper stop
            simp only [String.toList_empty, readKeyed?, again, nonempty key proper]
            simp
        | cons c rest =>
            by_cases blank : c = ' '
            · subst blank
              simp only [Option.bind_eq_bind, Option.bind_eq_some_iff, Option.pure_def,
                Option.some.injEq] at read
              obtain ⟨⟨separator, modifiers⟩, suffixRead, rfl⟩ := read
              refine ⟨rfl, by simpa using isKey, by simpa using whole, ?_⟩
              intro key proper
              have again := cutKey_of_isKey proper stop
              simp only [String.toList_ofList, readKeyed?, again, nonempty key proper]
              simp [suffixRead]
            · simp [blank] at read

theorem not_isWordChar_numberSign : isWordChar '#' = false := by
  decide

/-- A placeholder that is read back from its own marker. -/
structure Proper (placeholder : Placeholder) : Prop where
  reads : ofBody? placeholder.body = some placeholder
  plain : ∀ c ∈ placeholder.body, Piece.isBrace c = false

theorem ofBody?_spec {text : List Char} {placeholder : Placeholder}
    (read : ofBody? text = some placeholder) :
    placeholder.body = text ∧ IsKey placeholder.key.toList ∧
      ∀ key : String, IsKey key.toList →
        ofBody? { placeholder with key }.body = some { placeholder with key } := by
  have unsigned : ∀ key : String, IsKey key.toList →
      ofBody? (key.toList ++ placeholder.suffix.toList) =
        readKeyed? false (key.toList ++ placeholder.suffix.toList) := by
    rintro key ⟨-, c, rest, start, word⟩
    have other : c ≠ '#' := by
      rintro rfl
      rw [not_isWordChar_numberSign] at word
      exact absurd word (by decide)
    rw [start, List.cons_append, ofBody?]
    rintro _ same
    exact other (List.cons.inj same).1
  unfold ofBody? at read
  split at read
  · obtain ⟨asks, isKey, whole, other⟩ := readKeyed?_spec read
    refine ⟨by simp [body, asks, ← whole], isKey, ?_⟩
    intro key proper
    have again := other key proper
    simpa only [body, asks, if_true, List.cons_append, List.nil_append, ofBody?] using again
  · obtain ⟨asks, isKey, whole, other⟩ := readKeyed?_spec read
    refine ⟨by simp [body, asks, ← whole], isKey, ?_⟩
    intro key proper
    have again := other key proper
    rw [← unsigned key proper] at again
    simpa only [body, asks, Bool.false_eq_true, if_false, List.nil_append] using again

theorem plain_of_isKeyRun {text : List Char} (run : IsKeyRun text) :
    ∀ c ∈ text, Piece.isBrace c = false := by
  induction text with
  | nil => simp
  | cons c rest ih =>
      obtain ⟨joined, inner⟩ := isKeyRun_cons.mp run
      intro other member
      rcases List.mem_cons.mp member with here | later
      · subst here
        by_contra brace
        simp only [Piece.isBrace, Bool.not_eq_false, Bool.or_eq_true, decide_eq_true_eq] at brace
        rcases brace with rfl | rfl
        · exact absurd (show isKeyChar '{' = true from joined) (by decide)
        · exact absurd (show isKeyChar '}' = true from joined) (by decide)
      · exact ih inner other later

theorem Proper.isKey {placeholder : Placeholder} (proper : placeholder.Proper) :
    IsKey placeholder.key.toList :=
  (ofBody?_spec proper.reads).2.1

theorem Proper.withKey {placeholder : Placeholder} (proper : placeholder.Proper) {key : String}
    (isKey : IsKey key.toList) : { placeholder with key }.Proper := by
  refine ⟨(ofBody?_spec proper.reads).2.2 key isKey, ?_⟩
  intro c member
  simp only [body, List.mem_append] at member
  rcases member with (sign | inKey) | inSuffix
  · exact proper.plain c (by simp only [body, List.mem_append]; exact .inl (.inl sign))
  · exact plain_of_isKeyRun isKey.1 c inKey
  · exact proper.plain c (by simp only [body, List.mem_append]; exact .inr inSuffix)

theorem proper_of_ofBody? {text : List Char} {placeholder : Placeholder}
    (read : ofBody? text = some placeholder) (plain : ∀ c ∈ text, Piece.isBrace c = false) :
    placeholder.Proper := by
  have same := (ofBody?_spec read).1
  exact ⟨by rw [same]; exact read, by rw [same]; exact plain⟩

end Placeholder

end WordTemplate
