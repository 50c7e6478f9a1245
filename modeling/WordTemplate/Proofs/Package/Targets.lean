import WordTemplate.Proofs.Key
import WordTemplate.Proofs.Package.Frame

/-! Names of parts. A name falls into a directory and a file; what a part refers to is found again from its own
directory, and the names of media, of relationships and of the content types never meet. -/

namespace WordTemplate

namespace Package

theorem intercalate_pieces (text : String) :
    "/".intercalate ((Text.pieces '/' text.toList).map String.ofList) = text := by
  rw [← String.toList_inj, String.toList_intercalate, List.map_map]
  have plain : (String.toList ∘ String.ofList) = id := funext fun text => String.toList_ofList
  rw [plain, List.map_id, Text.pieces_eq_splitOn]
  exact List.intercalate_splitOn '/'

theorem splitName_cases (part : String) :
    splitName part = (none, part) ∧ '/' ∉ part.toList ∨
      ∃ directory file, splitName part = (some directory, file) ∧ '/' ∉ file.toList ∧
        part = directory ++ "/" ++ file := by
  have whole := intercalate_pieces part
  have plain : ∀ piece ∈ (Text.pieces '/' part.toList).map String.ofList, '/' ∉ piece.toList := by
    intro piece member
    obtain ⟨text, listed, rfl⟩ := List.mem_map.mp member
    rw [Text.pieces_eq_splitOn] at listed
    rw [String.toList_ofList]
    exact Text.not_mem_of_mem_splitOn listed
  have some : (Text.pieces '/' part.toList).map String.ofList ≠ [] := fun none =>
    Text.pieces_ne_nil _ _ (List.map_eq_nil_iff.mp none)
  rw [splitName]
  generalize (Text.pieces '/' part.toList).map String.ofList = pieces at whole plain some ⊢
  obtain ⟨front, file, rfl⟩ := List.eq_nil_or_concat pieces |>.resolve_left some
  rw [List.concat_eq_append] at whole plain ⊢
  have bare : '/' ∉ file.toList := plain file (by simp)
  cases front with
  | nil =>
      rw [List.nil_append, String.intercalate_singleton] at whole
      exact .inl ⟨rfl, whole ▸ bare⟩
  | cons first others =>
      rw [String.intercalate_append_of_ne_nil (by simp) (by simp), String.intercalate_singleton] at whole
      refine .inr ⟨"/".intercalate (first :: others), file, ?_, bare, whole.symm⟩
      cases others with
      | nil => rfl
      | cons second more =>
          simp only [List.cons_append, List.getLastD_eq_getLast?, Prod.mk.injEq, Option.some.injEq]
          rw [← List.cons_append, ← List.cons_append, List.dropLast_concat, List.getLast?_concat]
          exact ⟨rfl, rfl⟩

/-- Where a target of a part leads: from the top behind a slash, else from the directory of the part. -/
def resolveTarget (part target : String) : String :=
  match target.toList with
  | '/' :: rest => String.ofList rest
  | _ =>
    match splitName part with
    | (some directory, _) => directory ++ "/" ++ target
    | (none, _) => target

theorem resolveTarget_of_head {part target : String} (start : target.toList.head? ≠ some '/') :
    resolveTarget part target =
      match splitName part with
      | (some directory, _) => directory ++ "/" ++ target
      | (none, _) => target := by
  rw [resolveTarget]
  split
  · rename_i same
    rw [same] at start
    exact absurd rfl start
  · rfl

/-- A part that is referred to is found again, when its name has no empty step. -/
theorem resolveTarget_relativeTarget {target : String} (start : target.toList.head? ≠ some '/')
    (steps : ¬ ['/', '/'] <:+: target.toList) (part : String) :
    resolveTarget part (relativeTarget part target) = target := by
  rcases splitName_cases part with ⟨split, -⟩ | ⟨directory, file, split, -, -⟩
  · rw [relativeTarget, split]
    simp only
    rw [resolveTarget_of_head start, split]
  · rw [relativeTarget, split]
    simp only
    split
    · rename_i rest found
      rw [List.isPrefixOf?_eq_some_iff_append_eq] at found
      have inner : (String.ofList rest).toList.head? ≠ some '/' := by
        rw [String.toList_ofList]
        intro slash
        obtain ⟨tail, rfl⟩ := List.head?_eq_some_iff.mp slash
        exact steps ⟨directory.toList, tail, by rw [← found]; simp⟩
      rw [resolveTarget_of_head inner, split, ← String.toList_inj]
      simpa using found
    · rw [resolveTarget]
      simp

end Package

theorem Text.infix_of_infix_append {pattern front back : List Char} {last : Char}
    (inside : pattern ++ [last] <:+: front ++ back) (missing : last ∉ back) :
    pattern ++ [last] <:+: front := by
  obtain ⟨before, after, same⟩ := inside
  rcases List.append_eq_append_iff.mp same with ⟨rest, whole, -⟩ | ⟨rest, whole, tail⟩
  · exact ⟨before, rest, whole.symm⟩
  · rcases List.eq_nil_or_concat rest with rfl | ⟨init, final, rfl⟩
    · exact ⟨before, [], by simpa using whole⟩
    · rw [← List.append_assoc, List.concat_eq_append, ← List.append_assoc] at whole
      have ends := (List.append_inj' whole rfl).2
      refine absurd ?_ missing
      rw [tail, List.cons.inj ends |>.1]
      simp

theorem Text.front_eq_of_last_eq {separator : Char} {front back front' back' : List Char}
    (same : front ++ separator :: back = front' ++ separator :: back')
    (last : separator ∉ back) (last' : separator ∉ back') : front = front' := by
  rcases List.append_eq_append_iff.mp same with ⟨between, whole, tail⟩ | ⟨between, whole, tail⟩
  all_goals
    cases between with
    | nil => simp [whole]
    | cons first rest =>
        simp only [List.cons_append, List.cons.injEq] at tail
        simp [tail] at last last'

namespace Gallery

open Package (relationsPart)

theorem eq_slash_of_toLower {c : Char} (lowered : c.toLower = '/') : c = '/' := by
  delta Char.toLower at lowered
  split at lowered
  · rename_i upper
    have value := congrArg (fun c : Char => c.val.toNat) lowered
    have low := UInt32.le_iff_toNat_le.mp upper.1
    have high := UInt32.le_iff_toNat_le.mp upper.2
    simp only [Char.reduceVal, UInt32.reduceSub, UInt32.toNat_add, UInt32.reduceToNat] at value low high
    omega
  · exact lowered

theorem slash_not_mem_suffixOf (source : String) : '/' ∉ (suffixOf source).toList := by
  have none : '/' ∉ defaultSuffix.toList := by decide
  rw [suffixOf]
  split
  · split
    · rename_i suffix _ usable
      rw [Bool.and_eq_true, List.all_eq_true] at usable
      rw [String.toList_ofList, Package.lowerAscii]
      intro member
      obtain ⟨c, listed, lowered⟩ := List.mem_map.mp member
      have alphanumeric := usable.2 c listed
      rw [eq_slash_of_toLower lowered] at alphanumeric
      exact absurd alphanumeric (by decide)
    · exact none
  · exact none

theorem mediaName_eq {suffix : String} (plain : '/' ∉ suffix.toList) (number : Nat) :
    ∃ file : String, (mediaName suffix number).toList = "word/media/".toList ++ file.toList ∧
      '/' ∉ file.toList := by
  refine ⟨"image" ++ toString number ++ "." ++ suffix, ?_, ?_⟩
  · rw [toList_mediaName, String.toList_append, String.toList_append, String.toList_append,
      ← List.append_assoc, ← List.append_assoc, ← List.append_assoc]
    rfl
  · rw [String.toList_append, String.toList_append, String.toList_append]
    simp only [List.mem_append, not_or]
    refine ⟨⟨⟨by decide, ?_⟩, by decide⟩, plain⟩
    rw [Nat.toString_eq_ofList_toDigits, String.toList_ofList]
    intro member
    exact absurd (Nat.isDigit_of_mem_toDigits (by decide) (by decide) member) (by decide)

theorem head?_mediaName (suffix : String) (number : Nat) :
    (mediaName suffix number).toList.head? = some 'w' := by
  rw [toList_mediaName, List.append_assoc, List.append_assoc,
    List.head?_append_of_ne_nil _ (by decide)]
  decide

theorem steps_mediaName {suffix : String} (plain : '/' ∉ suffix.toList) (number : Nat) :
    ¬ ['/', '/'] <:+: (mediaName suffix number).toList := by
  obtain ⟨file, named, bare⟩ := mediaName_eq plain number
  rw [named]
  intro inside
  have front : ['/'] ++ ['/'] <:+: "word/media/".toList := Text.infix_of_infix_append inside bare
  rw [← Text.occursIn_iff] at front
  exact absurd front (by decide)

theorem mediaName_ne_relationsPart {suffix : String} (plain : '/' ∉ suffix.toList) (number : Nat)
    (part : String) : mediaName suffix number ≠ relationsPart part := by
  intro same
  obtain ⟨file, named, bare⟩ := mediaName_eq plain number
  have cut : ∃ front inner, (relationsPart part).toList = front ++ "_rels".toList ++ '/' :: inner ∧
      '/' ∉ inner := by
    rw [relationsPart]
    rcases Package.splitName_cases part with ⟨split, top⟩ | ⟨directory, inner, split, below, -⟩
    · rw [split]
      refine ⟨[], part.toList ++ ".rels".toList, by simp, ?_⟩
      simp [top]
    · rw [split]
      refine ⟨directory.toList ++ ['/'], inner.toList ++ ".rels".toList, by simp, ?_⟩
      simp [below]
  obtain ⟨front, inner, whole, below⟩ := cut
  have media : "word/media/".toList ++ file.toList = "word/media".toList ++ '/' :: file.toList := rfl
  rw [← same, named, media] at whole
  have directories := Text.front_eq_of_last_eq whole bare below
  have ends := congrArg List.getLast? directories
  rw [List.getLast?_append_of_ne_nil _ (by decide)] at ends
  exact absurd ends (by decide)

theorem mediaName_ne_contentTypes (suffix : String) (number : Nat) :
    mediaName suffix number ≠ Package.contentTypes := by
  intro same
  have head := head?_mediaName suffix number
  rw [same] at head
  exact absurd head (by decide)

end Gallery

end WordTemplate
