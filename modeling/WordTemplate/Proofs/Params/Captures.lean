import Mathlib.Data.List.TakeWhile
import WordTemplate.Proofs.Params.Addresses

/-! What a member that is added to the data does to the look-up of the keys of other members. A name with
more than blanks in it changes nothing. A name of blanks alone becomes the empty key, which is an ancestor
of every key, and captures all keys that no member in front of it leads on from. -/

namespace WordTemplate

theorem Text.trimEnd_eq_nil_iff {text : List Char} : trimEnd text = [] ↔ isAllBlank text = true := by
  rw [trimEnd, List.reverse_eq_nil_iff, List.dropWhile_eq_nil_iff, isAllBlank, List.all_eq_true]
  simp

theorem Key.isSegment_trimEnd {name : String} (plain : IsSegment name) :
    IsSegment (String.ofList (Text.trimEnd name.toList)) := by
  rw [IsSegment, String.toList_ofList, Text.trimEnd, List.mem_reverse]
  exact fun member => plain (List.mem_reverse.mp ((List.dropWhile_suffix _).subset member))

namespace Named

variable {α : Type}

/-- The values in front of the place of a name. -/
def before (name : String) (values : Named α) : Named α :=
  values.takeWhile fun entry => !decide (name < entry.1)

def behind (name : String) (values : Named α) : Named α :=
  values.dropWhile fun entry => !decide (name < entry.1)

theorem before_append_behind (name : String) (values : Named α) :
    values.before name ++ values.behind name = values :=
  List.takeWhile_append_dropWhile

theorem insert_of_new {name : String} {values : Named α} (new : name ∉ values.names) (value : α) :
    values.insert name value = values.before name ++ (name, value) :: values.behind name := by
  induction values with
  | nil => rfl
  | cons entry rest ih =>
      obtain ⟨other, present⟩ := entry
      simp only [names, List.map_cons, List.mem_cons, not_or] at new ih
      rw [insert, if_neg new.1]
      by_cases here : name < other
      · simp only [before, behind, List.takeWhile_cons, List.dropWhile_cons, here, decide_true,
          Bool.not_true, Bool.false_eq_true, if_true, if_false, List.nil_append]
      · rw [if_neg here, ih new.2]
        simp only [before, behind, List.takeWhile_cons, List.dropWhile_cons, here, decide_false,
          Bool.not_false, if_true, List.cons_append]

end Named

namespace Param

variable {key : String}

theorem buildMembers_append (place : Place) (front back : List (String × Json)) :
    buildMembers place (front ++ back) = buildMembers place front ++ buildMembers place back := by
  induction front with
  | nil => rfl
  | cons member rest ih =>
      obtain ⟨name, value⟩ := member
      rw [List.cons_append, buildMembers, buildMembers, ih, List.append_assoc]

theorem getAmong?_append (front back : List Param) :
    getAmong? key (front ++ back) =
      if front.any fun param => Key.hasAncestor key param.absoluteKey then getAmong? key front
      else getAmong? key back := by
  induction front with
  | nil => rfl
  | cons param rest ih =>
      rw [List.cons_append, getAmong?, getAmong?, ih, List.any_cons]
      cases Key.hasAncestor key param.absoluteKey <;> rfl

end Param

namespace Params

variable {members : List (String × Json)} {name key : String} {value : Json}

/-- A new member captures a key: it is not null, its name is nothing but blanks, and no member in front of
it leads on to the key. -/
structure Captures (members : List (String × Json)) (name : String) (value : Json) (key : String) :
    Prop where
  given : value.kind ≠ .null
  blank : Text.isAllBlank name.toList = true
  first : ∀ param ∈ (ofMembers (Named.before name members)).top,
    Key.hasAncestor key param.absoluteKey = false

theorem top_ofMembers_insert (new : name ∉ Named.names members) (value : Json) :
    (ofMembers (Named.insert name value members)).top =
      (ofMembers (Named.before name members)).top ++ ((Param.build {} name value).toList ++
        (ofMembers (Named.behind name members)).top) := by
  rw [ofMembers, Named.insert_of_new new, Param.buildMembers_append, Param.buildMembers]
  rfl

theorem top_ofMembers_split (name : String) (members : List (String × Json)) :
    (ofMembers members).top =
      (ofMembers (Named.before name members)).top ++ (ofMembers (Named.behind name members)).top := by
  conv_lhs => rw [← Named.before_append_behind name members]
  exact Param.buildMembers_append ..

/-- A new member that is no ancestor of the key, or stands behind one, is passed over. -/
theorem get?_ofMembers_insert_of_passed (new : name ∉ Named.names members)
    (passed : (∀ added ∈ Param.build {} name value, Key.hasAncestor key added.absoluteKey = false) ∨
      ∃ param ∈ (ofMembers (Named.before name members)).top,
        Key.hasAncestor key param.absoluteKey = true) :
    (ofMembers (Named.insert name value members)).get? key = (ofMembers members).get? key := by
  rw [get?, get?, top_ofMembers_insert new, top_ofMembers_split name members,
    Param.getAmong?_append (ofMembers (Named.before name members)).top,
    Param.getAmong?_append (ofMembers (Named.before name members)).top]
  rcases passed with aside | ⟨param, inFront, leads⟩
  · congr 1
    cases built : Param.build {} name value with
    | none => rfl
    | some added =>
        rw [Option.toList_some, List.singleton_append, Param.getAmong?, aside added built]
        rfl
  · have caught : ((ofMembers (Named.before name members)).top.any
        fun param => Key.hasAncestor key param.absoluteKey) = true :=
      List.any_eq_true.mpr ⟨param, inFront, leads⟩
    rw [if_pos caught, if_pos caught]

theorem absoluteKey_of_build {added : Param} (built : Param.build {} name value = some added) :
    added.absoluteKey = String.ofList (Text.trimEnd name.toList) := by
  rw [(Param.keyed_iff.mp (Param.keyed_build built)).1, Param.key_build built]
  rfl

theorem get?_ofMembers_insert_of_captures (new : name ∉ Named.names members)
    (filled : (Key.segments key).head? ≠ some "") (captures : Captures members name value key) :
    (ofMembers (Named.insert name value members)).get? key =
      (Param.build {} name value).bind fun added => Param.getAmong? key added.children := by
  have none : ¬ ((ofMembers (Named.before name members)).top.any
      fun param => Key.hasAncestor key param.absoluteKey) = true := by
    rw [List.any_eq_true]
    rintro ⟨param, inFront, leads⟩
    rw [captures.first param inFront] at leads
    exact absurd leads (by decide)
  rw [get?, top_ofMembers_insert new, Param.getAmong?_append, if_neg none]
  obtain ⟨added, built⟩ : ∃ added, Param.build {} name value = Option.some added := by
    rw [← Option.isSome_iff_exists, Param.isSome_build]
    simpa using captures.given
  have address := absoluteKey_of_build built
  rw [Text.trimEnd_eq_nil_iff.mpr captures.blank, String.ofList_nil] at address
  have other : added.absoluteKey ≠ key := by
    rw [address]
    rintro rfl
    exact filled (by decide)
  rw [built, Option.toList_some, List.singleton_append, Param.getAmong?, address,
    if_pos (by simp [Key.hasAncestor]), Param.getAt?_eq, if_neg other]
  rfl

/-- A new member captures the keys that lead nowhere in front of it if its name is blank, and hides no
parameter from any other key. -/
theorem get?_ofMembers_insert (new : name ∉ Named.names members) (plain : Key.IsSegment name)
    (filled : (Key.segments key).head? ≠ some "")
    (other : (Key.segments key).head? ≠ some (String.ofList (Text.trimEnd name.toList))) :
    (¬ Captures members name value key →
      (ofMembers (Named.insert name value members)).get? key = (ofMembers members).get? key) ∧
    (Captures members name value key →
      (ofMembers (Named.insert name value members)).get? key =
        (Param.build {} name value).bind fun added => Param.getAmong? key added.children) := by
  refine ⟨fun free => get?_ofMembers_insert_of_passed new ?_,
    get?_ofMembers_insert_of_captures new filled⟩
  by_contra caught
  simp only [not_or, not_forall, not_exists, not_and, Bool.not_eq_true, Bool.not_eq_false] at caught
  obtain ⟨⟨added, built, leads⟩, first⟩ := caught
  have address := absoluteKey_of_build built
  rw [address] at leads
  refine free ⟨?_, Text.trimEnd_eq_nil_iff.mp ?_, first⟩
  · have given : (Param.build {} name value).isSome = (value.kind != .null) := Param.isSome_build
    rw [Option.mem_def.mp built] at given
    simpa using given.symm
  · by_contra some
    -- A name with more than blanks is the first segment of every key that it is an ancestor of.
    have start := Key.head?_segments_of_hasAncestor (by simpa using some) (Key.isSegment_trimEnd plain) leads
    exact other start

def adaMembers : List (String × Json) :=
  [("Name", .string "Ada"), ("Tags", .array [.string "x"])]

/-- A member whose name another one starts with hides nothing; a blank name captures what stands behind
it. -/
theorem get?_ofMembers_insert_start :
    ("Na" ∉ Named.names adaMembers ∧ Key.IsSegment "Na" ∧ (Key.segments "Name").head? ≠ some "" ∧
      (Key.segments "Name").head? ≠ some (String.ofList (Text.trimEnd "Na".toList)) ∧
      ((ofMembers (Named.insert "Na" (.object [("me", .string "x")]) adaMembers)).get? "Name").map
        (·.value) = some "Ada") ∧
      " " ∉ Named.names adaMembers ∧ Key.IsSegment " " ∧
      (Key.segments "Name").head? ≠ some (String.ofList (Text.trimEnd " ".toList)) ∧
      ((ofMembers (Named.insert " " (.object [("Name", .string "Eve")]) adaMembers)).get? "Name").map
        (·.value) = some "Eve" := by
  have free : ¬ Captures adaMembers "Na" (.object [("me", .string "x")]) "Name" :=
    fun captures => absurd captures.blank (by decide)
  have captures : Captures adaMembers " " (.object [("Name", .string "Eve")]) "Name" :=
    ⟨by decide, by decide, List.forall_mem_nil _⟩
  refine ⟨⟨by decide, by decide, by decide, by decide, ?_⟩, by decide, by decide, by decide, ?_⟩
  · rw [(get?_ofMembers_insert (by decide) (by decide) (by decide) (by decide)).1 free]
    decide
  · rw [(get?_ofMembers_insert (by decide) (by decide) (by decide) (by decide)).2 captures]
    decide

/-- A member with an empty name hides all others. -/
theorem get?_hidden_by_blank :
    ("" ∉ Named.names adaMembers ∧ Key.IsSegment "" ∧ (Key.segments "Name").head? ≠ some "" ∧
      (Key.segments "Name").head? ≠ some (String.ofList (Text.trimEnd "".toList))) ∧
      ((ofMembers adaMembers).get? "Name").map (fun param => (param.kind, param.value)) =
        some (.scalar, "Ada") ∧
      (ofMembers (Named.insert "" (.string "x") adaMembers)).get? "Name" = none := by
  refine ⟨by decide, ?_, ?_⟩ <;> decide

end Params

end WordTemplate
