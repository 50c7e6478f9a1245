import WordTemplate.Proofs.Params.Pending

/-! Foreign keys, which start with the name of no parameter at the top level. Every look-up fails for
them. -/

namespace WordTemplate

namespace Key

/-- The ancestors of a key are the keys its segments start with. -/
theorem hasAncestor_iff {key ancestor : String} (some : ancestor ≠ "") :
    hasAncestor key ancestor = true ↔ segments ancestor <+: segments key := by
  have named : ancestor.isEmpty = false := by simpa using some
  rw [hasAncestor, named, Bool.false_or]
  constructor
  · intro below
    split at below
    · rename_i found
      have same : key = ancestor := by
        rw [← String.toList_inj, ← List.isPrefixOf?_eq_some_iff_append_eq.mp found, List.append_nil]
      exact same ▸ List.prefix_refl _
    · rename_i c rest found
      have dot : c = separator := by simpa using below
      have whole : key = ancestor ++ "." ++ String.ofList rest := by
        rw [← String.toList_inj, ← List.isPrefixOf?_eq_some_iff_append_eq.mp found, dot]
        simp [separator]
      rw [whole, segments_append]
      exact List.prefix_append ..
    · simp at below
  · rintro ⟨back, whole⟩
    cases back with
    | nil =>
        have same : key = ancestor := by
          rw [← ofSegments_segments key, ← whole, List.append_nil, ofSegments_segments]
        have found : ancestor.toList.isPrefixOf? key.toList = .some [] :=
          List.isPrefixOf?_eq_some_iff_append_eq.mpr (by rw [same, List.append_nil])
        rw [found]
    | cons first rest =>
        have parts : key = ancestor ++ "." ++ ofSegments (first :: rest) := by
          rw [← ofSegments_segments key, ← whole, ofSegments_append (segments_ne_nil _) (by simp),
            ofSegments_segments]
        have found : ancestor.toList.isPrefixOf? key.toList =
            .some (separator :: (ofSegments (first :: rest)).toList) :=
          List.isPrefixOf?_eq_some_iff_append_eq.mpr (by rw [parts]; simp [separator])
        rw [found]
        exact decide_eq_true rfl

theorem segments_of_isSegment {segment : String} (plain : IsSegment segment) :
    segments segment = [segment] := by
  rw [← ofSegments_singleton segment, segments_ofSegments (by simp) (by simpa using plain)]
  simp

theorem head?_segments_of_hasAncestor {key name : String} (some : name ≠ "") (plain : IsSegment name)
    (below : hasAncestor key name = true) : (segments key).head? = .some name := by
  obtain ⟨rest, whole⟩ := (hasAncestor_iff some).mp below
  rw [← whole, segments_of_isSegment plain]
  rfl

end Key

namespace Param

theorem getAmong?_eq_none {key : String} {params : List Param}
    (apart : ∀ param ∈ params, Key.hasAncestor key param.absoluteKey = false) :
    getAmong? key params = none := by
  induction params with
  | nil => rfl
  | cons first rest ih =>
      rw [getAmong?, apart first (by simp), if_neg (by decide)]
      exact ih fun param member => apart param (by simp [member])

end Param

namespace Params

/-- Holds of keys that start with the name of no parameter at the top level. -/
def Foreign (params : Params) (key : String) : Prop :=
  ∀ param ∈ params.top, (Key.segments key).head? ≠ some param.key

/-- The names at the top level are single segments of keys. -/
def Named (params : Params) : Prop :=
  ∀ param ∈ params.top, param.key ≠ "" ∧ Key.IsSegment param.key

instance (params : Params) (key : String) : Decidable (params.Foreign key) :=
  inferInstanceAs (Decidable (∀ _ ∈ _, _))

instance (params : Params) : Decidable params.Named :=
  inferInstanceAs (Decidable (∀ _ ∈ _, _ ∧ ¬ _ ∈ _))

variable {params : Params} {key : String}

theorem absoluteKey_of_mem_top (keyed : params.Keyed) {param : Param} (member : param ∈ params.top) :
    param.absoluteKey = param.key := by
  have each : ∀ top : List Param, Param.KeyedAll "" top → ∀ param ∈ top,
      param.absoluteKey = Key.join "" param.key := by
    intro top
    induction top with
    | nil => simp
    | cons first rest ih =>
        intro keyed param member
        rcases List.mem_cons.mp member with rfl | later
        · exact (Param.keyed_iff.mp keyed.1).1
        · exact ih keyed.2 param later
  exact each params.top keyed param member

theorem get?_eq_none_of_foreign (keyed : params.Keyed) (named : params.Named)
    (foreign : params.Foreign key) : params.get? key = none := by
  refine Param.getAmong?_eq_none fun param member => ?_
  rw [absoluteKey_of_mem_top keyed member, Bool.eq_false_iff]
  intro below
  have plain := named param member
  exact foreign param member (Key.head?_segments_of_hasAncestor plain.1 plain.2 below)

theorem matchesNamed_eq_nil {route : List String} {name : String} {segments : List String}
    {top : List Param} (other : ∀ param ∈ top, param.key ≠ name) :
    Param.matchesNamed route name segments top = [] := by
  induction top with
  | nil => rfl
  | cons first rest ih =>
      rw [Param.matchesNamed, if_neg (other first (by simp))]
      exact ih fun param member => other param (by simp [member])

theorem pendingAmong?_eq_none {matched : Bool} {name : String} {segments : List String}
    {top : List Param} (other : ∀ param ∈ top, param.key ≠ name) :
    Param.pendingAmong? matched name segments top = none := by
  induction top with
  | nil => rfl
  | cons first rest ih =>
      rw [Param.pendingAmong?, if_neg (other first (by simp))]
      exact ih fun param member => other param (by simp [member])

theorem matching_eq_nil_of_foreign (foreign : params.Foreign key) : params.matching key = [] := by
  rw [matching]
  cases parts : Key.segments key with
  | nil => rfl
  | cons name rest =>
      refine matchesNamed_eq_nil fun param member same => foreign param member ?_
      rw [parts, same]
      rfl

theorem findAll_eq_nil_of_foreign (foreign : params.Foreign key) : params.findAll key = [] := by
  rw [findAll, matching_eq_nil_of_foreign foreign, numberFrom]

theorem pendingList?_eq_none_of_foreign (foreign : params.Foreign key) :
    params.pendingList? key = none := by
  rw [pendingList?]
  cases parts : Key.segments key with
  | nil => rfl
  | cons name rest =>
      refine pendingAmong?_eq_none fun param member same => foreign param member ?_
      rw [parts, same]
      rfl

end Params

end WordTemplate
