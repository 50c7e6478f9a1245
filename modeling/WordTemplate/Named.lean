/-!
Named values in the order of their names, each name once.
-/

namespace WordTemplate

abbrev Named (α : Type) := List (String × α)

namespace Named

variable {α : Type}

/-- Puts a value into its place; an earlier one of the same name is replaced. -/
def insert (name : String) (value : α) : Named α → Named α
  | [] => [(name, value)]
  | (other, present) :: rest =>
    if name = other then (name, value) :: rest
    else if name < other then (name, value) :: (other, present) :: rest
    else (other, present) :: insert name value rest

/-- Of values with the same name the last one stays. -/
def ofList (values : List (String × α)) : Named α :=
  values.foldl (fun sorted (name, value) => insert name value sorted) []

def get? (values : Named α) (name : String) : Option α :=
  values.lookup name

def contains (values : Named α) (name : String) : Bool :=
  (values.get? name).isSome

def names (values : Named α) : List String :=
  values.map Prod.fst

theorem get?_insert (values : Named α) (name other : String) (value : α) :
    (values.insert name value).get? other =
      if other = name then some value else values.get? other := by
  induction values with
  | nil =>
    by_cases same : other = name
    · simp [insert, get?, same]
    · have : (other == name) = false := by simpa using same
      simp [insert, get?, List.lookup_cons, this, same]
  | cons entry rest ih =>
    obtain ⟨first, present⟩ := entry
    simp only [get?] at ih
    by_cases found : name = first
    · subst found
      by_cases same : other = name
      · simp [insert, get?, same]
      · have : (other == name) = false := by simpa using same
        simp [insert, get?, List.lookup_cons, this, same]
    · by_cases before : name < first
      · by_cases same : other = name
        · simp [insert, get?, found, before, same]
        · have : (other == name) = false := by simpa using same
          simp [insert, get?, found, before, List.lookup_cons, this, same]
      · simp only [insert, found, before, if_false, get?, List.lookup_cons, ih]
        by_cases same : other = first
        · subst same
          have : ¬ other = name := fun equal => found equal.symm
          simp [this]
        · have : (other == first) = false := by simpa using same
          simp [this]

end Named

end WordTemplate
