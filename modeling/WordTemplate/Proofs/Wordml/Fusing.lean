import WordTemplate.Proofs.Wordml.OpenMarkers

/-! Lists of texts in which neighbours are put together. The texts say the same as before, and once no
text can be completed by those that follow it, none can later. -/

namespace WordTemplate.Wordml

open Relation (ReflTransGen)

inductive Fuses : List String → List String → Prop
  | here (first second : String) (rest : List String) :
      Fuses (first :: second :: rest) ((first ++ second) :: rest)
  | later (first : String) {rest rest' : List String} (fuses : Fuses rest rest') :
      Fuses (first :: rest) (first :: rest')

abbrev Fused : List String → List String → Prop :=
  ReflTransGen Fuses

/-- No text that leaves a marker open is completed by the texts behind it. -/
def Complete : List String → Prop
  | [] => True
  | first :: rest =>
    (hasOpenMarker first = true →
      ∀ taken, taken <+: rest → hasOpenMarker (first ++ String.join taken) = true) ∧ Complete rest

/-- The placeholders of texts that are looked at one by one. -/
def scanEach (texts : List String) : List Placeholder :=
  texts.flatMap Placeholder.scan

theorem hasOpenMarker_append {first : String} (closed : hasOpenMarker first = false)
    (second : String) : hasOpenMarker (first ++ second) = hasOpenMarker second := by
  rw [hasOpenMarker, String.toList_append]
  exact opensFrom_append closed second.toList

theorem scan_append {first : String} (closed : hasOpenMarker first = false) (second : String) :
    Placeholder.scan (first ++ second) = Placeholder.scan first ++ Placeholder.scan second := by
  rw [Placeholder.scan, Piece.ofText, String.toList_append]
  exact Piece.markers_append closed

theorem sublist_scan_append (first second : String) :
    (Placeholder.scan first ++ Placeholder.scan second).Sublist (Placeholder.scan (first ++ second)) := by
  rw [Placeholder.scan, Placeholder.scan, Placeholder.scan, Piece.ofText, Piece.ofText, Piece.ofText,
    String.toList_append]
  exact Piece.sublist_markers first.toList second.toList

namespace Fuses

variable {first second : List String}

theorem join_eq (fuses : Fuses first second) : String.join second = String.join first := by
  induction fuses with
  | here first second rest => simp [String.join_cons, String.append_assoc]
  | later first _ ih => simp [String.join_cons, ih]

theorem sublist_scanEach (fuses : Fuses first second) :
    (scanEach first).Sublist (scanEach second) := by
  induction fuses with
  | here first second rest =>
      have pair := (sublist_scan_append first second).append_right (scanEach rest)
      simpa [scanEach] using pair
  | later first _ ih => exact ih.append_left _

theorem exists_prefix (fuses : Fuses first second) {taken : List String} (front : taken <+: second) :
    ∃ taken', taken' <+: first ∧ String.join taken' = String.join taken := by
  induction fuses generalizing taken with
  | here first second rest =>
      cases taken with
      | nil => exact ⟨[], List.nil_prefix, rfl⟩
      | cons text taken =>
          obtain ⟨rfl, behind⟩ := List.cons_prefix_cons.mp front
          refine ⟨first :: second :: taken, ?_, ?_⟩
          · exact List.cons_prefix_cons.mpr ⟨rfl, List.cons_prefix_cons.mpr ⟨rfl, behind⟩⟩
          · simp [String.join_cons, String.append_assoc]
  | later first _ ih =>
      cases taken with
      | nil => exact ⟨[], List.nil_prefix, rfl⟩
      | cons text taken =>
          obtain ⟨rfl, behind⟩ := List.cons_prefix_cons.mp front
          obtain ⟨taken', front', same⟩ := ih behind
          exact ⟨text :: taken', List.cons_prefix_cons.mpr ⟨rfl, front'⟩,
            by simp [String.join_cons, same]⟩

theorem complete (fuses : Fuses first second) (whole : Complete first) : Complete second := by
  induction fuses with
  | here first second rest =>
      obtain ⟨ofFirst, ofSecond, ofRest⟩ := whole
      refine ⟨fun opened taken behind => ?_, ofRest⟩
      rw [String.append_assoc]
      by_cases closed : hasOpenMarker first = false
      · rw [hasOpenMarker_append closed] at opened ⊢
        exact ofSecond opened taken behind
      · have through := ofFirst (by simpa using closed) (second :: taken)
          (List.cons_prefix_cons.mpr ⟨rfl, behind⟩)
        rwa [String.join_cons] at through
  | later first fuses ih =>
      refine ⟨fun opened taken behind => ?_, ih whole.2⟩
      obtain ⟨taken', behind', same⟩ := fuses.exists_prefix behind
      rw [← same]
      exact whole.1 opened taken' behind'

end Fuses

namespace Fused

variable {first second : List String}

theorem join_eq (fused : Fused first second) : String.join second = String.join first := by
  induction fused with
  | refl => rfl
  | tail _ step ih => rw [step.join_eq, ih]

theorem sublist_scanEach (fused : Fused first second) :
    (scanEach first).Sublist (scanEach second) := by
  induction fused with
  | refl => exact List.Sublist.refl _
  | tail _ step ih => exact ih.trans step.sublist_scanEach

theorem exists_prefix (fused : Fused first second) {taken : List String} (front : taken <+: second) :
    ∃ taken', taken' <+: first ∧ String.join taken' = String.join taken := by
  induction fused generalizing taken with
  | refl => exact ⟨taken, front, rfl⟩
  | tail _ step ih =>
      obtain ⟨middle, inside, same⟩ := step.exists_prefix front
      obtain ⟨taken', front', same'⟩ := ih inside
      exact ⟨taken', front', same'.trans same⟩

theorem complete (fused : Fused first second) (whole : Complete first) : Complete second := by
  induction fused with
  | refl => exact whole
  | tail _ step ih => exact step.complete ih

theorem later (text : String) (fused : Fused first second) :
    Fused (text :: first) (text :: second) :=
  fused.lift (text :: ·) fun _ _ step => .later text step

theorem append_left (front : List String) (fused : Fused first second) :
    Fused (front ++ first) (front ++ second) := by
  induction front with
  | nil => exact fused
  | cons text front ih => exact ih.later text

theorem append_right (fused : Fused first second) (back : List String) :
    Fused (first ++ back) (second ++ back) := by
  refine fused.lift (· ++ back) fun first second step => ?_
  induction step with
  | here first second rest => exact .here first second (rest ++ back)
  | later first _ ih => exact .later first ih

theorem single (text : String) (texts : List String) :
    Fused (text :: texts) [text ++ String.join texts] := by
  induction texts generalizing text with
  | nil =>
      rw [String.join_nil, String.append_empty]
  | cons next rest ih =>
      rw [String.join_cons, ← String.append_assoc]
      exact .head (.here text next rest) (ih (text ++ next))

end Fused

section Gathering

variable {Name : Type} {first second : List (Name × String)}

/-- Of two neighbours in a list of named texts, the first one takes the second one in. -/
inductive Gathers : List (Name × String) → List (Name × String) → Prop
  | here (name other : Name) (text more : String) (rest : List (Name × String)) :
      Gathers ((name, text) :: (other, more) :: rest) ((name, text ++ more) :: rest)
  | later (entry : Name × String) {rest rest' : List (Name × String)} (gathers : Gathers rest rest') :
      Gathers (entry :: rest) (entry :: rest')

abbrev Gathered : List (Name × String) → List (Name × String) → Prop :=
  ReflTransGen Gathers

theorem Gathers.behind (front : List (Name × String)) (gathers : Gathers first second) :
    Gathers (front ++ first) (front ++ second) := by
  induction front with
  | nil => exact gathers
  | cons entry front ih => exact .later entry ih

theorem Gathers.fuses (gathers : Gathers first second) :
    Fuses (first.map Prod.snd) (second.map Prod.snd) := by
  induction gathers with
  | here name other text more rest => exact .here text more (rest.map Prod.snd)
  | later entry _ ih => exact .later entry.2 ih

theorem Gathered.fused (gathered : Gathered first second) :
    Fused (first.map Prod.snd) (second.map Prod.snd) :=
  gathered.lift (List.map Prod.snd) fun _ _ step => step.fuses

/-- A text with those that are taken into it. -/
abbrev Group (Name : Type) : Type :=
  (Name × String) × List (Name × String)

/-- What the first text of a group says with the others taken in. -/
def Group.whole (group : Group Name) : Name × String :=
  (group.1.1, group.1.2 ++ String.join (group.2.map Prod.snd))

theorem Gathers.exists_groups (gathers : Gathers first second) {groups : List (Group Name)}
    (same : first = groups.map Group.whole) :
    ∃ fewer : List (Group Name), second = fewer.map Group.whole ∧
      (fewer.flatMap fun group => group.1 :: group.2) = groups.flatMap fun group => group.1 :: group.2 := by
  induction gathers generalizing groups with
  | here name other text more rest =>
      obtain ⟨front, behind, rfl, whole, below⟩ := List.map_eq_cons_iff.mp same.symm
      obtain ⟨next, groups, rfl, nextWhole, rfl⟩ := List.map_eq_cons_iff.mp below
      refine ⟨(front.1, front.2 ++ next.1 :: next.2) :: groups, ?_, by simp⟩
      rw [Group.whole, Prod.mk.injEq] at whole nextWhole
      rw [List.map_cons, Group.whole, List.map_append, List.map_cons, String.join_append, String.join_cons,
        ← String.append_assoc, whole.1, whole.2, nextWhole.2]
  | later entry _ ih =>
      obtain ⟨front, behind, rfl, whole, below⟩ := List.map_eq_cons_iff.mp same.symm
      obtain ⟨fewer, rfl, all⟩ := ih below.symm
      exact ⟨front :: fewer, by rw [List.map_cons, whole], by rw [List.flatMap_cons, List.flatMap_cons, all]⟩

/-- Texts that are gathered fall into groups, and the first of each group takes in the others. -/
theorem Gathered.exists_groups (gathered : Gathered first second) :
    ∃ groups : List (Group Name), second = groups.map Group.whole ∧
      first = groups.flatMap fun group => group.1 :: group.2 := by
  induction gathered with
  | refl =>
      refine ⟨first.map fun entry => (entry, []), ?_, ?_⟩
      · simp [Group.whole, Function.comp_def]
      · simp [List.flatMap_map]
  | tail _ step ih =>
      obtain ⟨groups, same, all⟩ := ih
      obtain ⟨fewer, whole, still⟩ := step.exists_groups same
      exact ⟨fewer, whole, all.trans still.symm⟩

end Gathering

theorem sublist_scanEach (texts : List String) :
    (scanEach texts).Sublist (Placeholder.scan (String.join texts)) := by
  cases texts with
  | nil => exact List.nil_sublist _
  | cons text texts =>
      have whole := (Fused.single text texts).sublist_scanEach
      rw [String.join_cons]
      simpa [scanEach] using whole

theorem closed_of_complete {texts : List String} (whole : Complete texts)
    (closed : hasOpenMarker (String.join texts) = false) :
    ∀ text ∈ texts, hasOpenMarker text = false := by
  induction texts with
  | nil => simp
  | cons first rest ih =>
      rw [String.join_cons] at closed
      have own : hasOpenMarker first = false := by
        by_contra opened
        have through := whole.1 (by simpa using opened) rest List.prefix_rfl
        rw [closed] at through
        exact absurd through (by decide)
      rw [hasOpenMarker_append own] at closed
      intro text member
      rcases List.mem_cons.mp member with rfl | later
      · exact own
      · exact ih whole.2 closed text later

theorem scanEach_of_closed {texts : List String} (closed : ∀ text ∈ texts, hasOpenMarker text = false) :
    scanEach texts = Placeholder.scan (String.join texts) := by
  induction texts with
  | nil => exact Piece.markers_nil.symm
  | cons first rest ih =>
      rw [String.join_cons, scan_append (closed first (by simp)),
        ← ih fun text member => closed text (List.mem_cons_of_mem _ member)]
      rfl

/-- Complete texts that together leave no marker open hold all placeholders. -/
theorem scanEach_of_complete {texts : List String} (whole : Complete texts)
    (closed : hasOpenMarker (String.join texts) = false) :
    scanEach texts = Placeholder.scan (String.join texts) :=
  scanEach_of_closed (closed_of_complete whole closed)

end WordTemplate.Wordml
