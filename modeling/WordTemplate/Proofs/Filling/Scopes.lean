import WordTemplate.Filling.Firing
import WordTemplate.Proofs.Markup.Removal

/-! What the scope of a trigger covers, seen from where the trigger stands. -/

namespace WordTemplate.Filling

open Markup

/-- Seen from a node upwards, a node is the nearest one with a tag. -/
inductive Nearest (document : Document) (tag : String) : NodeId → NodeId → Prop
  | here {id : NodeId} (tagged : document.tag id = tag) : Nearest document tag id id
  | above {id parent found : NodeId} (other : document.tag id ≠ tag) (above : document.Above parent id)
      (further : Nearest document tag parent found) : Nearest document tag id found

/-- A node is a paragraph itself, or another paragraph beside it in the same list. -/
inductive SharesList (document : Document) (paragraph : NodeId) : NodeId → Prop
  | self : SharesList document paragraph paragraph
  | beside {parent sibling : NodeId} {number : String} (lists : document.Lists parent paragraph)
      (beside : document.Lists parent sibling) (isParagraph : document.tag sibling = Wordml.paragraph)
      (own : list? document paragraph = some number) (same : list? document sibling = some number) :
      SharesList document paragraph sibling

/-- A node is among those that a scope covers, seen from an origin. -/
inductive Covers (document : Document) (origin : NodeId) : Trigger.Scope → NodeId → Prop
  | text {target : NodeId} (nearest : Nearest document Wordml.text origin target) :
      Covers document origin .placeholder target
  | origin (outside : ∀ found, ¬ Nearest document Wordml.text origin found) :
      Covers document origin .placeholder origin
  | cell {target : NodeId} (nearest : Nearest document Wordml.cell origin target) :
      Covers document origin .cell target
  | row {target : NodeId} (nearest : Nearest document Wordml.row origin target) :
      Covers document origin .row target
  | paragraph {target : NodeId} (outside : ∀ found, ¬ Nearest document Wordml.row origin found)
      (nearest : Nearest document Wordml.paragraph origin target) : Covers document origin .row target
  | list {paragraph target : NodeId} (nearest : Nearest document Wordml.paragraph origin paragraph)
      (item : (list? document paragraph).isSome) (shares : SharesList document paragraph target) :
      Covers document origin .list target
  | table {target : NodeId} (nearest : Nearest document Wordml.table origin target) :
      Covers document origin .table target
  | tableBlock {target : NodeId} (nearest : Nearest document Wordml.table origin target) :
      Covers document origin .block target
  | block {paragraph target : NodeId} (outside : ∀ found, ¬ Nearest document Wordml.table origin found)
      (nearest : Nearest document Wordml.paragraph origin paragraph)
      (shares : SharesList document paragraph target) : Covers document origin .block target

variable {document : Document} {tag : String} {id found : NodeId}

theorem nearest_of_closest? (closest : document.closest? id [tag] = some found) :
    Nearest document tag id found := by
  refine Document.closest?_induction (motive := fun id => Nearest document tag id found)
    (fun here => ?_) (fun id parent other above nearest => ?_) closest
  · exact .here (Document.isAny_singleton.mp here)
  · exact .above (fun tagged => other (Document.isAny_singleton.mpr tagged)) above nearest

theorem tag_of_nearest (nearest : Nearest document tag id found) : document.tag found = tag := by
  induction nearest with
  | here tagged => exact tagged
  | above _ _ _ ih => exact ih

variable (stands : document.Stands)
include stands

theorem closest?_of_nearest (nearest : Nearest document tag id found) (live : document.isLive id = true) :
    document.closest? id [tag] = some found := by
  obtain ⟨forest, holds⟩ := stands
  induction nearest with
  | here tagged => rw [holds.closest?_eq live, if_pos (Document.isAny_singleton.mpr tagged)]
  | above other above _ ih =>
      have stood : document.parent? _ = some _ := above
      rw [holds.closest?_eq live, if_neg (fun tagged => other (Document.isAny_singleton.mp tagged)), stood]
      exact ih (holds.isLive_parent live above)

theorem isLive_of_nearest (nearest : Nearest document tag id found) (live : document.isLive id = true) :
    document.isLive found = true := by
  obtain ⟨forest, holds⟩ := stands
  induction nearest with
  | here _ => exact live
  | above _ above _ ih => exact ih (holds.isLive_parent live above)

variable (live : document.isLive id = true)
include live

theorem closest?_eq_some_iff : document.closest? id [tag] = some found ↔ Nearest document tag id found :=
  ⟨nearest_of_closest?, fun nearest => closest?_of_nearest stands nearest live⟩

theorem closest?_eq_none_iff :
    document.closest? id [tag] = none ↔ ∀ found, ¬ Nearest document tag id found := by
  simp only [Option.eq_none_iff_forall_ne_some, ne_eq, closest?_eq_some_iff stands live]

omit live in
theorem mem_listMembers_iff {paragraph target : NodeId} (live : document.isLive paragraph = true)
    (tagged : document.tag paragraph = Wordml.paragraph) :
    target ∈ listMembers document paragraph ↔ SharesList document paragraph target := by
  rw [listMembers]
  cases own : list? document paragraph with
  | none =>
      rw [List.mem_singleton]
      constructor
      · rintro rfl
        exact .self
      · rintro (_ | ⟨_, _, _, listed, _⟩)
        · rfl
        · simp [own] at listed
  | some number =>
      cases above : document.parent? paragraph with
      | none =>
          rw [List.mem_singleton]
          constructor
          · rintro rfl
            exact .self
          · rintro (_ | ⟨lists, _, _, _, _⟩)
            · rfl
            · have stood := stands.above lists
              rw [Document.Above, above] at stood
              simp at stood
      | some parent =>
          have lists := stands.lists live above
          simp only [List.mem_filter, Bool.and_eq_true, decide_eq_true_eq]
          constructor
          · rintro ⟨beside, isParagraph, same⟩
            exact .beside lists beside isParagraph own same
          · rintro (_ | ⟨upper, beside, isParagraph, listed, same⟩)
            · exact ⟨lists, tagged, own⟩
            · have stood := stands.above upper
              rw [Document.Above, above] at stood
              cases stood
              rw [own] at listed
              cases listed
              exact ⟨beside, isParagraph, same⟩

/-- The nodes that are looked up for a scope are those that it covers. -/
theorem mem_targets_iff {scope : Trigger.Scope} {target : NodeId} :
    target ∈ targets document id scope ↔ Covers document id scope target := by
  have some : ∀ {tag found}, document.closest? id [tag] = some found ↔ Nearest document tag id found :=
    closest?_eq_some_iff stands live
  have none : ∀ {tag}, document.closest? id [tag] = none ↔ ∀ found, ¬ Nearest document tag id found :=
    closest?_eq_none_iff stands live
  have members : ∀ {paragraph}, Nearest document Wordml.paragraph id paragraph →
      (target ∈ listMembers document paragraph ↔ SharesList document paragraph target) := fun nearest =>
    mem_listMembers_iff stands (isLive_of_nearest stands nearest live) (tag_of_nearest nearest)
  constructor
  · intro member
    cases scope with
    | placeholder =>
        rw [targets, List.mem_singleton] at member
        cases found : document.closest? id [Wordml.text] with
        | none =>
            rw [found, Option.getD_none] at member
            subst member
            exact .origin (none.mp found)
        | some text =>
            rw [found, Option.getD_some] at member
            exact member ▸ .text (some.mp found)
    | cell => exact .cell (some.mp (Option.mem_toList.mp member))
    | row =>
        rw [targets, Option.mem_toList, Option.or_eq_some_iff] at member
        rcases member with row | ⟨outside, paragraph⟩
        · exact .row (some.mp row)
        · exact .paragraph (none.mp outside) (some.mp paragraph)
    | list =>
        rw [targets] at member
        split at member
        · rename_i paragraph found
          split at member
          · rename_i item
            exact .list (some.mp found) item ((members (some.mp found)).mp member)
          · simp at member
        · simp at member
    | table => exact .table (some.mp (Option.mem_toList.mp member))
    | block =>
        rw [targets] at member
        split at member
        · rename_i table found
          rw [List.mem_singleton] at member
          exact member ▸ .tableBlock (some.mp found)
        · rename_i outside
          split at member
          · rename_i paragraph found
            exact .block (none.mp outside) (some.mp found) ((members (some.mp found)).mp member)
          · simp at member
  · intro covers
    cases covers with
    | text nearest => simp [targets, some.mpr nearest]
    | origin outside => simp [targets, none.mpr outside]
    | cell nearest => simp [targets, some.mpr nearest]
    | row nearest => simp [targets, some.mpr nearest]
    | paragraph outside nearest => simp [targets, none.mpr outside, some.mpr nearest]
    | list nearest item shares => simp [targets, some.mpr nearest, item, (members nearest).mpr shares]
    | table nearest => simp [targets, some.mpr nearest]
    | tableBlock nearest => simp [targets, some.mpr nearest]
    | block outside nearest shares =>
        simp [targets, none.mpr outside, some.mpr nearest, (members nearest).mpr shares]

theorem isLive_of_covers {scope : Trigger.Scope} {target : NodeId}
    (covers : Covers document id scope target) : document.isLive target = true := by
  have found : ∀ {tag found}, Nearest document tag id found → document.isLive found = true :=
    fun nearest => isLive_of_nearest stands nearest live
  have shared : ∀ {paragraph}, Nearest document Wordml.paragraph id paragraph →
      SharesList document paragraph target → document.isLive target = true := by
    intro paragraph nearest shares
    cases shares with
    | self => exact found nearest
    | beside _ beside _ _ _ => exact stands.child_live beside
  cases covers with
  | origin _ => exact live
  | text nearest | cell nearest | row nearest | table nearest | tableBlock nearest => exact found nearest
  | paragraph _ nearest => exact found nearest
  | list nearest _ shares => exact shared nearest shares
  | block _ nearest shares => exact shared nearest shares

theorem live_of_mem_targets {scope : Trigger.Scope} {target : NodeId}
    (member : target ∈ targets document id scope) : document.isLive target = true :=
  isLive_of_covers stands live ((mem_targets_iff stands live).mp member)

end WordTemplate.Filling
