import Mathlib.Data.List.Basic
import WordTemplate.Proofs.Filling.LineFeeds
import WordTemplate.Proofs.Filling.RowStores
import WordTemplate.Proofs.Markup.Paths
import WordTemplate.Proofs.Wordml.Paragraphs

/-! The texts that a paragraph owns as a stretch of its subtree, and the ways that lead to them. A copy of a
paragraph owns the same texts in the same order, so that a way leads to the same place among them. -/

namespace WordTemplate

open Markup
open Outline (idsAll toTrees)

namespace Filling

variable {document : Document} {context : Context}

mutual

/-- The texts of a subtree that stand outside of the paragraphs in it, in document order. -/
def freeTexts (document : Document) : Outline → List NodeId
  | .node id children =>
    if document.tag id = Wordml.paragraph then []
    else
      (if document.tag id = Wordml.text then [id] else []) ++ freeTextsAll document children

def freeTextsAll (document : Document) : List Outline → List NodeId
  | [] => []
  | outline :: rest => freeTexts document outline ++ freeTextsAll document rest

end

theorem freeTextsAll_eq (document : Document) (outlines : List Outline) :
    freeTextsAll document outlines = outlines.flatMap (freeTexts document) := by
  induction outlines with
  | nil => rfl
  | cons outline rest ih => simp [freeTextsAll, ih]

theorem freeTextsAll_append (document : Document) (front back : List Outline) :
    freeTextsAll document (front ++ back) =
      freeTextsAll document front ++ freeTextsAll document back := by
  simp [freeTextsAll_eq]

theorem freeTexts_of_paragraph {id : NodeId} (isParagraph : document.tag id = Wordml.paragraph)
    (children : List Outline) : freeTexts document (.node id children) = [] :=
  if_pos isParagraph

theorem freeTexts_of_other {id : NodeId} (other : document.tag id ≠ Wordml.paragraph)
    (children : List Outline) :
    freeTexts document (.node id children) =
      (if document.tag id = Wordml.text then [id] else []) ++ freeTextsAll document children :=
  if_neg other

mutual

theorem map_text_freeTexts (document : Document) (outline : Outline) :
    (freeTexts document outline).map document.text =
      textsOutside [Wordml.paragraph] (outline.toTree document) := by
  cases outline with
  | node id children =>
      rw [freeTexts, Outline.toTree, textsOutside, ← map_text_freeTextsAll document children]
      by_cases isParagraph : document.tag id = Wordml.paragraph
      · have tag : (document.node id).tag = Wordml.paragraph := isParagraph
        rw [if_pos isParagraph, if_pos (by simp [tag])]
        rfl
      · have tag : (document.node id).tag ≠ Wordml.paragraph := isParagraph
        have outside : ¬ [Wordml.paragraph].contains (document.node id).tag = true := by
          simpa using tag
        rw [if_neg isParagraph, if_neg outside, List.map_append]
        congr 1
        by_cases isText : document.tag id = Wordml.text
        · exact (congrArg _ (if_pos isText)).trans (if_pos isText).symm
        · exact (congrArg _ (if_neg isText)).trans (if_neg isText).symm

theorem map_text_freeTextsAll (document : Document) (outlines : List Outline) :
    (freeTextsAll document outlines).map document.text =
      textsOutsideAll [Wordml.paragraph] (toTrees document outlines) := by
  cases outlines with
  | nil => rfl
  | cons outline rest =>
      rw [freeTextsAll, toTrees, textsOutsideAll, List.map_append,
        map_text_freeTexts document outline, map_text_freeTextsAll document rest]

end

mutual

theorem sublist_freeTexts (document : Document) (outline : Outline) :
    (freeTexts document outline).Sublist outline.ids := by
  cases outline with
  | node id children =>
      rw [freeTexts, Outline.ids]
      split
      · exact List.nil_sublist _
      · split
        · exact (sublist_freeTextsAll document children).cons_cons id
        · exact (sublist_freeTextsAll document children).cons id

theorem sublist_freeTextsAll (document : Document) (outlines : List Outline) :
    (freeTextsAll document outlines).Sublist (idsAll outlines) := by
  cases outlines with
  | nil => exact List.nil_sublist _
  | cons outline rest =>
      exact (sublist_freeTexts document outline).append (sublist_freeTextsAll document rest)

end

section Owners

def belongs (document : Document) (owner : Option NodeId) (id : NodeId) : Bool :=
  document.isAny [Wordml.text] id && document.closest? id [Wordml.paragraph] = owner

def BelongsFree (document : Document) (owner : Option NodeId) (context : Context) (outline : Outline) :
    Prop :=
  outline.ids.filter (belongs document owner) =
    if context.closest? document [Wordml.paragraph] = owner then freeTexts document outline else []

theorem filter_belongs_children (context : Context) (owner : Option NodeId) (id : NodeId)
    (children : List Outline)
    (each : ∀ front child back, children = front ++ child :: back →
      BelongsFree document owner (.under context front back id) child) :
    (idsAll children).filter (belongs document owner) =
      if (Context.under context [] [] id).closest? document [Wordml.paragraph] = owner then
        freeTextsAll document children
      else [] := by
  rw [Outline.idsAll_eq, List.filter_flatMap, freeTextsAll_eq]
  split
  · rename_i above
    exact flatMap_congr_append fun front child back whole => (each front child back whole).trans
      (if_pos above)
  · rename_i elsewhere
    rw [List.flatMap_eq_nil_iff]
    intro child member
    obtain ⟨front, back, whole⟩ := List.append_of_mem member
    exact (each front child back whole).trans (if_neg elsewhere)

theorem belongsFree (outline : Outline) (holds : document.Holds (context.fill [outline]))
    {owner : Option NodeId} (outside : ∀ id ∈ outline.ids, owner ≠ some id) :
    BelongsFree document owner context outline := by
  induction outline using Outline.induction generalizing context with
  | node id children ih =>
      have below := filter_belongs_children context owner id children (by
        rintro front child back rfl
        apply ih child (by simp) (Context.holds_child holds)
        intro inner member
        apply outside
        simp only [Outline.ids, List.mem_cons, Outline.mem_idsAll]
        exact .inr ⟨child, by simp, member⟩)
      have here := holds.closest? [Wordml.paragraph]
      have other : owner ≠ some id := outside id (Outline.id_mem_ids _)
      rw [Outline.id_node] at here
      rw [BelongsFree, Outline.ids, List.filter_cons, below, Context.closest?, belongs, here]
      by_cases isParagraph : document.tag id = Wordml.paragraph
      · have found : document.isAny [Wordml.paragraph] id = true := Document.isAny_singleton.mpr isParagraph
        rw [freeTexts_of_paragraph isParagraph, if_pos found]
        simp [Ne.symm other]
      · have found : ¬ document.isAny [Wordml.paragraph] id = true :=
          fun found => isParagraph (Document.isAny_singleton.mp found)
        rw [freeTexts_of_other isParagraph, if_neg found]
        by_cases above : context.closest? document [Wordml.paragraph] = owner
        · by_cases isText : document.tag id = Wordml.text
          · simp [above, isText, Document.isAny_singleton.mpr isText]
          · simp [above, isText, Document.isAny]
        · simp [above]

theorem ownTexts_eq {paragraph : Outline} (holds : document.Holds (context.fill [paragraph]))
    (isParagraph : document.tag paragraph.id = Wordml.paragraph) :
    Wordml.ownTexts document paragraph.id = freeTextsAll document paragraph.children := by
  have nodup := (List.nodup_append.mp (Document.holds_fill_iff.mp holds).nodup).2.1
  have own : Wordml.ownTexts document paragraph.id =
      (idsAll paragraph.children).filter (belongs document (some paragraph.id)) := by
    rw [Wordml.ownTexts, Document.findAll, holds.descendants, List.filter_filter]
    apply List.filter_congr
    intro id _
    rw [belongs, Bool.and_comm]
  cases paragraph with
  | node id children =>
      rw [Outline.id_node] at isParagraph own
      rw [Outline.id_node, own, Outline.children_node]
      simp only [idsAll, Outline.ids, List.append_nil, List.nodup_cons] at nodup
      have found : document.isAny [Wordml.paragraph] id = true := Document.isAny_singleton.mpr isParagraph
      rw [filter_belongs_children context (some id) id children, Context.closest?,
        if_pos found, if_pos rfl]
      rintro front child back rfl
      refine belongsFree child (Context.holds_child holds) fun inner member same => nodup.1 ?_
      rw [Option.some.inj same, Outline.mem_idsAll]
      exact ⟨child, by simp, member⟩

end Owners

end Filling

/-! Ways down to a node -/

namespace Markup

/-- The subtree that positions among children lead to. -/
def Outline.at? : List Nat → Outline → Option Outline
  | [], outline => some outline
  | position :: path, .node _ children => children[position]?.bind (at? path)

theorem Outline.id_mem_of_at? {path : List Nat} {outline found : Outline}
    (leads : outline.at? path = some found) : found.id ∈ outline.ids := by
  induction path generalizing outline with
  | nil =>
      rw [at?, Option.some.injEq] at leads
      exact leads ▸ outline.id_mem_ids
  | cons position path ih =>
      cases outline with
      | node id children =>
          rw [at?, Option.bind_eq_some_iff] at leads
          obtain ⟨child, here, below⟩ := leads
          rw [ids, List.mem_cons, mem_idsAll]
          exact .inr ⟨child, List.mem_of_getElem? here, ih below⟩

namespace Document

variable {document : Document} {context : Context}

theorem follow?_eq {outline : Outline} (holds : document.Holds (context.fill [outline]))
    (path : List Nat) : document.follow? outline.id path = (outline.at? path).map Outline.id := by
  induction path generalizing context outline with
  | nil => rfl
  | cons position path ih =>
      have children := (holds_fill_iff.mp holds).top.children
      cases outline with
      | node id children' =>
          rw [Outline.id_node, Outline.children_node] at children
          rw [Outline.id_node, follow?, children, List.getElem?_map, Outline.at?]
          cases here : children'[position]? with
          | none => rfl
          | some child =>
              obtain ⟨front, back, rfl⟩ := List.append_of_mem (List.mem_of_getElem? here)
              have inner : document.Holds ((Context.under context front back id).fill [child]) := by
                simpa [Context.fill] using holds
              exact ih inner

theorem path?_of_closest? (sound : document.Sound) {tags : List String} {id found : NodeId}
    (live : document.isLive id = true) (closest : document.closest? id tags = some found) :
    ∃ path, document.path? found id = some path := by
  rw [closest?] at closest
  rw [path?]
  generalize document.size + 1 = depth at closest
  induction depth generalizing id with
  | zero => simp [closestTo?] at closest
  | succ depth ih =>
      rw [pathTo?]
      split
      · exact ⟨[], rfl⟩
      · rename_i apart
        rw [closestTo?] at closest
        split at closest
        · exact absurd (Option.some.inj closest) apart
        · obtain ⟨parent, above, further⟩ := Option.bind_eq_some_iff.mp closest
          have listed := sound.wellFormed.lists live above
          obtain ⟨path, leads⟩ := ih (sound.wellFormed.parent_live listed) further
          obtain ⟨position, here⟩ : ∃ position,
              (document.children parent).idxOf? id = some position := by
            rw [← Option.isSome_iff_exists, List.isSome_idxOf?]
            exact listed
          simp [place?, above, here, leads]

end Document

end Markup

namespace Filling

open Document (follow?_eq)

section Twins

variable {first second : Document}

/-- Two texts of two documents stand at the same place among texts that say the same. -/
structure Twins (first second : Document) (ids others : List NodeId) (id twin : NodeId) : Prop where
  same : ∃ front back front' back' : List NodeId,
    ids = front ++ id :: back ∧ others = front' ++ twin :: back' ∧
      front.map first.text = front'.map second.text ∧ back.map first.text = back'.map second.text

theorem Twins.append {ids others : List NodeId} {id twin : NodeId}
    (twins : Twins first second ids others id twin) {before before' after after' : List NodeId}
    (ahead : before.map first.text = before'.map second.text)
    (behind : after.map first.text = after'.map second.text) :
    Twins first second (before ++ ids ++ after) (before' ++ others ++ after') id twin := by
  obtain ⟨front, back, front', back', rfl, rfl, sameFront, sameBack⟩ := twins.same
  exact ⟨before ++ front, back ++ after, before' ++ front', back' ++ after', by simp, by simp,
    by simp [ahead, sameFront], by simp [behind, sameBack]⟩

theorem Twins.split {front back others : List NodeId} {id twin : NodeId}
    (twins : Twins first second (front ++ id :: back) others id twin)
    (nodup : (front ++ id :: back).Nodup) :
    ∃ front' back' : List NodeId, others = front' ++ twin :: back' ∧
      front'.map second.text = front.map first.text ∧ back'.map second.text = back.map first.text := by
  obtain ⟨front₁, back₁, front', back', whole, rfl, sameFront, sameBack⟩ := twins.same
  obtain ⟨_, nodupBack, apart⟩ := List.nodup_append.mp nodup
  have notFront : id ∉ front := fun member => apart id member id (by simp) rfl
  obtain ⟨rfl, _, rfl⟩ :=
    (List.append_cons_inj_of_notMem notFront (List.nodup_cons.mp nodupBack).1).mp whole
  exact ⟨front', back', rfl, sameFront.symm, sameBack.symm⟩

theorem map_text_congr {outlines others : List Outline}
    (same : toTrees first outlines = toTrees second others) :
    (freeTextsAll first outlines).map first.text = (freeTextsAll second others).map second.text := by
  rw [map_text_freeTextsAll, map_text_freeTextsAll, same]

theorem tag_eq_of_toTree {outline other : Outline} (same : outline.toTree first = other.toTree second) :
    first.tag outline.id = second.tag other.id := by
  rw [← Outline.tag_toTree, ← Outline.tag_toTree, same]

theorem freeTexts_of_text {outline : Outline} (isText : first.tag outline.id = Wordml.text) :
    freeTexts first outline = outline.id :: freeTextsAll first outline.children := by
  cases outline with
  | node id children =>
      have tag : first.tag id = Wordml.text := isText
      rw [freeTexts_of_other (by rw [tag]; exact text_ne_paragraph), if_pos tag]
      rfl

theorem isText_of_free {outline : Outline} (nodup : outline.ids.Nodup)
    (free : outline.id ∈ freeTexts first outline) : first.tag outline.id = Wordml.text := by
  cases outline with
  | node id children =>
      by_contra notText
      rw [Outline.id_node] at notText free
      rw [freeTexts] at free
      split at free
      · simp at free
      · rw [List.nil_append] at free
        exact (List.nodup_cons.mp nodup).1 ((sublist_freeTextsAll first children).subset free)

theorem mem_freeTextsAll_of_ne {id other : NodeId} {children : List Outline} (apart : other ≠ id)
    (free : other ∈ freeTexts first (.node id children)) :
    first.tag id ≠ Wordml.paragraph ∧ other ∈ freeTextsAll first children := by
  rw [freeTexts] at free
  split at free
  · simp at free
  · rename_i notParagraph
    refine ⟨notParagraph, (List.mem_append.mp free).resolve_left fun own => ?_⟩
    split at own
    · exact apart (List.mem_singleton.mp own)
    · simp at own

theorem mem_freeTexts_of_nodup {front back : List Outline} {child : Outline} {id : NodeId}
    (nodup : (idsAll (front ++ child :: back)).Nodup) (inside : id ∈ child.ids)
    (free : id ∈ freeTextsAll first (front ++ child :: back)) : id ∈ freeTexts first child := by
  rw [Outline.idsAll_append, Outline.idsAll] at nodup
  obtain ⟨-, nodupBack, apart⟩ := List.nodup_append.mp nodup
  obtain ⟨-, -, apartBack⟩ := List.nodup_append.mp nodupBack
  rw [freeTextsAll_append, freeTextsAll, List.mem_append, List.mem_append] at free
  rcases free with ahead | here | behind
  · exact absurd rfl (apart id ((sublist_freeTextsAll first front).subset ahead) id
      (List.mem_append_left _ inside))
  · exact here
  · exact absurd rfl (apartBack id inside id ((sublist_freeTextsAll first back).subset behind))

theorem nodup_of_mem {front back : List Outline} {child : Outline}
    (nodup : (idsAll (front ++ child :: back)).Nodup) : child.ids.Nodup := by
  rw [Outline.idsAll_append, Outline.idsAll] at nodup
  exact (List.nodup_append.mp (List.nodup_append.mp nodup).2.1).1

theorem exists_split_of_getElem? {α : Type} {items : List α} {position : Nat} {item : α}
    (here : items[position]? = some item) :
    ∃ front back, items = front ++ item :: back ∧ front.length = position := by
  obtain ⟨bound, rfl⟩ := List.getElem?_eq_some_iff.mp here
  exact ⟨items.take position, items.drop (position + 1),
    by rw [List.getElem_cons_drop, List.take_append_drop], by rw [List.length_take]; omega⟩

theorem exists_counterpart {front back others : List Outline} {child : Outline}
    (same : toTrees first (front ++ child :: back) = toTrees second others) :
    ∃ front' child' back', others = front' ++ child' :: back' ∧ front'.length = front.length ∧
      toTrees first front = toTrees second front' ∧ child.toTree first = child'.toTree second ∧
      toTrees first back = toTrees second back' := by
  rw [Outline.toTrees_append, Outline.toTrees, Outline.toTrees_eq second, eq_comm,
    List.map_eq_append_iff] at same
  obtain ⟨front', rest, rfl, ahead, behind⟩ := same
  obtain ⟨child', back', rfl, here, after⟩ := List.map_eq_cons_iff.mp behind
  refine ⟨front', child', back', rfl, ?_, ?_, here.symm, ?_⟩
  · have length := congrArg List.length ahead
    rwa [List.length_map, Outline.toTrees_eq, List.length_map] at length
  · rw [Outline.toTrees_eq second, ahead]
  · rw [Outline.toTrees_eq second, after]

theorem Twins.among {front back front' back' : List Outline} {child child' : Outline} {id twin : NodeId}
    (twins : Twins first second (freeTexts first child) (freeTexts second child') id twin)
    (ahead : toTrees first front = toTrees second front')
    (behind : toTrees first back = toTrees second back') :
    Twins first second (freeTextsAll first (front ++ child :: back))
      (freeTextsAll second (front' ++ child' :: back')) id twin := by
  simpa [freeTextsAll_append, freeTextsAll] using
    twins.append (map_text_congr ahead) (map_text_congr behind)

/-- In forests that hold the same trees, a way that leads to a free text in one of them leads to its twin
in the other. -/
theorem twins_of_at? {path : List Nat} {position : Nat} {outlines others : List Outline}
    {found : Outline} (same : toTrees first outlines = toTrees second others)
    (leads : outlines[position]?.bind (Outline.at? path) = some found)
    (nodup : (idsAll outlines).Nodup) (free : found.id ∈ freeTextsAll first outlines) :
    ∃ twin, others[position]?.bind (Outline.at? path) = some twin ∧
      Twins first second (freeTextsAll first outlines) (freeTextsAll second others) found.id twin.id := by
  induction path generalizing position outlines others with
  | nil =>
      obtain ⟨child, here, isFound⟩ := Option.bind_eq_some_iff.mp leads
      obtain ⟨front, back, rfl, rfl⟩ := exists_split_of_getElem? here
      obtain rfl : child = found := Option.some.inj isFound
      obtain ⟨front', child', back', rfl, length, ahead, same, behind⟩ := exists_counterpart same
      have isText := isText_of_free (nodup_of_mem nodup) (mem_freeTexts_of_nodup nodup child.id_mem_ids free)
      refine ⟨child', by simp [← length, Outline.at?], Twins.among ?_ ahead behind⟩
      rw [freeTexts_of_text isText, freeTexts_of_text ((tag_eq_of_toTree same).symm.trans isText)]
      refine ⟨[], _, [], _, rfl, rfl, rfl, map_text_congr ?_⟩
      cases child
      cases child'
      exact (Tree.node.inj same).2
  | cons next path ih =>
      obtain ⟨child, here, below⟩ := Option.bind_eq_some_iff.mp leads
      obtain ⟨front, back, rfl, rfl⟩ := exists_split_of_getElem? here
      obtain ⟨front', child', back', rfl, length, ahead, same, behind⟩ := exists_counterpart same
      have inside := mem_freeTexts_of_nodup nodup (Outline.id_mem_of_at? below) free
      have tag := tag_eq_of_toTree same
      have childNodup := nodup_of_mem nodup
      cases child with
      | node id children =>
          cases child' with
          | node id' children' =>
              obtain ⟨fresh, inner⟩ := List.nodup_cons.mp childNodup
              have apart : found.id ≠ id := by
                rintro rfl
                rw [Outline.at?, Option.bind_eq_some_iff] at below
                obtain ⟨deeper, listed, further⟩ := below
                exact fresh (Outline.mem_idsAll.mpr
                  ⟨deeper, List.mem_of_getElem? listed, Outline.id_mem_of_at? further⟩)
              obtain ⟨notParagraph, free⟩ := mem_freeTextsAll_of_ne apart inside
              obtain ⟨twin, leads, twins⟩ := ih (Tree.node.inj same).2 below inner free
              refine ⟨twin, by simpa [← length, Outline.at?] using leads, Twins.among ?_ ahead behind⟩
              rw [Outline.id_node, Outline.id_node] at tag
              rw [freeTexts_of_other notParagraph, freeTexts_of_other (tag ▸ notParagraph), ← tag]
              have own : (if first.tag id = Wordml.text then [id] else []).map first.text =
                  (if first.tag id = Wordml.text then [id'] else []).map second.text := by
                split
                · exact congrArg (fun element : Element => [element.text]) (Tree.node.inj same).1
                · rfl
              have none : ([] : List NodeId).map first.text = ([] : List NodeId).map second.text := rfl
              simpa only [List.append_nil] using twins.append own none

/-- A way from a paragraph to a text that it owns leads from a copy of the paragraph to a text that the copy
owns, at the same place. -/
theorem twins_ownTexts {context context' : Context} {paragraph copy : Outline}
    (holds : first.Holds (context.fill [paragraph])) (copied : second.Holds (context'.fill [copy]))
    (same : paragraph.toTree first = copy.toTree second)
    (isParagraph : first.tag paragraph.id = Wordml.paragraph) {id : NodeId} {path : List Nat}
    (leads : first.follow? paragraph.id path = some id)
    (own : id ∈ Wordml.ownTexts first paragraph.id) :
    ∃ twin, second.follow? copy.id path = some twin ∧
      Twins first second (Wordml.ownTexts first paragraph.id) (Wordml.ownTexts second copy.id) id twin := by
  have isCopy : second.tag copy.id = Wordml.paragraph := (tag_eq_of_toTree same).symm.trans isParagraph
  have nodup := (List.nodup_append.mp (Document.holds_fill_iff.mp holds).nodup).2.1
  rw [ownTexts_eq holds isParagraph] at own ⊢
  rw [ownTexts_eq copied isCopy, follow?_eq copied]
  rw [follow?_eq holds, Option.map_eq_some_iff] at leads
  obtain ⟨found, leads, rfl⟩ := leads
  cases paragraph with
  | node top children =>
      cases copy with
      | node top' children' =>
          simp only [idsAll, Outline.ids, List.append_nil, List.nodup_cons] at nodup
          cases path with
          | nil =>
              rw [Outline.at?, Option.some.injEq] at leads
              subst leads
              exact absurd ((sublist_freeTextsAll first children).subset own) nodup.1
          | cons position path =>
              obtain ⟨twin, leads, twins⟩ :=
                twins_of_at? (Tree.node.inj same).2 leads nodup.2 own
              exact ⟨twin.id, Option.map_eq_some_iff.mpr ⟨twin, leads, rfl⟩, twins⟩

end Twins

end Filling

end WordTemplate
