import WordTemplate.Proofs.Filling.Dressing
import WordTemplate.Proofs.Filling.Expansion
import WordTemplate.Proofs.Filling.Repeats
import WordTemplate.Proofs.Filling.Substituting
import WordTemplate.Proofs.Wordml.Upright

/-! The passes that fill a document leave it upright. Triggers take out rows, cells, tables, paragraphs,
texts and what holds a text, and none of these is the root; copies of rows and inserts are put behind nodes
that stand below the root. -/

namespace WordTemplate.Filling

open Markup
open Outline (idsAll)
open Wordml (Upright Upholds)

variable {params : Params} {document : Document} {others : List Outline}

theorem upholds_markLists (upright : Upright [] document) : Upholds document (markLists document) :=
  .rewritten upright (marks_markLists document).rewritten fun id =>
    (marks_markLists document).distinct id (upright.keys id)

theorem upholds_stripMarks (upright : Upright [] document) : Upholds document (stripMarks document) :=
  .removeAttributeDeep upright _ _

section Triggers

theorem ne_root_of_mem_listMembers (upright : Upright [] document) {id member : NodeId}
    (apart : id ≠ document.root) (listed : member ∈ listMembers document id) :
    member ≠ document.root := by
  rw [listMembers] at listed
  split at listed
  · have isParagraph := (List.mem_filter.mp listed).2
    simp only [Bool.and_eq_true, decide_eq_true_eq] at isParagraph
    exact upright.ne_root_of_tag (by decide) isParagraph.1
  · exact List.mem_singleton.mp listed ▸ apart

theorem ne_root_of_mem_targets (upright : Upright [] document) {origin target : NodeId}
    {scope : Trigger.Scope} (apart : origin ≠ document.root)
    (aimed : target ∈ targets document origin scope) : target ≠ document.root := by
  cases scope with
  | placeholder =>
      rw [targets, List.mem_singleton] at aimed
      subst aimed
      cases closest : document.closest? origin [Wordml.text] with
      | none => exact apart
      | some found => exact upright.ne_root_of_closest? (by decide) closest
  | cell => exact upright.ne_root_of_closest? (by decide) (Option.mem_toList.mp aimed)
  | row =>
      rcases Option.or_eq_some_iff.mp (Option.mem_toList.mp aimed) with found | ⟨-, found⟩
      · exact upright.ne_root_of_closest? (by decide) found
      · exact upright.ne_root_of_closest? (by decide) found
  | list =>
      rw [targets] at aimed
      split at aimed
      · rename_i paragraph closest
        split at aimed
        · exact ne_root_of_mem_listMembers upright (upright.ne_root_of_closest? (by decide) closest) aimed
        · simp at aimed
      · simp at aimed
  | table => exact upright.ne_root_of_closest? (by decide) (Option.mem_toList.mp aimed)
  | block =>
      rw [targets] at aimed
      split at aimed
      · rename_i table closest
        exact List.mem_singleton.mp aimed ▸ upright.ne_root_of_closest? (by decide) closest
      · split at aimed
        · rename_i paragraph closest
          exact ne_root_of_mem_listMembers upright (upright.ne_root_of_closest? (by decide) closest) aimed
        · simp at aimed

theorem upholds_evaluate (upright : Upright [] document) {origin : NodeId}
    (apart : origin ≠ document.root) (trigger : Trigger) (value : String) :
    Upholds document (evaluate document origin trigger value).1 := by
  rw [evaluate]
  split
  · refine .foldl upright fun middle upholds target member => ?_
    have below := ne_root_of_mem_targets upright apart member
    rw [← upholds.ages.root] at below
    cases trigger.command with
    | remove => exact .delete upholds.upright below
    | clear => exact .clearTextDeep upholds.upright target
  · exact .refl upright

structure Firing.Below (root : NodeId) (firing : Firing) : Prop where
  text : firing.text ≠ root
  holder : firing.holder ≠ some root

theorem upholds_evaluateAll (upright : Upright [] document) {firings : List Firing}
    (below : ∀ firing ∈ firings, firing.Below document.root) :
    Upholds document (Firing.evaluateAll document firings) := by
  refine .foldl upright fun middle upholds firing member => ?_
  have inside := below firing member
  rw [← upholds.ages.root] at inside
  rw [Firing.evaluate]
  split
  · rename_i origin seen
    refine upholds_evaluate upholds.upright ?_ _ _
    split at seen
    · exact Option.some.inj seen ▸ inside.text
    · rintro rfl
      exact inside.holder seen
  · exact .refl upholds.upright

theorem below_of_text (upright : Upright [] document) {id : NodeId}
    (isText : document.tag id = Wordml.text) (live : document.isLive id = true) {trigger : Trigger}
    {value : String} : Firing.Below document.root ⟨id, document.parent? id, trigger, value⟩ :=
  ⟨upright.ne_root_of_text isText, upright.parent_ne_root isText live⟩

theorem upholds_sweepUnset (upright : Upright [] document) (params : Params) :
    Upholds document (sweepUnset document params) := by
  refine .foldl upright fun middle upholds (id, trigger) member => ?_
  obtain ⟨text, listed, unset⟩ := List.mem_flatMap.mp member
  obtain ⟨placeholder, _, found⟩ := List.mem_filterMap.mp unset
  have same : text = id := by
    split at found
    · obtain ⟨_, _, pair⟩ := Option.map_eq_some_iff.mp found
      exact congrArg Prod.fst pair
    · simp at found
  subst same
  refine upholds_evaluate upholds.upright ?_ _ _
  rw [upholds.ages.root]
  exact upright.ne_root (by decide) (List.mem_filter.mp listed).2

end Triggers

section Inserts

structure Deep (document : Document) (id : NodeId) : Prop where
  live : document.isLive id = true
  apart : id ≠ document.root
  parent : document.parent? id ≠ some document.root

structure Brings (others : List Outline) (document : Document) (result : Document × List NodeId)
    (trees : List Outline) : Prop where
  ids : trees.map Outline.id = result.2
  upright : Upright (trees ++ others) result.1
  root : result.1.root = document.root
  new : ∀ id ∈ idsAll trees, document.size ≤ id
  old : ∀ id : Nat, id < document.size → result.1.node id = document.node id

theorem brings_nothing (upright : Upright others document) : Brings others document (document, []) [] :=
  ⟨rfl, upright, rfl, by simp [idsAll], fun _ _ => rfl⟩

theorem brings_graftAll (upright : Upright others document) {source : Document} (keys : source.KeysApart)
    {ids : List NodeId} (live : ∀ id ∈ ids, source.isLive id = true) :
    ∃ trees, Brings others document (document.graftAll source ids) trees := by
  induction ids generalizing document others with
  | nil => exact ⟨[], brings_nothing upright⟩
  | cons id rest ih =>
      obtain ⟨here, later⟩ := List.forall_mem_cons.mp live
      have ages := Document.ages_graft document source id
      obtain ⟨trees, brings⟩ := ih (upright.graft keys here) later
      refine ⟨(source.liveTree id).outline document.size :: trees, ?_, brings.upright.perm (by simp),
        brings.root.trans ages.root, fun other member => ?_, fun other bound => ?_⟩
      · simp only [List.map_cons, Tree.id_outline, brings.ids, Document.graftAll]
        rfl
      · rw [idsAll, List.mem_append] at member
        rcases member with first | further
        · rw [Tree.ids_outline, List.mem_range'_1] at first
          exact first.1
        · exact Nat.le_trans ages.size_le (brings.new other further)
      · refine (brings.old other (Nat.lt_of_lt_of_le bound ages.size_le)).trans ?_
        rw [Document.graft_of_isLive document here]
        exact Document.node_push_of_lt _ bound

theorem brings_text (upright : Upright others document) (content : String) :
    Brings others document
      (Wordml.preserveSpace ((document.createElement Wordml.text).1.setText document.size content)
        document.size, [document.size]) [.node document.size []] := by
  have distinct : (Markup.Tree.node { tag := Wordml.text } []).Distinct := by
    intro element member
    rw [Tree.elements, Tree.elementsAll, List.mem_singleton] at member
    exact member ▸ distinctKeys_nil
  have created : Upright (.node document.size [] :: others) (document.createElement Wordml.text).1 :=
    upright.push false _ distinct
  have old (id : Nat) (bound : id < document.size) :
      (document.createElement Wordml.text).1.node id = document.node id :=
    Document.node_push_of_lt [{ tag := Wordml.text }] bound
  have root : (document.createElement Wordml.text).1.root = document.root := rfl
  generalize (document.createElement Wordml.text).1 = fresh at created old root ⊢
  refine ⟨rfl, (created.setText document.size content).preserveSpace document.size, ?_,
    by simp [idsAll, Outline.ids], fun id bound => ?_⟩
  · exact ((ages_setText _ _ content).trans (ages_preserveSpace _ document.size)).root.trans root
  · have apart : id ≠ document.size := Nat.ne_of_lt bound
    rw [node_preserveSpace_of_ne _ apart, node_setText_of_ne _ apart, old id bound]

theorem brings_insertNodes (upright : Upright others document) (insert : Insert) :
    ∃ trees, Brings others document (insertNodes document insert) trees := by
  cases insert with
  | text content =>
      rw [insertNodes]
      split
      · exact ⟨[], brings_nothing upright⟩
      · exact ⟨_, brings_text upright content⟩
  | markup content =>
      rw [insertNodes]
      split
      · rename_i fragment parsed
        have sound := (Document.Opened.parseFragment parsed).sound
        exact brings_graftAll upright (Document.distinctKeys_of_parseFragment parsed)
          fun id listed => sound.wellFormed.child_live listed
      · exact ⟨[], brings_nothing upright⟩

/-- Trees from beside are put behind a deep node, one after the other, and each of them stands deep. -/
theorem upholds_placeAfter {trees : List Outline} (upright : Upright trees document) {anchor : NodeId}
    (deep : Deep document anchor) (outside : anchor ∉ idsAll trees) :
    Upholds document (placeAfter document anchor (trees.map Outline.id)).1 ∧
      Deep (placeAfter document anchor (trees.map Outline.id)).1
        (placeAfter document anchor (trees.map Outline.id)).2 := by
  -- The tree that has been put is the anchor of the next one.
  induction trees generalizing document anchor with
  | nil => exact ⟨.refl upright, deep⟩
  | cons tree rest ih =>
      have ages := Document.ages_insertAfter document anchor tree.id
      have placed := upright.insertAfter deep.live outside deep.apart fun _ => deep.parent
      obtain ⟨root, top, holds⟩ := upright.stands
      have beside : document.Holds ((Context.top [] (rest ++ [root])).fill [tree]) := holds
      have inside := (Document.holds_fill_iff.mp beside).top
      rw [← Outline.node_eta tree] at inside
      have nodup := holds.nodup
      rw [List.cons_append, idsAll, List.nodup_append] at nodup
      have elsewhere : ∀ id ∈ idsAll (rest ++ [root]), tree.id ≠ id :=
        nodup.2.2 tree.id tree.id_mem_ids
      have next : Deep (document.insertAfter anchor tree.id).1 tree.id := by
        refine ⟨?_, ?_, fun above => ?_⟩
        · rw [isLive_insertAfter]
          exact inside.live
        · rw [ages.root, ← top]
          exact elsewhere root.id (Outline.mem_idsAll.mpr ⟨root, by simp, root.id_mem_ids⟩)
        · rw [ages.root] at above
          have live : (document.insertAfter anchor tree.id).1.isLive tree.id = true := by
            rw [isLive_insertAfter]
            exact inside.live
          rcases Document.mem_children_insertAfter (placed.sound.wellFormed.lists live above) with
            old | ⟨-, above⟩
          · have parent : document.parent? tree.id = _ := upright.sound.wellFormed.above old
            rw [show document.parent? tree.id = none from inside.parent] at parent
            simp at parent
          · exact deep.parent above
      have apart : tree.id ∉ idsAll rest := fun member => by
        refine elsewhere tree.id ?_ rfl
        rw [Outline.idsAll_append, List.mem_append]
        exact .inl member
      obtain ⟨upholds, last⟩ := ih placed next apart
      exact ⟨⟨ages.trans upholds.ages, upholds.upright⟩, last⟩

theorem upholds_spliceAfter (upright : Upright [] document) {anchor : NodeId}
    (deep : Deep document anchor) (inserts : List Insert) :
    Upholds document (spliceAfter document anchor inserts) := by
  induction inserts generalizing document anchor with
  | nil => exact .refl upright
  | cons insert rest ih =>
      obtain ⟨trees, brings⟩ := brings_insertNodes upright insert
      have ages := ages_insertNodes document insert
      have bound := Document.lt_size_of_isLive deep.live
      have same := brings.old anchor bound
      have still : Deep (insertNodes document insert).1 anchor := by
        refine ⟨?_, brings.root ▸ deep.apart, ?_⟩
        · rw [Document.isLive, same]
          exact deep.live
        · rw [Document.parent?, same, brings.root]
          exact deep.parent
      have outside : anchor ∉ idsAll trees := fun member =>
        Nat.not_le.mpr bound (brings.new anchor member)
      have beside : Upright trees (insertNodes document insert).1 := by
        simpa using brings.upright
      obtain ⟨placed, last⟩ := upholds_placeAfter beside still outside
      rw [brings.ids] at placed last
      have next := ih placed.upright last
      exact ⟨(ages.trans placed.ages).trans next.ages, next.upright⟩

theorem upholds_fillText (upright : Upright [] document) (params : Params) {id : NodeId}
    (isText : document.tag id = Wordml.text) (live : document.isLive id = true) :
    Upholds document (fillText document params id) := by
  have apart := upright.ne_root_of_text isText
  have deep : Deep document id := ⟨live, apart, upright.parent_ne_root isText live⟩
  rw [fillText]
  simp only
  split
  · split
    · have spliced := upholds_spliceAfter upright deep
        (joinTexts ((Piece.ofText (document.text id)).map (insertOf params)))
      exact spliced.trans (.delete spliced.upright (spliced.ages.root ▸ apart))
    · have written := Upholds.setText upright id
        (String.join (((Piece.ofText (document.text id)).map (insertOf params)).map Insert.content))
      exact written.trans (.preserveSpace written.upright id)
  · exact .refl upright

structure Noted (first : Document) (state : Document × List Firing) : Prop where
  upholds : Upholds first state.1
  below : ∀ firing ∈ state.2, firing.Below first.root

theorem noted_fillNode {middle : Document} {firings : List Firing}
    (noted : Noted document (middle, firings)) {id : NodeId} (live : middle.isLive id = true) :
    Noted document ((fillNode params middle firings id).1, (fillNode params middle firings id).2.1) := by
  obtain ⟨upholds, below⟩ := noted
  have valued : Upholds middle (fillAttributes middle params id) := .mapValues upholds.upright id _
  have links := sameLinks_fillAttributes middle params id
  have still : (fillAttributes middle params id).isLive id = true := (links.isLive id).trans live
  simp only [fillNode]
  split
  · rename_i isText
    refine ⟨(upholds.trans valued).trans (upholds_fillText valued.upright params isText still), ?_⟩
    intro firing member
    rcases List.mem_append.mp member with early | late
    · exact below firing early
    · obtain ⟨placeholder, _, found⟩ := List.mem_filterMap.mp late
      obtain ⟨value, _, found⟩ := Option.bind_eq_some_iff.mp found
      obtain ⟨trigger, _, found⟩ := Option.bind_eq_some_iff.mp found
      cases found
      rw [← (upholds.trans valued).ages.root]
      exact below_of_text valued.upright isText still
  · exact ⟨upholds.trans valued, below⟩

theorem upholds_fillSingles (upright : Upright [] document) (params : Params) :
    Upholds document (fillSingles document params) := by
  have begun : Upholds document (fillAttributes document params document.root) :=
    .mapValues upright _ _
  have walked : Noted document ((fillAttributes document params document.root).walk document.root
      (fillNode params) []) :=
    Document.walk_induction (fun _ _ _ live noted => noted_fillNode noted live) document.root
      ⟨begun, by simp⟩
  refine walked.upholds.trans (upholds_evaluateAll walked.upholds.upright fun firing member => ?_)
  rw [walked.upholds.ages.root]
  exact walked.below firing member

theorem upholds_fillInline (upright : Upright [] document) (params : Params) :
    Upholds document (fillInline document params) := by
  have filled : Upholds document
      ((document.findAll document.root [Wordml.text]).foldl (fillInlineText params) document) := by
    refine .foldl upright fun middle upholds id _ => ?_
    rw [fillInlineText]
    simp only
    split
    · exact (Upholds.setText upholds.upright id _).trans
        (.preserveSpace (Upholds.setText upholds.upright id _).upright id)
    · exact .refl upholds.upright
  refine filled.trans (upholds_evaluateAll filled.upright fun firing member => ?_)
  obtain ⟨id, listed, noted⟩ := List.mem_flatMap.mp member
  obtain ⟨placeholder, _, found⟩ := List.mem_filterMap.mp noted
  obtain ⟨value, _, found⟩ := Option.bind_eq_some_iff.mp found
  obtain ⟨trigger, _, found⟩ := Option.bind_eq_some_iff.mp found
  cases found
  rw [filled.ages.root]
  refine below_of_text upright (by simpa [Document.isAny] using (List.mem_filter.mp listed).2) ?_
  exact (((upright.sound.descendants document.root).2 id).mp (List.mem_filter.mp listed).1).1

end Inserts

section Rows

theorem upholds_indexSubtree (upright : Upright [] document) (lists : List Param) (position : Nat)
    (id : NodeId) : Upholds document (indexSubtree params lists position document id) := by
  refine .foldl upright fun middle upholds other _ => ?_
  rw [indexNode]
  split
  · have written := Upholds.setText upholds.upright other
      (indexText params lists position (middle.text other))
    exact written.trans (.mapValues written.upright other _)
  · exact .mapValues upholds.upright other _

theorem upholds_placeCopy (upright : Upright [] document) {row anchor : NodeId}
    (notText : document.tag row ≠ Wordml.text) (rowLive : document.isLive row = true)
    (anchorLive : document.isLive anchor = true) (below : anchor ≠ document.root) :
    Upholds document ((document.cloneSubtree row).1.insertAfter anchor document.size).1 := by
  have bound := Document.lt_size_of_isLive anchorLive
  have ages := Document.ages_cloneSubtree document row
  have cloned : Upright [(document.liveTree row).outline document.size] (document.cloneSubtree row).1 :=
    upright.graft upright.keys rowLive
  have outside : anchor ∉ idsAll [(document.liveTree row).outline document.size] := by
    intro member
    simp only [idsAll, List.append_nil, Tree.ids_outline, List.mem_range'_1] at member
    exact Nat.not_le.mpr bound member.1
  have tag : (document.cloneSubtree row).1.tag document.size = document.tag row :=
    congrArg Element.tag (Document.toElement_graft_top document document row)
  have placed := cloned.insertAfter ((isLive_cloneSubtree bound).trans anchorLive) outside
    (by rw [ages.root]; exact below) (fun isText => by
      rw [Tree.id_outline] at isText
      exact absurd (tag.symm.trans isText) notText)
  rw [Tree.id_outline] at placed
  exact ⟨ages.trans (Document.ages_insertAfter (document.cloneSubtree row).1 anchor document.size),
    placed⟩

theorem upholds_copied (upright : Upright [] document) (lists : List Param) {row anchor : NodeId}
    (notText : document.tag row ≠ Wordml.text) (rowLive : document.isLive row = true)
    (anchorLive : document.isLive anchor = true) (below : anchor ≠ document.root) (position : Nat) :
    Upholds document (copied params lists row document anchor position) := by
  have placed := upholds_placeCopy upright notText rowLive anchorLive below
  exact placed.trans (upholds_indexSubtree placed.upright lists position document.size)

theorem upholds_copyRow (upright : Upright [] document) (lists : List Param) {row anchor : NodeId}
    (notText : document.tag row ≠ Wordml.text) (rowLive : document.isLive row = true)
    (anchorLive : document.isLive anchor = true) (below : anchor ≠ document.root) (positions : List Nat) :
    Upholds document (copyRow params lists row document anchor positions).1 := by
  induction positions generalizing document anchor with
  | nil => exact .refl upright
  | cons position rest ih =>
      rw [copyRow_cons]
      have rowBound := Document.lt_size_of_isLive rowLive
      have step : Upholds document (copied params lists row document anchor position) :=
        upholds_copied upright lists notText rowLive anchorLive below position
      refine step.trans (ih step.upright ?_ ?_ (isLive_copy rowLive position) ?_)
      · rw [step.ages.tag row rowBound]
        exact notText
      · rw [isLive_copied position rowBound, rowLive]
      · rw [step.ages.root]
        exact (Nat.ne_of_lt (Document.lt_size_of_isLive upright.live)).symm

theorem upholds_expandRow? (upright : Upright [] document) {ownership : Ownership} {row : NodeId}
    (isRow : document.isAny rowTags row = true) {next : Document × List NodeId}
    (expanded : expandRow? params ownership document row = some next) : Upholds document next.1 := by
  have below := upright.ne_root (by decide) isRow
  have notText : document.tag row ≠ Wordml.text := fun isText => by
    rw [Document.isAny, isText] at isRow
    exact absurd isRow (by decide)
  unfold expandRow? at expanded
  split at expanded
  · simp at expanded
  · rename_i lists repeats
    simp only [Option.some.injEq] at expanded
    subst expanded
    have live := isLive_of_rowLists upright.stands repeats
    have copied : Upholds document (copyRow params _ row document row _).1 :=
      upholds_copyRow upright (rowLists document params ownership row) notText live live below
        (List.range (((rowLists document params ownership row).map Param.itemCount).foldl max 0))
    generalize copyRow params (rowLists document params ownership row) row document row _ = result
      at copied ⊢
    exact copied.trans (.delete copied.upright (copied.ages.root ▸ below))

/-- Only rows own texts. -/
theorem isRow_of_expandRow? {row : NodeId} {next : Document × List NodeId}
    (expanded : expandRow? params .own document row = some next) :
    document.isAny rowTags row = true := by
  unfold expandRow? at expanded
  split at expanded
  · simp at expanded
  · rename_i lists repeats
    have owns : rowTexts document .own row ≠ [] := fun none => repeats (by simp [rowLists, none, distinct])
    obtain ⟨id, member⟩ := List.exists_mem_of_ne_nil _ owns
    have owner : owningRow? document id = some row := by
      simpa using (List.mem_filter.mp member).2
    rw [owningRow?, Option.or_eq_some_iff] at owner
    rcases owner with found | ⟨-, found⟩
    all_goals
      have tag := Document.isAny_of_closest? found
      rw [Document.isAny_singleton] at tag
      simp [Document.isAny, rowTags, tag]

theorem upholds_expandRows (upright : Upright [] document) (params : Params) :
    Upholds document (expandRows document params).1 :=
  expandRows_induction (fun _ _ _ expanded upholds =>
    upholds.trans (upholds_expandRow? upholds.upright (isRow_of_expandRow? expanded) expanded))
    (.refl upright)

end Rows

end WordTemplate.Filling
