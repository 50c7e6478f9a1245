import WordTemplate.Proofs.Filling.Unmatched
import WordTemplate.Proofs.Placeholder.Tidy
import WordTemplate.Proofs.Wordml.MergedTrees

/-! Repairing a document in which every marker is complete. Nothing is done but to join runs, and the tree
of the document is joined with it. -/

namespace WordTemplate

open Markup
open Markup.Outline (idsAll toTrees)
open Markup.Tree (elementsAll)
open Relation (ReflTransGen)

namespace Wordml

theorem opensFrom_of_braceless (depth : Nat) {text : List Char} (plain : Braceless text)
    (rest : List Char) : opensFrom depth (text ++ rest) = opensFrom depth rest := by
  induction text with
  | nil => rfl
  | cons c others ih =>
      obtain ⟨first, later⟩ := braceless_cons.mp plain
      have other : c ≠ '{' ∧ c ≠ '}' := by
        constructor <;>
        · rintro rfl
          exact absurd first (by decide)
      rw [List.cons_append, opensFrom_plain depth other.1 other.2, ih later]

theorem hasOpenMarker_of_tidy {content : String} (tidy : Placeholder.Tidy content) :
    hasOpenMarker content = false := by
  obtain ⟨pieces, whole, neat, -⟩ := Placeholder.filled_iff.mp tidy.filled
  rw [hasOpenMarker, ← whole]
  clear whole tidy
  induction pieces with
  | nil => rfl
  | cons piece rest ih =>
      have others := ih fun other member => neat other (by simp [member])
      have first := neat piece (by simp)
      rw [Piece.sources_cons, ← others]
      cases piece with
      | literal text => exact opensFrom_of_braceless 0 first _
      | marker placeholder =>
          have plain : Braceless placeholder.body := Placeholder.Proper.plain first
          have closed : opensFrom 0 (Piece.marker placeholder).source = false := by
            rw [Piece.source, Placeholder.toList_source]
            exact opensFrom_of_braceless 1 plain ['}', '}']
          exact opensFrom_append closed _

/-- Texts that leave no marker open are complete. -/
theorem complete_of_closed {texts : List String}
    (closed : ∀ text ∈ texts, hasOpenMarker text = false) : Complete texts := by
  induction texts with
  | nil => trivial
  | cons first rest ih =>
      obtain ⟨here, others⟩ := List.forall_mem_cons.mp closed
      exact ⟨fun opened => absurd (here.symm.trans opened) (by decide), ih others⟩

theorem Merged.append {trees others back back' : List Tree} (first : Merged trees others)
    (second : Merged back back') : Merged (trees ++ back) (others ++ back') := by
  induction first with
  | nil => exact second
  | node tag text inner _ _ ih => exact .node tag text inner ih
  | join isRun properties isText content _ ih => exact .join isRun properties isText content ih

theorem Merged.trees {trees others : List Tree} (joined : Merged trees others) (document : Document)
    (context : Context) : Merged (context.trees document trees) (context.trees document others) := by
  induction context generalizing trees others with
  | top before after => exact ((Merged.refl _).append joined).append (.refl _)
  | under outer before after id ih =>
      exact ih (.node rfl rfl (((Merged.refl _).append joined).append (.refl _)) .nil)

theorem merged_of_same {first second : Document} {outlines : List Outline}
    (same : ∀ id, second.tag id = first.tag id ∧ second.text id = first.text id) :
    Merged (toTrees first outlines) (toTrees second outlines) := by
  suffices ∀ outline : Outline, ∀ trees others, Merged trees others →
      Merged (outline.toTree first :: trees) (outline.toTree second :: others) by
    induction outlines with
    | nil => exact .nil
    | cons outline rest ih => exact this outline _ _ ih
  intro outline
  induction outline using Outline.induction with
  | node id children ih =>
      intro trees others next
      refine .node (same id).1 (same id).2 ?_ next
      clear next
      induction children with
      | nil => exact .nil
      | cons child rest inner =>
          exact ih child (by simp) _ _ (inner fun other member => ih other (by simp [member]))

theorem trees_congr {first second : Document} {context : Context}
    (same : ∀ id ∈ context.ids, (second.node id).toElement = (first.node id).toElement)
    (filling : List Tree) : context.trees second filling = context.trees first filling := by
  have mapped : (context.trees second filling).map (Markup.Tree.map id) =
      (context.trees first filling).map (Markup.Tree.map id) := Context.map_trees_congr same rfl
  rwa [show Markup.Tree.map id = id from funext Markup.Tree.map_id, List.map_id, List.map_id] at mapped

/-- A run with one text, as an outline. -/
theorem exists_of_soleText? {document : Document} {context : Context} {outline : Outline}
    (holds : document.Holds (context.fill [outline])) (plain : PlainTexts (outline.toTree document))
    {found : NodeId} (sole : soleText? document outline.id = some found) :
    ∃ front back, outline.children = front ++ .node found [] :: back ∧ document.tag found = text ∧
      ∀ child ∈ front ++ back, document.tag child.id = runProperties := by
  have children := (Document.holds_fill_iff.mp holds).top.children
  have isText := isText_of_soleText? sole
  have only : (document.children outline.id).filter
      (fun child => document.tag child != runProperties) = [found] := by
    unfold soleText? at sole
    split at sole
    · rename_i child only
      split at sole
      · cases sole
        exact only
      · simp at sole
    · simp at sole
  rw [children, List.filter_map] at only
  obtain ⟨inner, single, rfl⟩ := List.map_eq_singleton_iff.mp only
  obtain ⟨front, back, whole, before, -, after⟩ := List.filter_eq_cons_iff.mp single
  have leaf : inner.children = [] := by
    cases outline with
    | node id others =>
        have there := plain.2.2.2
        have listed : others = front ++ inner :: back := whole
        rw [listed, Outline.toTrees_append] at there
        obtain ⟨-, own, -⟩ := plainTextsAll_append.mp there
        cases inner with
        | node inner below =>
            have none : toTrees document below = [] := own.1 isText
            rw [Outline.toTrees_eq, List.map_eq_nil_iff] at none
            exact none
  refine ⟨front, back, ?_, isText, ?_⟩
  · rw [whole, ← Outline.node_eta inner, leaf]
    rfl
  · intro child member
    rcases List.mem_append.mp member with ahead | behind
    · simpa using before child ahead
    · rw [List.filter_eq_nil_iff] at after
      simpa using after child behind

theorem soleText?_congr {first second : Document} {id : NodeId}
    (children : second.children id = first.children id)
    (tag : ∀ id, second.tag id = first.tag id) : soleText? second id = soleText? first id := by
  rw [soleText?, soleText?, children]
  simp only [tag]

section Step

variable {document styled : Document} {context : Context} {scope : NodeId}
  {before rest front back : List Outline} {last child : Outline} {target : NodeId}

theorem holds_joined (holds : document.Holds
      (context.fill [.node scope (before ++ last :: child :: rest)]))
    (restyles : Restyles target document styled) :
    styled.Holds ((Context.under context (before ++ [last]) rest scope).fill [child]) ∧
      (styled.delete child.id).Holds (context.fill [.node scope (before ++ last :: rest)]) := by
  have whole : styled.Holds ((Context.under context (before ++ [last]) rest scope).fill [child]) := by
    simpa [Context.fill] using holds.congr restyles.rewritten.links
  exact ⟨whole, by simpa [Context.fill] using whole.delete⟩

theorem apart_of_nodup
    (nodup : (idsAll (context.fill [.node scope (before ++ last :: child :: rest)])).Nodup)
    (own : last.children = front ++ .node target [] :: back) :
    (∀ id ∈ context.ids, id ≠ target) ∧ scope ≠ target ∧ last.id ≠ target ∧
      (∀ id ∈ idsAll before ++ idsAll rest ++ (idsAll front ++ idsAll back), id ≠ target) ∧
      (∀ id ∈ child.ids, id ≠ target) ∧ last.id ∉ child.ids ∧ last.id ≠ scope := by
  rw [(Document.idsAll_fill context _).nodup_iff, ← Outline.node_eta last, own] at nodup
  simp only [idsAll, Outline.ids, Outline.idsAll_append, List.append_nil, List.nodup_append,
    List.nodup_cons, List.mem_append, List.mem_cons, List.cons_append] at nodup ⊢
  grind

/-- Joining a run to the one before it joins the two in the tree. -/
theorem merged_joinRun
    (holds : document.Holds (context.fill [.node scope (before ++ last :: child :: rest)]))
    (restyles : Restyles target document styled)
    (isRun : document.tag last.id = run ∧ document.tag child.id = run)
    (own : last.children = front ++ .node target [] :: back)
    {found : NodeId} {front' back' : List Outline}
    (taken : child.children = front' ++ .node found [] :: back')
    (properties : ∀ inner ∈ front ++ back ++ (front' ++ back'),
      document.tag inner.id = runProperties)
    (isText : document.tag target = text ∧ document.tag found = text)
    (content : styled.text target = document.text target ++ document.text found) :
    Merged (toTrees document (context.fill [.node scope (before ++ last :: child :: rest)]))
        (toTrees (styled.delete child.id) (context.fill [.node scope (before ++ last :: rest)])) := by
  obtain ⟨outside, notScope, notLast, beside, -, -⟩ := apart_of_nodup holds.nodup own
  obtain ⟨whole, -⟩ := holds_joined holds restyles
  have elements (id : NodeId) : ((styled.delete child.id).node id).toElement =
      (styled.node id).toElement := Document.toElement_delete whole id
  have same (id : NodeId) (other : id ≠ target) : ((styled.delete child.id).node id).toElement =
      (document.node id).toElement :=
    (elements id).trans (congrArg Node.toElement (restyles.frame id other))
  have trees (outlines : List Outline) (among : ∀ id ∈ idsAll outlines, id ≠ target) :
      toTrees (styled.delete child.id) outlines = toTrees document outlines :=
    Outline.toTrees_congr fun id member => same id (among id member)
  simp only [List.mem_append] at beside properties
  rw [Context.toTrees_fill, Context.toTrees_fill, trees_congr fun id member => same id (outside id member)]
  refine Merged.trees ?_ document context
  simp only [Outline.toTrees, Outline.toTree, Outline.toTrees_append]
  rw [same scope notScope, trees before fun id member => beside id (by simp [member])]
  refine .node rfl rfl ((Merged.refl _).append ?_) .nil
  rw [← Outline.node_eta last, ← Outline.node_eta child, own, taken]
  simp only [Outline.toTrees, Outline.toTree, Outline.id_node, Outline.toTrees_append]
  rw [same last.id notLast, trees rest fun id member => beside id (by simp [member]),
    trees front fun id member => beside id (by simp [member]),
    trees back fun id member => beside id (by simp [member])]
  refine .join isRun ?_ ⟨isText.1, isText.2, ?_⟩ ?_ (.refl _)
  · simp only [Outline.toTrees_eq, ← List.map_append, List.forall_mem_map]
    intro inner member
    cases inner
    exact properties _ (by simpa [or_assoc] using member)
  · exact (congrArg Element.tag (elements target)).trans ((restyles.removes.tag target).trans isText.1)
  · exact (congrArg Element.text (elements target)).trans content

end Step

theorem plain_of_trees {document : Document} {context : Context} {trees : List Tree}
    (plain : PlainTextsAll (context.trees document trees)) : PlainTextsAll trees := by
  induction context generalizing trees with
  | top before after =>
      rw [Context.trees, plainTextsAll_append, plainTextsAll_append] at plain
      exact plain.1.2
  | under outer before after id ih =>
      have inner := (ih plain).1.2.2.2
      rw [plainTextsAll_append, plainTextsAll_append] at inner
      exact inner.1.2

def JoinsBelow (context : Context) (scope : NodeId) (first : Document) (outlines : List Outline)
    (second : Document) : Prop :=
  ∃ others, second.Holds (context.fill [.node scope others]) ∧
    ReflTransGen Merged (toTrees first (context.fill [.node scope outlines]))
      (toTrees second (context.fill [.node scope others]))

def AnchoredBehind (document : Document) (front : List Outline) (anchor : Anchor) : Prop :=
  ∃ before last, front = before ++ [last] ∧ document.tag last.id = run ∧
    soleText? document last.id = some anchor.text

section Children

variable {document : Document} {context : Context} {scope : NodeId}

theorem joinsBelow_joinRun {before rest : List Outline} {last child : Outline} {target found : NodeId}
    (holds : document.Holds (context.fill [.node scope (before ++ last :: child :: rest)]))
    (plain : PlainTextsAll (toTrees document (context.fill
      [.node scope (before ++ last :: child :: rest)])))
    (isRun : document.tag last.id = run ∧ document.tag child.id = run)
    (own : soleText? document last.id = some target)
    (taken : soleText? document child.id = some found) :
    let next := (preserveSpace (document.pushText target (document.text found)) target).delete child.id
    next.Holds (context.fill [.node scope (before ++ last :: rest)]) ∧
      Merged (toTrees document (context.fill [.node scope (before ++ last :: child :: rest)]))
        (toTrees next (context.fill [.node scope (before ++ last :: rest)])) ∧
      next.tag last.id = run ∧ soleText? next last.id = some target := by
  have lastThere : document.Holds ((Context.under context before (child :: rest) scope).fill [last]) := by
    simpa [Context.fill] using holds
  have childThere : document.Holds
      ((Context.under context (before ++ [last]) rest scope).fill [child]) := by
    simpa [Context.fill] using holds
  rw [Context.toTrees_fill] at plain
  have inner := (plain_of_trees plain).1.2.2.2
  rw [Outline.toTrees_append, plainTextsAll_append] at inner
  obtain ⟨-, lastPlain, childPlain, -⟩ := inner
  obtain ⟨front, back, ownChildren, ownText, beside⟩ := exists_of_soleText? lastThere lastPlain own
  obtain ⟨front', back', takenChildren, takenText, beside'⟩ :=
    exists_of_soleText? childThere childPlain taken
  have restyles := (restyles_pushText document target (document.text found)).trans
    (restyles_preserveSpace _ target)
  obtain ⟨styledThere, after⟩ := holds_joined holds restyles
  have bound : target < document.size := by
    refine Document.lt_size_of_isLive (holds.isLive_of_mem ?_)
    rw [(Document.idsAll_fill context _).mem_iff, ← Outline.node_eta last, ownChildren]
    simp [idsAll, Outline.ids, Outline.idsAll_append]
  have tags (id : NodeId) := (congrArg Element.tag (Document.toElement_delete styledThere id)).trans
    (restyles.removes.tag id)
  obtain ⟨-, -, -, -, -, notBelow, notScope⟩ := apart_of_nodup holds.nodup ownChildren
  refine ⟨after, ?_, (tags last.id).trans isRun.1, ?_⟩
  · refine merged_joinRun holds restyles isRun ownChildren takenChildren ?_ ⟨ownText, takenText⟩ ?_
    · exact List.forall_mem_append.mpr ⟨beside, beside'⟩
    · rw [text_preserveSpace, text_pushText bound, if_pos rfl]
  · refine (soleText?_congr ?_ tags).trans own
    rw [Document.children_delete styledThere, if_neg notBelow, if_neg, restyles.rewritten.links.children]
    simp [Context.parent?, notScope.symm]

theorem joinsBelow_joinRuns {anchor : Option Anchor} {front rest : List Outline}
    (holds : document.Holds (context.fill [.node scope (front ++ rest)]))
    (plain : PlainTextsAll (toTrees document (context.fill [.node scope (front ++ rest)])))
    (anchored : ∀ found ∈ anchor, AnchoredBehind document front found) :
    JoinsBelow context scope document (front ++ rest)
      (joinRuns document anchor (rest.map Outline.id)).1 := by
  induction rest generalizing document anchor front with
  | nil => exact ⟨front ++ [], holds, .refl⟩
  | cons child rest ih =>
      have shift : front ++ child :: rest = (front ++ [child]) ++ rest := List.append_cons front child rest
      rw [List.map_cons, joinRuns]
      split
      · rw [shift] at holds plain ⊢
        exact ih holds plain (by simp)
      · rename_i found sole
        obtain ⟨isRun, sole⟩ := Option.ite_none_right_eq_some.mp sole
        dsimp only
        split
        · rename_i kept filtered
          obtain ⟨member, -⟩ := Option.filter_eq_some_iff.mp filtered
          obtain ⟨before, last, rfl, lastRun, own⟩ := anchored kept member
          simp only [List.append_assoc, List.cons_append, List.nil_append] at holds plain ⊢
          obtain ⟨nextHolds, merged, nextRun, nextSole⟩ :=
            joinsBelow_joinRun holds plain ⟨lastRun, isRun⟩ own sole
          have regroup : before ++ last :: rest = (before ++ [last]) ++ rest := by simp
          rw [regroup] at nextHolds merged
          obtain ⟨others, there, steps⟩ := ih nextHolds (merged.plain plain) fun _ same =>
            Option.mem_some.mp same ▸ ⟨before, last, rfl, nextRun, nextSole⟩
          exact ⟨others, there, .head merged steps⟩
        · rw [shift] at holds plain ⊢
          refine ih holds plain ?_
          intro other same
          cases same
          exact ⟨front, child, rfl, isRun, sole⟩

end Children

/-- The document is a tree that came of an earlier one by joining runs. -/
def JoinedFrom (origin : Tree) (document : Document) : Prop :=
  ∃ root : Outline, root.id = document.root ∧ document.Holds [root] ∧
    ReflTransGen Merged [origin] [root.toTree document]

section Repair

variable {origin : Tree} {document : Document}

theorem joinedFrom_joinRuns (joined : JoinedFrom origin document) (plain : PlainTexts origin)
    (id : NodeId) : JoinedFrom origin (joinRuns document none (document.children id)).1 := by
  obtain ⟨root, isRoot, holds, steps⟩ := joined
  by_cases live : document.isLive id = true
  · obtain ⟨context, ⟨id, children⟩, rfl, whole⟩ := Document.exists_context (holds.mem_of_isLive id live)
    have shows : toTrees document (context.fill [.node id children]) = [root.toTree document] := by
      rw [← whole]
      rfl
    rw [← shows] at steps
    rw [whole] at holds
    have listed : document.children id = children.map Outline.id :=
      (Document.holds_fill_iff.mp holds).top.children
    rw [Outline.id_node, listed]
    have below : JoinsBelow context id document ([] ++ children)
        (joinRuns document none (children.map Outline.id)).1 :=
      joinsBelow_joinRuns holds (plain_of_steps steps ⟨plain, trivial⟩) nofun
    obtain ⟨others, after, more⟩ := below
    have same : [Outline.node id others].map Outline.id = [Outline.node id children].map Outline.id := rfl
    have roots : (context.fill [.node id others]).map Outline.id = [root.id] := by
      rw [context.map_id_fill same, ← whole]
      rfl
    obtain ⟨next, single, same⟩ := List.map_eq_singleton_iff.mp roots
    rw [single] at after more
    refine ⟨next, ?_, after, steps.trans more⟩
    rw [same, isRoot]
    exact (keeps_joinRuns document none (children.map Outline.id)).ages.root.symm
  · rw [holds.bare id (by simpa using live)]
    exact ⟨root, isRoot, holds, steps⟩

theorem closed_of_joinedFrom (joined : JoinedFrom origin document)
    (closed : ∀ element ∈ origin.elements, hasOpenMarker element.text = false) {id : NodeId}
    (live : document.isLive id = true) : hasOpenMarker (document.text id) = false := by
  obtain ⟨root, -, holds, steps⟩ := joined
  have all : ∀ element ∈ elementsAll [root.toTree document], hasOpenMarker element.text = false := by
    generalize [root.toTree document] = trees at steps
    induction steps with
    | refl => simpa [elementsAll] using closed
    | tail _ step ih =>
        exact step.forall_text (fun content => hasOpenMarker content = false)
          (fun first second => (hasOpenMarker_append first _).trans second) ih
  refine all (document.node id).toElement ?_
  rw [elementsAll, elementsAll, List.append_nil, Document.elements_toTree]
  exact List.mem_map_of_mem (by simpa [idsAll] using holds.mem_of_isLive id live)

theorem completeMarkers_of_joinedFrom (joined : JoinedFrom origin document)
    (closed : ∀ element ∈ origin.elements, hasOpenMarker element.text = false) (id : NodeId) :
    completeMarkers document (ownTexts document id) = (document, 0) := by
  refine completeMarkers_of_complete (complete_of_closed ?_)
  rw [List.forall_mem_map]
  intro found member
  exact closed_of_joinedFrom joined closed
    (Document.live_text_of_mem_findAll (List.mem_filter.mp member).1).1

/-- Repairing a document in which no text leaves a marker open joins runs and does nothing else. -/
theorem joinedFrom_repairRuns (joined : JoinedFrom origin document) (plain : PlainTexts origin)
    (closed : ∀ element ∈ origin.elements, hasOpenMarker element.text = false) :
    JoinedFrom origin (repairRuns document) := by
  refine List.foldlRecOn (motive := JoinedFrom origin) _ _ joined fun document joined id _ => ?_
  split
  · refine eachParagraph_induction (fun document id joined => ?_)
      (eachParagraph_induction (fun document id joined => ?_) joined id) id
    · rw [completeMarkers_of_joinedFrom joined closed]
      exact joined
    · exact joinedFrom_joinRuns joined plain id
  · exact joined

end Repair

end Wordml

/-- What filling starts from is the tree of the document with runs joined, if no text leaves a marker
open. -/
theorem Filling.joinedFrom_prepare {document : Document} {root : Outline}
    (isRoot : root.id = document.root) (holds : document.Holds [root])
    (plain : Wordml.PlainTexts (root.toTree document))
    (closed : ∀ element ∈ (root.toTree document).elements, Wordml.hasOpenMarker element.text = false) :
    Wordml.JoinedFrom (root.toTree document) (prepare document) := by
  have marks := marks_markLists document
  refine Wordml.joinedFrom_repairRuns ⟨root, ?_, holds.congr marks.rewritten.links, ?_⟩ plain closed
  · rw [isRoot, marks.rewritten.ages.root]
  · have merged : Wordml.Merged (toTrees document [root]) (toTrees (markLists document) [root]) :=
      Wordml.merged_of_same fun id => ⟨marks.rewritten.removes.tag id, marks.text id⟩
    exact .single merged

end WordTemplate
