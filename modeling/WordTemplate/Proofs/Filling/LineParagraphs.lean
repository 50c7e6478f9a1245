import WordTemplate.Proofs.Filling.SplitPieces

/-! Splitting a whole document into lines, where no paragraph stands in another one. Each split replaces one
paragraph by those for its lines and takes one text with line feeds away. At the end every paragraph has
become its lines, and as many splits were made as there were texts with line feeds. -/

namespace WordTemplate.Filling

open Markup
open Outline (idsAll toTrees)

/-- The texts that stand in paragraphs. -/
def paragraphTexts (document : Document) : List NodeId :=
  (document.findAll document.root [Wordml.text]).filter fun id =>
    (document.closest? id [Wordml.paragraph]).isSome

section Counting

variable {document : Document}

@[simp]
theorem closest?_beside (context : Context) (tags : List String) (before after : List Outline) :
    (context.beside before after).closest? document tags = context.closest? document tags := by
  cases context <;> rfl

def isFed (document : Document) (id : NodeId) : Bool :=
  document.isAny [Wordml.text] id && (document.closest? id [Wordml.paragraph]).isSome &&
    holdsLineFeed (document.text id)

mutual

theorem countP_isFed (outline : Outline) {context : Context}
    (holds : document.Holds (context.fill [outline])) :
    outline.ids.countP (isFed document) =
      (if (context.closest? document [Wordml.paragraph]).isSome then
        ((freeTexts document outline).map document.text).countP holdsLineFeed
      else 0) + fedTexts (outline.toTree document) := by
  cases outline with
  | node id children =>
      have inside : document.Holds ((Context.under context [] [] id).fill children) := by
        simpa [Context.fill] using holds
      have below := countP_isFed_all children inside
      have here := holds.closest? [Wordml.paragraph]
      rw [Outline.id_node] at here
      rw [Context.closest?] at below
      rw [Outline.ids, List.countP_cons, below, isFed, here, Outline.toTree, fedTexts, freeTexts]
      by_cases isParagraph : document.tag id = Wordml.paragraph
      · have found : document.isAny [Wordml.paragraph] id = true := Document.isAny_singleton.mpr isParagraph
        have tag : (document.node id).tag = Wordml.paragraph := isParagraph
        have notText : document.isAny [Wordml.text] id = false := by
          rw [Document.isAny, isParagraph]
          decide
        rw [if_pos found, if_pos tag, if_pos isParagraph, notText, ← map_text_freeTextsAll]
        simp
      · have none : document.isAny [Wordml.paragraph] id = false := by
          simpa [Document.isAny] using isParagraph
        have tag : (document.node id).tag ≠ Wordml.paragraph := isParagraph
        rw [none, if_neg tag, if_neg isParagraph]
        by_cases isText : document.tag id = Wordml.text
        · have found : document.isAny [Wordml.text] id = true := Document.isAny_singleton.mpr isText
          rw [found, if_pos isText]
          by_cases above : (context.closest? document [Wordml.paragraph]).isSome = true
          · simp [above, List.countP_cons]
            omega
          · simp [above]
        · have notText : document.isAny [Wordml.text] id = false := by
            simpa [Document.isAny] using isText
          rw [notText, if_neg isText]
          simp

theorem countP_isFed_all (outlines : List Outline) {context : Context}
    (holds : document.Holds (context.fill outlines)) :
    (idsAll outlines).countP (isFed document) =
      (if (context.closest? document [Wordml.paragraph]).isSome then
        ((freeTextsAll document outlines).map document.text).countP holdsLineFeed
      else 0) + fedTextsAll (toTrees document outlines) := by
  cases outlines with
  | nil => simp [Outline.idsAll, freeTextsAll, toTrees, fedTextsAll]
  | cons outline rest =>
      have top : document.Holds ((context.beside [] rest).fill [outline]) := by
        simpa [Context.fill_beside] using holds
      have others : document.Holds ((context.beside [outline] []).fill rest) := by
        simpa [Context.fill_beside] using holds
      rw [Outline.idsAll, List.countP_append, countP_isFed outline top, countP_isFed_all rest others,
        closest?_beside, closest?_beside, freeTextsAll, toTrees, fedTextsAll, List.map_append,
        List.countP_append]
      split <;> omega

end

theorem fedTexts_eq {tree : Outline} (holds : document.Holds [tree]) (top : tree.id = document.root)
    (apart : document.tag document.root ≠ Wordml.paragraph) :
    ((paragraphTexts document).filter fun id => holdsLineFeed (document.text id)).length =
      fedTexts (tree.toTree document) := by
  have inside : document.Holds ((Context.top [] []).fill [tree]) := holds
  cases tree with
  | node root children =>
      obtain rfl : root = document.root := top
      have below := inside.descendants
      rw [Outline.id_node, Outline.children_node] at below
      have within : document.Holds ((Context.under (.top [] []) [] [] document.root).fill children) := by
        simpa [Context.fill] using holds
      have counted := countP_isFed_all children within
      have other : document.isAny [Wordml.paragraph] document.root = false := by
        simpa [Document.isAny] using apart
      have notParagraph : (document.node document.root).tag ≠ Wordml.paragraph := apart
      rw [Context.closest?, other] at counted
      rw [paragraphTexts, Document.findAll, below, List.filter_filter, List.filter_filter,
        ← List.countP_eq_length_filter, Outline.toTree, fedTexts_of_other notParagraph]
      simp only [Context.closest?, Bool.false_eq_true, if_false, Option.isSome_none, Nat.zero_add] at counted
      rw [← counted]
      refine List.countP_congr fun id _ => ?_
      simp [isFed, and_comm, and_left_comm, and_assoc]

end Counting

section Run

variable {document result : Document} {tree next : Outline} {skipped : List NodeId} {id paragraph : NodeId}
  {path : List Nat}

/-- A document on its way through the splits. The texts that are skipped stand outside of paragraphs. -/
structure Underway (document : Document) (tree : Outline) (skipped : List NodeId) : Prop where
  sound : document.Sound
  holds : document.Holds [tree]
  top : tree.id = document.root
  apart : document.tag document.root ≠ Wordml.paragraph
  splittable : Splittable (tree.toTree document)
  skipped : ∀ id ∈ skipped, id ∈ freeTexts document tree

structure Advances (document : Document) (tree : Outline) (result : Document) (next : Outline) : Prop where
  cuts : Cuts [tree.toTree document] [next.toTree result]
  free : freeTexts result next = freeTexts document tree
  text : ∀ id ∈ freeTexts document tree, result.text id = document.text id
  root : result.root = document.root

theorem Advances.fewer (advances : Advances document tree result next) :
    fedTexts (next.toTree result) + 1 = fedTexts (tree.toTree document) := by
  simpa [fedTextsAll] using advances.cuts.fewer

namespace Underway

theorem liveTree (underway : Underway document tree skipped) :
    document.liveTree document.root = tree.toTree document := by
  have inside : document.Holds ((Context.top [] []).fill [tree]) := underway.holds
  rw [← underway.top, inside.liveTree]

theorem of_parse {source : String} (read : Document.parse source = .ok document)
    (apart : document.tag document.root ≠ Wordml.paragraph)
    (splittable : Splittable (document.liveTree document.root)) : ∃ tree, Underway document tree [] := by
  have sound := (Document.Opened.parse read).sound
  obtain ⟨declared, shown, rfl⟩ := Document.exists_ofTree_of_parse read
  rw [Document.liveTree_ofTree, ← Document.toTree_ofTree declared shown] at splittable
  exact ⟨shown.outline 0, sound, Document.holds_ofTree declared shown, Tree.id_outline .., apart, splittable,
    by simp⟩

theorem skip (underway : Underway document tree skipped) (found : nextFed? document skipped = some id)
    (outside : locate? document id = none) : Underway document tree (id :: skipped) := by
  obtain ⟨live, isText, -, -⟩ := of_nextFed? underway.sound found
  have none := closest?_of_locate? underway.sound live outside
  refine ⟨underway.sound, underway.holds, underway.top, underway.apart, underway.splittable, ?_⟩
  exact List.forall_mem_cons.mpr ⟨mem_freeTexts_root underway.holds live isText none, underway.skipped⟩

theorem split (underway : Underway document tree skipped) (found : nextFed? document skipped = some id)
    (located : locate? document id = some (paragraph, path)) :
    ∃ next, Underway (splitParagraph document paragraph path (document.text id)) next skipped ∧
      Advances document tree (splitParagraph document paragraph path (document.text id)) next := by
  obtain ⟨live, isText, -, fed⟩ := of_nextFed? underway.sound found
  obtain ⟨closest, leads⟩ := of_locate? located
  obtain ⟨outer, before, after, parent, outline, rfl, whole, isParagraph, own⟩ :=
    exists_under_of_closest? underway.sound underway.apart underway.holds underway.top live isText closest
  have holds := underway.holds
  have splittable : ∀ shown ∈ toTrees document [tree], Splittable shown :=
    List.forall_mem_singleton.mpr underway.splittable
  have trees : ∀ document (outline : Outline), toTrees document [outline] = [outline.toTree document] :=
    fun _ _ => rfl
  rw [whole] at holds splittable
  obtain ⟨copies, splits⟩ := splitsInto_splitParagraph underway.sound holds isParagraph
    (Document.follow?_of_path? leads) own
  have cuts := cuts_of_splitsInto holds isParagraph splits underway.sound splittable own
    (holdsLineFeed_iff.mpr fed)
  have free := freeTextsAll_of_splitsInto holds isParagraph splits
  generalize splitParagraph document outline.id path (document.text id) = result at splits cuts free ⊢
  obtain ⟨-, next, filled, same⟩ := Context.exists_root (by simp [Context.parent?]) whole.symm
    (copies.map (LineTwin.outline outline))
  rw [← whole, filled, trees, trees] at cuts
  rw [← whole, filled] at free
  have old : ∀ inner ∈ idsAll [tree], (result.node inner).toElement = (document.node inner).toElement :=
    fun inner member => splits.old inner (underway.holds.lt_size member)
  simp only [freeTextsAll, List.append_nil] at free
  have text : ∀ inner ∈ freeTexts document tree, result.text inner = document.text inner :=
    fun inner member => congrArg Element.text
      (old inner (by simpa [idsAll] using (sublist_freeTexts document tree).subset member))
  have apart : result.tag result.root ≠ Wordml.paragraph := by
    rw [splits.root, ← underway.top]
    have here := congrArg Element.tag (old tree.id (by simp [idsAll, tree.id_mem_ids]))
    exact fun isParagraph => underway.apart (underway.top ▸ here.symm.trans isParagraph)
  exact ⟨next, ⟨splits.sound, filled ▸ splits.holds, by rw [same, underway.top, splits.root], apart,
    cuts.splittable _ (List.mem_singleton_self _), free ▸ underway.skipped⟩, cuts, free, text, splits.root⟩

theorem splitsLines_splitFrom (underway : Underway document tree skipped) {fuel : Nat}
    (bound : looseLeft document tree skipped + fedTexts (tree.toTree document) < fuel) (count : Nat) :
    SplitsLines skipped (document, count) (splitFrom fuel skipped (document, count)) := by
  refine splitsLines_of_bound (fun skipped document bound =>
    ∃ tree : Outline, Underway document tree skipped ∧
      bound = looseLeft document tree skipped + fedTexts (tree.toTree document)) ?_ ?_ bound
    ⟨tree, underway, rfl⟩ count
  · rintro skipped document bound id ⟨tree, underway, rfl⟩ found located
    have fewer := looseLeft_skip underway.holds underway.sound found located
    exact ⟨_, by omega, tree, underway.skip found located, rfl⟩
  · rintro skipped document bound id paragraph path ⟨tree, underway, rfl⟩ found located
    obtain ⟨next, split, advances⟩ := underway.split found located
    have loose := looseLeft_congr skipped advances.free advances.text
    have fewer := advances.fewer
    exact ⟨_, by omega, next, split, rfl⟩

theorem splitsLines_splitLines (underway : Underway document tree []) :
    SplitsLines [] (document, 0) (splitLines document) := by
  by_cases isText : document.tag document.root = Wordml.text
  · -- A text as the root holds nothing.
    have live : document.isLive document.root = true := by
      rw [← underway.top]
      exact underway.holds.isLive_of_mem (by simp [idsAll, tree.id_mem_ids])
    have bare := ((allows_of_isLive underway.holds
      (List.forall_mem_singleton.mpr underway.splittable) live).texts isText).1
    have none : nextFed? document [] = none := by
      rw [nextFed?, Document.findAll, List.map_eq_nil_iff.mp bare]
      rfl
    rw [splitLines, splitFrom_succ, none]
    exact .done none
  · have fuel := splits_lt_splitFuel underway.apart isText underway.holds underway.top
    have fewer := fedTexts_le_splits (tree.toTree document)
    exact underway.splitsLines_splitFrom (by omega) 0

theorem settled (underway : Underway document tree skipped) (none : nextFed? document skipped = none) :
    ∀ id ∈ paragraphTexts document, holdsLineFeed (document.text id) = false := by
  intro id member
  obtain ⟨listed, inParagraph⟩ := List.mem_filter.mp member
  by_contra fed
  rw [Bool.not_eq_false] at fed
  -- A text with line feeds is skipped only outside of paragraphs.
  have passed := List.find?_eq_none.mp none id listed
  have inside : id ∈ freeTexts document tree := underway.skipped id (by simpa [fed] using passed)
  have holds : document.Holds ((Context.top [] []).fill [tree]) := underway.holds
  have free : BelongsFree document Option.none (.top [] []) tree := belongsFree tree holds (by simp)
  rw [BelongsFree, Context.closest?, if_pos rfl] at free
  rw [← free, List.mem_filter] at inside
  have outside : document.closest? id [Wordml.paragraph] = Option.none := by
    simpa [belongs] using (Bool.and_eq_true_iff.mp inside.2).2
  rw [outside] at inParagraph
  exact absurd inParagraph (by decide)

end Underway

structure Arrives (document : Document) (tree : Outline) (count : Nat) (final : Document × Nat)
    (next : Outline) (left : List NodeId) : Prop where
  underway : Underway final.1 next left
  none : nextFed? final.1 left = none
  root : final.1.root = document.root
  replaces : Replaces TowardsLines [tree.toTree document] [next.toTree final.1]
  total : final.2 + fedTexts (next.toTree final.1) = count + fedTexts (tree.toTree document)

theorem SplitsLines.arrives {state final : Document × Nat} (run : SplitsLines skipped state final)
    (underway : Underway state.1 tree skipped) :
    ∃ next left, Arrives state.1 tree state.2 final next left := by
  induction run generalizing tree with
  | done none => exact ⟨tree, _, underway, none, rfl, .refl TowardsLines.refl _, rfl⟩
  | skips found outside _ ih => exact ih (underway.skip found outside)
  | splits found located _ ih =>
      obtain ⟨middle, split, advances⟩ := underway.split found located
      dsimp only at ih
      generalize splitParagraph _ _ _ _ = result at split advances ih
      obtain ⟨next, left, arrives⟩ := ih split
      have fewer := advances.fewer
      have total := arrives.total
      refine ⟨next, left, arrives.underway, arrives.none, arrives.root.trans advances.root,
        advances.cuts.replaces.trans TowardsLines.trans arrives.replaces, ?_⟩
      dsimp only at fewer total ⊢
      omega

end Run

section Lines

variable {source : String} {document : Document}

/-- Splitting comes to an end. Every paragraph is replaced at its place by one for each line of what it says,
and where it has but one line it stays as it is; the number of splits is that of the texts with line feeds. -/
theorem splitLines_pieces (read : Document.parse source = .ok document)
    (apart : document.tag document.root ≠ Wordml.paragraph)
    (splittable : Splittable (document.liveTree document.root)) :
    SplitsLines [] (document, 0) (splitLines document) ∧
      Replaces IntoLines [document.liveTree document.root]
        [(splitLines document).1.liveTree (splitLines document).1.root] ∧
      (∀ id ∈ paragraphTexts (splitLines document).1,
        holdsLineFeed ((splitLines document).1.text id) = false) ∧
      (splitLines document).2 =
        ((paragraphTexts document).filter fun id => holdsLineFeed (document.text id)).length := by
  obtain ⟨tree, underway⟩ := Underway.of_parse read apart splittable
  have run := underway.splitsLines_splitLines
  obtain ⟨next, left, arrives⟩ := run.arrives underway
  have settled := arrives.underway.settled arrives.none
  have total := arrives.total
  -- Both sides of the count are numbers of texts with line feeds, of which none is left at the end.
  have start := fedTexts_eq underway.holds underway.top underway.apart
  have finish := fedTexts_eq arrives.underway.holds arrives.underway.top arrives.underway.apart
  rw [List.filter_eq_nil_iff.mpr (by simpa using settled), List.length_nil] at finish
  generalize splitLines document = final at *
  rw [underway.liveTree, arrives.underway.liveTree]
  refine ⟨run, arrives.replaces.settle ?_, settled, ?_⟩
  · rw [fedTextsAll, fedTextsAll, ← finish]
  · dsimp only at total
    omega

/-- Two texts of two lines each in one paragraph, and one line in another. -/
def twoBreaksTree : Tree :=
  .node { tag := "w:document" } [.node { tag := "w:body" } [
    .node { tag := "w:p" } [.node { tag := "w:r" } [.node { tag := "w:t", text := "a\nb" } []],
      .node { tag := "w:r" } [.node { tag := "w:t", text := "c\nd" } []]],
    .node { tag := "w:p" } [.node { tag := "w:r" } [.node { tag := "w:t", text := "e" } []]]]]

def twoBreaksText : String :=
  "<w:document><w:body><w:p><w:r><w:t>a\nb</w:t></w:r><w:r><w:t>c\nd</w:t></w:r></w:p>" ++
    "<w:p><w:r><w:t>e</w:t></w:r></w:p></w:body></w:document>"

/-- The end of one line and the beginning of the next text share a paragraph. -/
theorem splitLines_pieces_twoBreaks :
    Document.parse twoBreaksText = .ok (.ofTree false twoBreaksTree) ∧
      Replaces IntoLines [twoBreaksTree] [(splitLines (.ofTree false twoBreaksTree)).1.liveTree
        (splitLines (.ofTree false twoBreaksTree)).1.root] ∧
      (splitLines (.ofTree false twoBreaksTree)).2 = 2 ∧
      (splitLines (.ofTree false twoBreaksTree)).1.write =
        "<w:document><w:body><w:p><w:r><w:t>a</w:t></w:r></w:p>" ++
          "<w:p><w:r><w:t>b</w:t></w:r><w:r><w:t>c</w:t></w:r></w:p>" ++
          "<w:p><w:r><w:t>d</w:t></w:r></w:p><w:p><w:r><w:t>e</w:t></w:r></w:p></w:body></w:document>" := by
  have read : Document.parse twoBreaksText = .ok (.ofTree false twoBreaksTree) := by cbv
  have splittable : Splittable twoBreaksTree := by
    simp only [twoBreaksTree, splittable_node_iff, List.forall_mem_cons, List.not_mem_nil, false_implies,
      implies_true]
    decide +kernel
  obtain ⟨-, replaces, -, count⟩ := splitLines_pieces read (by decide)
    (by rwa [Document.liveTree_ofTree])
  rw [Document.liveTree_ofTree] at replaces
  exact ⟨read, replaces, count.trans (by decide +kernel), by decide +kernel⟩

end Lines

end WordTemplate.Filling
