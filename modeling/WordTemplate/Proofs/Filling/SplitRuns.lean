import WordTemplate.Proofs.Filling.SplitParagraphs

/-! Splitting all paragraphs at their line feeds, without a bound on the splits. Every split lowers the number
of splits that are left, so that the run comes to an end, within the fuel it is given. -/

namespace WordTemplate.Filling

open Markup
open Outline (idsAll toTrees)
open Wordml (Upright Upholds)

/-- The first text with line feeds that is not skipped. -/
def nextFed? (document : Document) (skipped : List NodeId) : Option NodeId :=
  (document.findAll document.root [Wordml.text]).find? fun id =>
    !skipped.contains id && holdsLineFeed (document.text id)

/-- A run over the line feeds of a document without a bound on its steps. -/
inductive SplitsLines : List NodeId → Document × Nat → Document × Nat → Prop
  | done {skipped : List NodeId} {document : Document} {count : Nat}
      (none : nextFed? document skipped = none) : SplitsLines skipped (document, count) (document, count)
  | skips {skipped : List NodeId} {document : Document} {count : Nat} {id : NodeId} {final : Document × Nat}
      (found : nextFed? document skipped = some id) (outside : locate? document id = none)
      (next : SplitsLines (id :: skipped) (document, count) final) :
      SplitsLines skipped (document, count) final
  | splits {skipped : List NodeId} {document : Document} {count : Nat} {id paragraph : NodeId}
      {path : List Nat} {final : Document × Nat} (found : nextFed? document skipped = some id)
      (located : locate? document id = some (paragraph, path))
      (next : SplitsLines skipped
        (splitParagraph document paragraph path (document.text id), count + 1) final) :
      SplitsLines skipped (document, count) final

variable {document : Document} {skipped : List NodeId} {id : NodeId}

theorem splitFrom_succ (fuel : Nat) (skipped : List NodeId) (document : Document) (count : Nat) :
    splitFrom (fuel + 1) skipped (document, count) =
      match nextFed? document skipped with
      | none => (document, count)
      | some id =>
        match locate? document id with
        | none => splitFrom fuel (id :: skipped) (document, count)
        | some (paragraph, path) =>
          splitFrom fuel skipped (splitParagraph document paragraph path (document.text id), count + 1) :=
  rfl

theorem of_nextFed? (sound : document.Sound) (found : nextFed? document skipped = some id) :
    document.isLive id = true ∧ document.tag id = Wordml.text ∧ id ∉ skipped ∧
      0 < feeds (document.text id) := by
  have passes := List.find?_some found
  have listed := List.mem_filter.mp (List.mem_of_find?_eq_some found)
  simp only [Bool.and_eq_true, Bool.not_eq_true', List.contains_eq_mem, decide_eq_false_iff_not,
    holdsLineFeed_iff] at passes
  exact ⟨(((sound.descendants document.root).2 id).mp listed.1).1,
    Document.isAny_singleton.mp listed.2, passes⟩

theorem of_locate? {paragraph : NodeId} {path : List Nat}
    (located : locate? document id = some (paragraph, path)) :
    document.closest? id [Wordml.paragraph] = some paragraph ∧ document.path? paragraph id = some path := by
  simp only [locate?, Option.bind_eq_bind, Option.bind_eq_some_iff] at located
  obtain ⟨found, closest, way, leads, same⟩ := located
  cases same
  exact ⟨closest, leads⟩

theorem closest?_of_locate? (sound : document.Sound) (live : document.isLive id = true)
    (outside : locate? document id = none) : document.closest? id [Wordml.paragraph] = none := by
  cases closest : document.closest? id [Wordml.paragraph] with
  | none => rfl
  | some paragraph =>
      obtain ⟨path, leads⟩ := Document.path?_of_closest? sound live closest
      simp [locate?, closest, leads] at outside

section Skipping

def looseLeft (document : Document) (tree : Outline) (skipped : List NodeId) : Nat :=
  feedsAll (((freeTexts document tree).filter (· ∉ skipped)).map document.text)

theorem feedsAll_filter_lt (document : Document) {ids : List NodeId} (member : id ∈ ids)
    (fed : 0 < feeds (document.text id)) :
    feedsAll ((ids.filter (· ≠ id)).map document.text) < feedsAll (ids.map document.text) := by
  obtain ⟨front, back, rfl⟩ := List.append_of_mem member
  have fewer : ((front ++ id :: back).filter (· ≠ id)).Sublist (front ++ back) := by
    rw [List.filter_append, List.filter_cons_of_neg (by simp)]
    exact List.filter_sublist.append List.filter_sublist
  have bound := feedsAll_sublist (fewer.map document.text)
  simp only [List.map_append, List.map_cons, feedsAll_append, feedsAll_cons] at bound ⊢
  omega

theorem mem_freeTexts_root {tree : Outline} (holds : document.Holds [tree]) (live : document.isLive id = true)
    (isText : document.tag id = Wordml.text)
    (outside : document.closest? id [Wordml.paragraph] = none) : id ∈ freeTexts document tree := by
  have inside : document.Holds ((Context.top [] []).fill [tree]) := holds
  have free : BelongsFree document none (.top [] []) tree := belongsFree tree inside (by simp)
  rw [BelongsFree, Context.closest?, if_pos rfl] at free
  rw [← free, List.mem_filter]
  refine ⟨by simpa [idsAll] using holds.mem_of_isLive id live, ?_⟩
  simp [belongs, Document.isAny_singleton.mpr isText, outside]

theorem looseLeft_skip {tree : Outline} (holds : document.Holds [tree]) (sound : document.Sound)
    (found : nextFed? document skipped = some id) (outside : locate? document id = none) :
    looseLeft document tree (id :: skipped) < looseLeft document tree skipped := by
  obtain ⟨live, isText, kept, fed⟩ := of_nextFed? sound found
  have free := mem_freeTexts_root holds live isText (closest?_of_locate? sound live outside)
  have split : (freeTexts document tree).filter (· ∉ id :: skipped) =
      ((freeTexts document tree).filter (· ∉ skipped)).filter (· ≠ id) := by
    rw [List.filter_filter]
    apply List.filter_congr
    intro other _
    simp [not_or]
  rw [looseLeft, looseLeft, split]
  exact feedsAll_filter_lt document (List.mem_filter.mpr ⟨free, by simpa using kept⟩) fed

theorem looseLeft_congr (skipped : List NodeId) {first second : Document} {tree next : Outline}
    (free : freeTexts second next = freeTexts first tree)
    (text : ∀ id ∈ freeTexts first tree, second.text id = first.text id) :
    looseLeft second next skipped = looseLeft first tree skipped := by
  rw [looseLeft, looseLeft, free]
  exact congrArg feedsAll (List.map_congr_left fun id member => text id (List.mem_filter.mp member).1)

end Skipping

section Splitting

variable {first second : Document}

theorem freeTextsAll_congr {outlines : List Outline}
    (tags : ∀ id ∈ idsAll outlines, second.tag id = first.tag id) :
    freeTextsAll second outlines = freeTextsAll first outlines := by
  suffices ∀ outline : Outline, (∀ id ∈ outline.ids, second.tag id = first.tag id) →
      freeTexts second outline = freeTexts first outline by
    rw [freeTextsAll_eq, freeTextsAll_eq]
    exact List.flatMap_congr fun outline member => this outline fun id below =>
      tags id (Outline.mem_idsAll.mpr ⟨outline, member, below⟩)
  intro outline
  induction outline using Outline.induction with
  | node id children ih =>
      intro tags
      rw [Outline.ids, List.forall_mem_cons] at tags
      rw [freeTexts, freeTexts, tags.1, freeTextsAll_eq, freeTextsAll_eq,
        List.flatMap_congr fun child member => ih child member fun id below =>
          tags.2 id (Outline.mem_idsAll.mpr ⟨child, member, below⟩)]

theorem freeTextsAll_fill_congr {context : Context} {filling others : List Outline}
    (tags : ∀ id ∈ context.ids, second.tag id = first.tag id)
    (same : freeTextsAll second others = freeTextsAll first filling) :
    freeTextsAll second (context.fill others) = freeTextsAll first (context.fill filling) := by
  induction context generalizing filling others with
  | top before after =>
      simp only [Context.mem_ids_top] at tags
      simp only [Context.fill, freeTextsAll_append, same,
        freeTextsAll_congr fun id below => tags id (.inl below),
        freeTextsAll_congr fun id below => tags id (.inr below)]
  | under outer before after id ih =>
      simp only [Context.mem_ids_under] at tags
      rw [Context.fill, Context.fill]
      refine ih (fun other member => tags other (.inl member)) ?_
      have inside : freeTextsAll second (before ++ others ++ after) =
          freeTextsAll first (before ++ filling ++ after) := by
        simp only [freeTextsAll_append, same,
          freeTextsAll_congr fun other below => tags other (.inr (.inr (.inl below))),
          freeTextsAll_congr fun other below => tags other (.inr (.inr (.inr below)))]
      simp only [freeTextsAll, freeTexts, inside, tags id (by simp)]

theorem freeTextsAll_of_paragraphs {outlines : List Outline}
    (tags : ∀ outline ∈ outlines, document.tag outline.id = Wordml.paragraph) :
    freeTextsAll document outlines = [] := by
  rw [freeTextsAll_eq, List.flatMap_eq_nil_iff]
  intro outline member
  rw [← Outline.node_eta outline]
  exact freeTexts_of_paragraph (tags outline member) _

theorem loose_of_paragraphs {outlines : List Outline}
    (tags : ∀ outline ∈ outlines, document.tag outline.id = Wordml.paragraph) :
    loose (toTrees document outlines) = 0 := by
  rw [loose, ← map_text_freeTextsAll, freeTextsAll_of_paragraphs tags]
  rfl

structure SplitsOnce (document : Document) (tree : Outline) (result : Document) (next : Outline) : Prop where
  holds : result.Holds [next]
  top : next.id = result.root
  upholds : Upholds document result
  free : freeTexts result next = freeTexts document tree
  text : ∀ id ∈ freeTexts document tree, result.text id = document.text id
  fewer : splits (next.toTree result) < splits (tree.toTree document)

theorem tag_root_ne_paragraph (upright : Upright [] document) :
    document.tag document.root ≠ Wordml.paragraph :=
  fun same => upright.ne_root (by decide) (Document.isAny_singleton.mpr same) rfl

theorem exists_under_of_closest? (sound : document.Sound)
    (apart : document.tag document.root ≠ Wordml.paragraph) {tree : Outline}
    (holds : document.Holds [tree]) (top : tree.id = document.root) (live : document.isLive id = true)
    (isText : document.tag id = Wordml.text) {paragraph : NodeId}
    (closest : document.closest? id [Wordml.paragraph] = some paragraph) :
    ∃ (outer : Context) (before after : List Outline) (parent : NodeId) (outline : Outline),
      outline.id = paragraph ∧ [tree] = (Context.under outer before after parent).fill [outline] ∧
      document.tag paragraph = Wordml.paragraph ∧ id ∈ Wordml.ownTexts document paragraph := by
  obtain ⟨isParagraph, paragraphLive, place⟩ := sound.below_of_closest? live closest
  rw [Document.isAny_singleton] at isParagraph
  have below : id ∈ document.descendants paragraph := place.resolve_left fun same => by
    rw [same, isParagraph] at isText
    exact absurd isText (by decide)
  have own := Wordml.mem_ownTexts.mpr ⟨below, isText, closest⟩
  obtain ⟨context, outline, same, whole⟩ :=
    Document.exists_context (holds.mem_of_isLive paragraph paragraphLive)
  cases context with
  | top before after =>
      have single : [tree] = before ++ outline :: after := by simpa [Context.fill] using whole
      have atTop : tree.id = outline.id := by
        cases before with
        | nil => rw [(List.cons.inj single).1]
        | cons first rest => simp at single
      exact absurd isParagraph ((same.symm.trans (atTop.symm.trans top)) ▸ apart)
  | under outer before after parent =>
      exact ⟨outer, before, after, parent, outline, same, whole, isParagraph, own⟩

theorem splitsOnce (upright : Upright [] document) {tree : Outline} (holds : document.Holds [tree])
    (top : tree.id = document.root) (found : nextFed? document skipped = some id) {paragraph : NodeId}
    {path : List Nat} (located : locate? document id = some (paragraph, path)) :
    ∃ next, SplitsOnce document tree (splitParagraph document paragraph path (document.text id)) next := by
  obtain ⟨live, isText, -, fed⟩ := of_nextFed? upright.sound found
  obtain ⟨closest, leads⟩ := of_locate? located
  obtain ⟨outer, before, after, parent, outline, rfl, whole, isParagraph, own⟩ :=
    exists_under_of_closest? upright.sound (tag_root_ne_paragraph upright) holds top live isText closest
  have atParagraph := holds
  rw [whole] at atParagraph
  obtain ⟨copies, split⟩ := splitsParagraph upright atParagraph isParagraph
    (Document.follow?_of_path? leads) own (holdsLineFeed_iff.mpr fed)
  generalize splitParagraph document outline.id path (document.text id) = result at split ⊢
  obtain ⟨-, next, filled, same⟩ := Context.exists_root (by simp [Context.parent?]) whole.symm copies
  have around : ∀ id ∈ (Context.under outer before after parent).ids,
      (result.node id).toElement = (document.node id).toElement := fun inner member =>
    split.old inner (Document.lt_size_of_isLive
      ((Document.holds_fill_iff.mp atParagraph).isLive_of_mem_ids member))
  have free : freeTextsAll result [next] = freeTextsAll document [tree] := by
    rw [← filled, whole]
    refine freeTextsAll_fill_congr (fun inner member => congrArg Element.tag (around inner member)) ?_
    rw [freeTextsAll_of_paragraphs split.tags, freeTextsAll_of_paragraphs (by simpa using isParagraph)]
  simp only [freeTextsAll, List.append_nil] at free
  refine ⟨next, filled ▸ split.holds, ?_, split.upholds, free, fun inner member => ?_, ?_⟩
  · rw [same, top, split.upholds.ages.root]
  · have listed : inner ∈ idsAll [tree] := by
      simpa [idsAll] using (sublist_freeTexts document tree).subset member
    exact congrArg Element.text (split.old inner (holds.lt_size listed))
  · have fewer : splitsAll (toTrees result [next]) < splitsAll (toTrees document [tree]) := by
      rw [← filled, whole, Context.toTrees_fill, Context.toTrees_fill, Wordml.trees_congr around]
      refine splitsAll_trees_lt ?_ ?_ _
      · rw [loose_of_paragraphs split.tags, loose_of_paragraphs (by simpa using isParagraph)]
      · rw [toTrees, toTrees, splitsAll_singleton]
        exact split.fewer
    simpa [toTrees, splitsAll_singleton] using fewer

end Splitting

section Runs

theorem SplitsLines.upholds {state final : Document × Nat} (run : SplitsLines skipped state final)
    (upright : Upright [] state.1) : Upholds state.1 final.1 := by
  induction run with
  | done none => exact .refl upright
  | skips found outside next ih => exact ih upright
  | splits found located next ih =>
      obtain ⟨tree, top, holds⟩ := upright.stands
      obtain ⟨_, split⟩ := splitsOnce upright holds top found located
      dsimp only at ih
      generalize splitParagraph _ _ _ _ = result at split ih
      exact split.upholds.trans (ih split.upholds.upright)

theorem splitsLines_of_bound (keeps : List NodeId → Document → Nat → Prop)
    (skips : ∀ {skipped document bound id}, keeps skipped document bound →
      nextFed? document skipped = some id → locate? document id = none →
        ∃ less < bound, keeps (id :: skipped) document less)
    (splits : ∀ {skipped document bound id paragraph path}, keeps skipped document bound →
      nextFed? document skipped = some id → locate? document id = some (paragraph, path) →
        ∃ less < bound, keeps skipped (splitParagraph document paragraph path (document.text id)) less)
    {fuel bound : Nat} (small : bound < fuel) (start : keeps skipped document bound) (count : Nat) :
    SplitsLines skipped (document, count) (splitFrom fuel skipped (document, count)) := by
  induction fuel generalizing document skipped bound count with
  | zero => exact absurd small (Nat.not_lt_zero _)
  | succ fuel ih =>
      rw [splitFrom_succ]
      cases found : nextFed? document skipped with
      | none => exact .done found
      | some id =>
          cases located : locate? document id with
          | none =>
              obtain ⟨less, fewer, next⟩ := skips start found located
              simp only [located]
              exact .skips found located (ih (by omega) next count)
          | some place =>
              obtain ⟨less, fewer, next⟩ := splits start found located
              simp only [located]
              exact .splits found located (ih (by omega) next (count + 1))

/-- A skip lowers the line feeds outside of paragraphs that are left, a split lowers the number of splits and
leaves those line feeds. -/
theorem splitsLines_splitFrom (upright : Upright [] document) {tree : Outline} (holds : document.Holds [tree])
    (top : tree.id = document.root) {fuel : Nat}
    (bound : looseLeft document tree skipped + splits (tree.toTree document) < fuel) (count : Nat) :
    SplitsLines skipped (document, count) (splitFrom fuel skipped (document, count)) := by
  refine splitsLines_of_bound (fun skipped document bound => ∃ tree : Outline, Upright [] document ∧
    document.Holds [tree] ∧ tree.id = document.root ∧
      bound = looseLeft document tree skipped + splits (tree.toTree document)) ?_ ?_ bound
    ⟨tree, upright, holds, top, rfl⟩ count
  · rintro skipped document bound id ⟨tree, upright, holds, top, rfl⟩ found located
    have fewer := looseLeft_skip holds upright.sound found located
    exact ⟨_, by omega, tree, upright, holds, top, rfl⟩
  · rintro skipped document bound id paragraph path ⟨tree, upright, holds, top, rfl⟩ found located
    obtain ⟨next, split⟩ := splitsOnce upright holds top found located
    have fewer := split.fewer
    have loose := looseLeft_congr skipped split.free split.text
    exact ⟨_, by omega, next, split.upholds.upright, split.holds, split.top, rfl⟩

theorem feedProduct_le_splitFuel {tree : Outline} (holds : document.Holds [tree])
    (top : tree.id = document.root) :
    feedProduct (Tree.elementsAll (toTrees document tree.children)) ≤ splitFuel document := by
  have inside : document.Holds ((Context.top [] []).fill [tree]) := holds
  have counts : (Tree.elementsAll (toTrees document tree.children)).map (fun element =>
      feeds element.text + 1) = (idsAll tree.children).map fun id => (lines (document.text id)).length := by
    rw [Document.elementsAll_toTrees, List.map_map]
    exact List.map_congr_left fun id _ => (length_lines (document.text id)).symm
  rw [splitFuel, ← top, inside.descendants, ← List.prod_eq_foldl, feedProduct, counts]
  exact Nat.le_mul_of_pos_left _ (Nat.succ_pos _)

theorem splits_lt_splitFuel (notParagraph : document.tag document.root ≠ Wordml.paragraph)
    (notText : document.tag document.root ≠ Wordml.text) {tree : Outline} (holds : document.Holds [tree])
    (top : tree.id = document.root) :
    looseLeft document tree [] + splits (tree.toTree document) < splitFuel document + 1 := by
  have bound := Nat.le_trans (splitsAll_bound (toTrees document tree.children))
    (feedProduct_le_splitFuel holds top)
  have some : looseLeft document tree [] = loose (toTrees document [tree]) := by
    rw [loose, ← map_text_freeTextsAll, freeTextsAll, freeTextsAll, List.append_nil, looseLeft]
    simp
  rw [some]
  cases tree with
  | node root children =>
      rw [Outline.id_node] at top
      subst top
      have other : (document.node document.root).tag ≠ Wordml.paragraph := notParagraph
      have own : ownFeeds (document.node document.root).toElement = 0 := if_neg notText
      rw [toTrees, toTrees, Outline.toTree, loose_of_other other, own, splits, if_neg other, Nat.zero_add]
      rw [Outline.children_node] at bound
      have sum := add_le_mul (loose (toTrees document children)) (splitsAll (toTrees document children))
      omega

/-- Splitting at all line feeds comes to an end. -/
theorem splitsLines_splitLines (upright : Upright [] document) :
    SplitsLines [] (document, 0) (splitLines document) := by
  obtain ⟨tree, top, holds⟩ := upright.stands
  have notText : document.tag document.root ≠ Wordml.text := fun same => upright.ne_root_of_text same rfl
  exact splitsLines_splitFrom upright holds top
    (splits_lt_splitFuel (tag_root_ne_paragraph upright) notText holds top) 0

end Runs

end WordTemplate.Filling
