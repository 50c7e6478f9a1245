import WordTemplate.Proofs.Filling.LinePieces
import WordTemplate.Proofs.Filling.SplitContent

/-! One split of a paragraph, where no paragraph stands in another one, as what it does to the trees of a
document: the copies say the lines of what the paragraph said, and one text with line feeds is gone. -/

namespace WordTemplate.Filling

open Markup
open Outline (idsAll toTrees)

theorem toTree_eta (document : Document) (outline : Outline) :
    outline.toTree document =
      .node (document.node outline.id).toElement (toTrees document outline.children) := by
  cases outline
  rfl

section Around

variable {document : Document} {context : Context}

theorem Replaces.trees {rule : List Tree → List (List Tree) → Prop}
    (same : ∀ children, rule children [children]) {filling others : List Tree}
    (replaces : Replaces rule filling others)
    (apart : ∀ tag ∈ context.tagsAbove document, tag ≠ Wordml.paragraph) :
    Replaces rule (context.trees document filling) (context.trees document others) := by
  induction context generalizing filling others with
  | top before after => exact ((Replaces.refl same _).append replaces).append (.refl same _)
  | under outer before after id ih =>
      rw [Context.tagsAbove, List.forall_mem_append] at apart
      refine ih ?_ apart.1
      exact .other (apart.2 _ (List.mem_singleton_self _))
        (((Replaces.refl same _).append replaces).append (.refl same _)) .nil

theorem fedTextsAll_trees (apart : ∀ tag ∈ context.tagsAbove document, tag ≠ Wordml.paragraph)
    (filling others : List Tree) :
    fedTextsAll (context.trees document filling) + fedTextsAll others =
      fedTextsAll (context.trees document others) + fedTextsAll filling := by
  induction context generalizing filling others with
  | top before after =>
      simp only [Context.trees, fedTextsAll_append]
      omega
  | under outer before after id ih =>
      rw [Context.tagsAbove, List.forall_mem_append] at apart
      have notParagraph : (document.node id).tag ≠ Wordml.paragraph := apart.2 _ (List.mem_singleton_self _)
      have whole := fun filling others => ih apart.1 [.node (document.node id).toElement filling]
        [.node (document.node id).toElement others]
      simp only [fedTextsAll, fedTexts_of_other notParagraph, Nat.add_zero] at whole
      have here := whole (toTrees document before ++ filling ++ toTrees document after)
        (toTrees document before ++ others ++ toTrees document after)
      simp only [fedTextsAll_append] at here
      rw [Context.trees, Context.trees]
      omega

end Around

/-- What may stand below an element: no paragraph in a paragraph, nothing in a text, which has no carriage
returns, and no text among the properties of a run. -/
structure Allows (element : Element) (below : List Element) : Prop where
  paragraphs : element.tag = Wordml.paragraph → ∀ inner ∈ below, inner.tag ≠ Wordml.paragraph
  texts : element.tag = Wordml.text → below = [] ∧ '\r' ∉ element.text.toList
  properties : element.tag = Wordml.runProperties → ∀ inner ∈ below, inner.tag ≠ Wordml.text

instance (element : Element) (below : List Element) : Decidable (Allows element below) :=
  decidable_of_iff ((element.tag = Wordml.paragraph → ∀ inner ∈ below, inner.tag ≠ Wordml.paragraph) ∧
      (element.tag = Wordml.text → below = [] ∧ '\r' ∉ element.text.toList) ∧
      (element.tag = Wordml.runProperties → ∀ inner ∈ below, inner.tag ≠ Wordml.text))
    ⟨fun ⟨paragraphs, texts, properties⟩ => ⟨paragraphs, texts, properties⟩,
      fun allows => ⟨allows.paragraphs, allows.texts, allows.properties⟩⟩

/-- A tree in which each element holds only what may stand below it. -/
inductive Splittable : Tree → Prop
  | node {element : Element} {children : List Tree} (here : Allows element (Tree.elementsAll children))
      (below : ∀ child ∈ children, Splittable child) : Splittable (.node element children)

section Splittable

theorem Allows.congr {element other : Element} {below inner : List Element} (allows : Allows element below)
    (tag : other.tag = element.tag) (free : other.tag = Wordml.text → '\r' ∉ other.text.toList)
    (tags : ∀ deeper ∈ inner, ∃ source ∈ below, source.tag = deeper.tag) : Allows other inner := by
  refine ⟨fun isParagraph deeper member => ?_, fun isText => ⟨?_, free isText⟩,
    fun isProperties deeper member => ?_⟩
  · obtain ⟨source, listed, same⟩ := tags deeper member
    exact same ▸ allows.paragraphs (tag ▸ isParagraph) source listed
  · rw [List.eq_nil_iff_forall_not_mem]
    intro deeper member
    obtain ⟨source, listed, -⟩ := tags deeper member
    rw [(allows.texts (tag ▸ isText)).1] at listed
    exact List.not_mem_nil listed
  · obtain ⟨source, listed, same⟩ := tags deeper member
    exact same ▸ allows.properties (tag ▸ isProperties) source listed

theorem splittable_node_iff {element : Element} {children : List Tree} :
    Splittable (.node element children) ↔
      Allows element (Tree.elementsAll children) ∧ ∀ child ∈ children, Splittable child :=
  ⟨fun | .node here below => ⟨here, below⟩, fun ⟨here, below⟩ => .node here below⟩

variable {document : Document} {context : Context} {filling others : List Tree}

theorem splittable_of_trees (whole : ∀ tree ∈ context.trees document filling, Splittable tree) :
    ∀ tree ∈ filling, Splittable tree := by
  induction context generalizing filling with
  | top before after => exact fun tree member => whole tree (by simp [Context.trees, member])
  | under outer before after id ih =>
      have here := (splittable_node_iff.mp (ih whole _ (List.mem_singleton_self _))).2
      exact fun tree member => here tree (by simp [member])

theorem allows_of_trees {outer : Context} {before after : List Outline} {id : NodeId}
    (whole : ∀ tree ∈ (Context.under outer before after id).trees document filling, Splittable tree) :
    Allows (document.node id).toElement
        (Tree.elementsAll (toTrees document before ++ filling ++ toTrees document after)) ∧
      ∀ child ∈ toTrees document before ++ filling ++ toTrees document after, Splittable child := by
  have inside : ∀ tree ∈ outer.trees document [.node (document.node id).toElement
      (toTrees document before ++ filling ++ toTrees document after)], Splittable tree := whole
  exact splittable_node_iff.mp (splittable_of_trees inside _ (List.mem_singleton_self _))

/-- A hole in a splittable tree may be filled with other splittable trees of the same tags. -/
theorem splittable_trees (whole : ∀ tree ∈ context.trees document filling, Splittable tree)
    (inside : ∀ tree ∈ others, Splittable tree)
    (tags : ∀ inner ∈ Tree.elementsAll others, ∃ source ∈ Tree.elementsAll filling, source.tag = inner.tag) :
    ∀ tree ∈ context.trees document others, Splittable tree := by
  induction context generalizing filling others with
  | top before after =>
      simp only [Context.trees, List.mem_append] at whole ⊢
      rintro tree ((front | here) | back)
      · exact whole tree (.inl (.inl front))
      · exact inside tree here
      · exact whole tree (.inr back)
  | under outer before after id ih =>
      have around : ∀ inner ∈ Tree.elementsAll (toTrees document before ++ others ++ toTrees document after),
          ∃ source ∈ Tree.elementsAll (toTrees document before ++ filling ++ toTrees document after),
            source.tag = inner.tag := by
        simp only [Tree.elementsAll_append, List.mem_append]
        rintro inner ((front | here) | back)
        · exact ⟨inner, .inl (.inl front), rfl⟩
        · obtain ⟨source, listed, same⟩ := tags inner here
          exact ⟨source, .inl (.inr listed), same⟩
        · exact ⟨inner, .inr back, rfl⟩
      obtain ⟨allows, below⟩ := allows_of_trees whole
      refine ih whole (List.forall_mem_singleton.mpr (.node ?_ ?_)) ?_
      · exact allows.congr rfl (fun isText => (allows.texts isText).2) around
      · simp only [List.mem_append] at below ⊢
        rintro tree ((front | here) | back)
        · exact below tree (.inl (.inl front))
        · exact inside tree here
        · exact below tree (.inr back)
      · simp only [Tree.elementsAll, Tree.elements, List.append_nil, List.mem_cons]
        rintro inner (rfl | deeper)
        · exact ⟨_, .inl rfl, rfl⟩
        · obtain ⟨source, listed, same⟩ := around inner deeper
          exact ⟨source, .inr listed, same⟩

theorem tagsAbove_of_splittable (whole : ∀ tree ∈ context.trees document filling, Splittable tree)
    {element : Element} (inside : element ∈ Tree.elementsAll filling)
    (isParagraph : element.tag = Wordml.paragraph) :
    ∀ tag ∈ context.tagsAbove document, tag ≠ Wordml.paragraph := by
  induction context generalizing filling with
  | top before after => simp [Context.tagsAbove]
  | under outer before after id ih =>
      have deeper :
          element ∈ Tree.elementsAll (toTrees document before ++ filling ++ toTrees document after) := by
        simp [Tree.elementsAll_append, inside]
      have among : element ∈ Tree.elementsAll [.node (document.node id).toElement
          (toTrees document before ++ filling ++ toTrees document after)] := by
        simpa only [Tree.elementsAll, Tree.elements, List.append_nil, List.mem_cons] using .inr deeper
      rw [Context.tagsAbove, List.forall_mem_append, List.forall_mem_singleton]
      refine ⟨ih whole among, fun above => ?_⟩
      exact (allows_of_trees whole).1.paragraphs above element deeper isParagraph

theorem allows_of_isLive {forest : List Outline} (holds : document.Holds forest)
    (splittable : ∀ shown ∈ toTrees document forest, Splittable shown) {id : NodeId}
    (live : document.isLive id = true) :
    Allows (document.node id).toElement
      ((document.descendants id).map fun inner => (document.node inner).toElement) := by
  obtain ⟨context, outline, rfl, rfl⟩ := Document.exists_context (holds.mem_of_isLive id live)
  rw [Context.toTrees_fill] at splittable
  have here := splittable_of_trees splittable (outline.toTree document) (by simp [toTrees])
  rw [holds.descendants]
  cases outline with
  | node id children =>
      rw [Outline.toTree, splittable_node_iff, Document.elementsAll_toTrees] at here
      exact here.1

end Splittable

/-- A line with what goes with it of the texts in front of the split text and behind it. -/
def Line.texts (front back : List String) (line : Line) : List String :=
  (if line.isFirst then front else []) ++ line.content :: (if line.isLast then back else [])

theorem flatMap_texts (front back : List String) (line : Line) :
    (line.texts front back).flatMap String.toList =
      line.around (front.flatMap String.toList) (back.flatMap String.toList) := by
  rw [Line.texts, Line.around, List.flatMap_append, List.flatMap_cons, List.append_assoc]
  cases line.isFirst <;> cases line.isLast <;> rfl

theorem countP_texts (front back : List String) {line : Line} (free : feeds line.content = 0) :
    (line.texts front back).countP holdsLineFeed =
      line.share (front.countP holdsLineFeed) (back.countP holdsLineFeed) := by
  have none : holdsLineFeed line.content = false := by
    rw [← Bool.not_eq_true, holdsLineFeed_iff]
    omega
  rw [Line.texts, Line.share, List.countP_append, List.countP_cons, none]
  cases line.isFirst <;> cases line.isLast <;> simp

section Copies

variable {first second : Document} {slot : NodeId → NodeId} {gone : List NodeId}

theorem tags_copy {outline : Outline} (tags : ∀ id ∈ outline.ids, second.tag (slot id) = first.tag id) :
    ∀ inner ∈ (((outline.prune gone).rename slot).toTree second).elements,
      ∃ source ∈ (outline.toTree first).elements, source.tag = inner.tag := by
  intro inner member
  rw [Document.elements_toTree, Outline.ids_rename, List.map_map] at member
  obtain ⟨id, listed, rfl⟩ := List.mem_map.mp member
  have inside := Outline.ids_prune_subset outline listed
  rw [Document.elements_toTree]
  exact ⟨_, List.mem_map_of_mem inside, (tags id inside).symm⟩

theorem splittable_copy {outline : Outline} (tags : ∀ id ∈ outline.ids, second.tag (slot id) = first.tag id)
    (free : ∀ id ∈ outline.ids, second.tag (slot id) = Wordml.text → '\r' ∉ (second.text (slot id)).toList)
    (splittable : Splittable (outline.toTree first)) :
    Splittable (((outline.prune gone).rename slot).toTree second) := by
  induction outline using Outline.induction with
  | node id children ih =>
      rw [Outline.toTree, splittable_node_iff] at splittable
      rw [Outline.ids, List.forall_mem_cons] at tags free
      have below : ∀ tree ∈ toTrees second (Outline.renameAll slot (Outline.pruneAll gone children)),
          ∃ child ∈ children, tree = ((child.prune gone).rename slot).toTree second := by
        intro tree member
        rw [Outline.toTrees_eq, Outline.renameAll_eq, List.map_map] at member
        obtain ⟨pruned, listed, rfl⟩ := List.mem_map.mp member
        obtain ⟨child, inside, rfl⟩ := Outline.exists_of_mem_pruneAll listed
        exact ⟨child, inside, rfl⟩
      have within : ∀ child ∈ children, ∀ inner ∈ child.ids, inner ∈ idsAll children :=
        fun child inside inner member => Outline.mem_idsAll.mpr ⟨child, inside, member⟩
      refine .node (splittable.1.congr tags.1 free.1 fun inner member => ?_) fun tree member => ?_
      · rw [Tree.elementsAll_eq] at member
        obtain ⟨tree, listed, deeper⟩ := List.mem_flatMap.mp member
        obtain ⟨child, inside, rfl⟩ := below tree listed
        obtain ⟨source, found, same⟩ :=
          tags_copy (fun id member => tags.2 id (within child inside id member)) inner deeper
        rw [Tree.elementsAll_eq, Outline.toTrees_eq]
        exact ⟨source, List.mem_flatMap.mpr ⟨_, List.mem_map_of_mem inside, found⟩, same⟩
      · obtain ⟨child, inside, rfl⟩ := below tree member
        refine ih child inside (fun id member => tags.2 id (within child inside id member))
          (fun id member => free.2 id (within child inside id member)) (splittable.2 _ ?_)
        rw [Outline.toTrees_eq]
        exact List.mem_map_of_mem inside

end Copies

section OneSplit

variable {document result : Document} {context : Context} {paragraph : Outline} {id : NodeId}
  (sound : document.Sound) (holds : document.Holds (context.fill [paragraph]))
  (splittable : ∀ shown ∈ toTrees document (context.fill [paragraph]), Splittable shown)

include sound holds splittable in
theorem bare_of_splittable (other : NodeId) (isText : document.tag other = Wordml.text) :
    document.descendants other = [] := by
  by_cases live : document.isLive other = true
  · exact List.map_eq_nil_iff.mp ((allows_of_isLive holds splittable live).texts isText).1
  · rw [List.eq_nil_iff_forall_not_mem]
    intro inner below
    obtain ⟨child, lists, -⟩ := sound.mem_descendants_iff.mp below
    exact live (sound.wellFormed.parent_live lists)

include sound holds splittable in
theorem textless_of_splittable (run other : NodeId) (inside : Wordml.InProperties document run other) :
    document.tag other ≠ Wordml.text := by
  obtain ⟨properties, lists, tag, place⟩ := inside
  rcases List.mem_cons.mp place with rfl | below
  · rw [tag]
    decide
  · have live : document.isLive properties = true := sound.wellFormed.child_live lists
    exact (allows_of_isLive holds splittable live).properties tag _ (List.mem_map_of_mem below)

variable (isParagraph : document.tag paragraph.id = Wordml.paragraph)

include sound holds splittable isParagraph in
/-- What the copy for a line owns. -/
theorem texts_of_lineCopy {line : Line} {copy : LineTwin}
    (lineCopy : LineCopy document paragraph id result line copy) {front back : List NodeId}
    (parts : Wordml.ownTexts document paragraph.id = front ++ id :: back) :
    textsOutsideAll [Wordml.paragraph] (toTrees result (copy.outline paragraph).children) =
      line.texts (front.map document.text) (back.map document.text) := by
  have ids := ids_eq_descendants holds
  have nodup := parts ▸ Wordml.nodup_ownTexts sound paragraph.id
  have inner : ∀ other ∈ Wordml.ownTexts document paragraph.id, other ∈ paragraph.ids := fun other own =>
    ids ▸ List.mem_cons_of_mem _ (Wordml.mem_ownTexts.mp own).1
  have tags : ∀ other ∈ idsAll (Outline.pruneAll copy.gone paragraph.children),
      result.tag (copy.slot other) = document.tag other := by
    intro other member
    have inside := Outline.idsAll_pruneAll_subset _ member
    rw [← holds.descendants] at inside
    exact lineCopy.tag_slot (ids ▸ List.mem_cons_of_mem _ inside)
  -- Of the texts exactly those are gone that go with other lines.
  have left : (Wordml.ownTexts document paragraph.id).filter (· ∉ copy.gone) =
      (if line.isFirst then front else []) ++ id :: (if line.isLast then back else []) := by
    have stays := filter_doomed line nodup
    rw [← parts] at stays
    rw [← stays]
    refine List.filter_congr fun other own =>
      decide_eq_decide.mpr (not_congr ⟨fun lost => ?_, fun lost => ?_⟩)
    · exact lineCopy.goesWith.mem_texts (bare_of_splittable sound holds splittable)
        (textless_of_splittable sound holds splittable) lost (Wordml.mem_ownTexts.mp own).2.1
    · exact (lineCopy.goesWith.lost other lost).1
  have others : ∀ ids : List NodeId, (∀ other ∈ ids, other ∈ paragraph.ids ∧ other ≠ id) →
      (ids.map copy.slot).map result.text = ids.map document.text := by
    intro ids apart
    rw [List.map_map]
    exact List.map_congr_left fun other listed =>
      congrArg Element.text (lineCopy.element other (apart other listed).1 (apart other listed).2)
  obtain ⟨-, nodupBack, apart⟩ := List.nodup_append.mp nodup
  have ofFront := others front fun other listed =>
    ⟨inner other (parts ▸ by simp [listed]), apart other listed id (by simp)⟩
  have ofBack := others back fun other listed =>
    ⟨inner other (parts ▸ by simp [listed]), fun here => (List.nodup_cons.mp nodupBack).1 (here ▸ listed)⟩
  rw [← map_text_freeTextsAll, LineTwin.children_outline, freeTextsAll_rename _ tags,
    freeTextsAll_pruneAll _ (Document.links_children holds) lineCopy.closed, ← ownTexts_eq holds isParagraph,
    left, Line.texts, List.map_append, List.map_append, List.map_cons, List.map_cons, lineCopy.content]
  cases line.isFirst <;> cases line.isLast <;> simp only [ofFront, ofBack, if_true, Bool.false_eq_true,
    if_false, List.map_nil]

variable {copies : List LineTwin} (splits : SplitsInto document context paragraph id result copies)
  (own : id ∈ Wordml.ownTexts document paragraph.id)

include splits in
theorem exists_line_of_mem {copy : LineTwin} (member : copy ∈ copies) :
    ∃ line ∈ linesOf (document.text id), LineCopy document paragraph id result line copy := by
  obtain ⟨k, here⟩ := List.getElem?_of_mem member
  obtain ⟨line, found, lineCopy⟩ := exists_getElem?_of_forall₂ splits.lines here
  exact ⟨line, List.mem_of_getElem? found, lineCopy⟩

include isParagraph splits own in
theorem trees_copies : toTrees result (copies.map (LineTwin.outline paragraph)) =
    (copies.map fun copy => toTrees result (copy.outline paragraph).children).map
      (.node (document.node paragraph.id).toElement) := by
  have apart : paragraph.id ≠ id := by
    rintro rfl
    rw [(Wordml.mem_ownTexts.mp own).2.1] at isParagraph
    exact absurd isParagraph (by decide)
  rw [Outline.toTrees_eq, List.map_map, List.map_map]
  refine List.map_congr_left fun copy member => ?_
  obtain ⟨line, -, lineCopy⟩ := exists_line_of_mem splits member
  rw [Function.comp_apply, Function.comp_apply, ← lineCopy.element _ paragraph.id_mem_ids apart,
    ← LineTwin.id_outline, ← Outline.node_eta (copy.outline paragraph)]
  rfl

include sound holds splittable isParagraph splits own in
theorem texts_copies : ∃ front back : List String,
    textsOutsideAll [Wordml.paragraph] (toTrees document paragraph.children) =
        front ++ document.text id :: back ∧
      (copies.map fun copy => textsOutsideAll [Wordml.paragraph]
        (toTrees result (copy.outline paragraph).children)) =
        (linesOf (document.text id)).map (Line.texts front back) := by
  obtain ⟨front, back, parts⟩ := List.append_of_mem own
  refine ⟨front.map document.text, back.map document.text, ?_, ?_⟩
  · rw [← map_text_freeTextsAll, ← ownTexts_eq holds isParagraph, parts, List.map_append, List.map_cons]
  · have each : List.Forall₂ (· = ·)
        ((linesOf (document.text id)).map (Line.texts (front.map document.text) (back.map document.text)))
        (copies.map fun copy => textsOutsideAll [Wordml.paragraph]
          (toTrees result (copy.outline paragraph).children)) :=
      List.forall₂_map_left_iff.mpr (List.forall₂_map_right_iff.mpr (splits.lines.imp
        fun line copy lineCopy =>
          (texts_of_lineCopy sound holds splittable isParagraph lineCopy parts).symm))
    rw [List.forall₂_eq_eq_eq] at each
    exact each.symm

include sound holds splittable isParagraph splits own in
theorem towardsLines_copies (fed : holdsLineFeed (document.text id) = true) :
    TowardsLines (toTrees document paragraph.children)
      (copies.map fun copy => toTrees result (copy.outline paragraph).children) := by
  obtain ⟨front, back, parts, texts⟩ := texts_copies sound holds splittable isParagraph splits own
  have live := (((sound.descendants _).2 _).mp (Wordml.mem_ownTexts.mp own).1).1
  have free : '\r' ∉ (document.text id).toList :=
    ((allows_of_isLive holds splittable live).texts (Wordml.mem_ownTexts.mp own).2.1).2
  have whole : ownText (toTrees document paragraph.children) =
      front.flatMap String.toList ++ (document.text id).toList ++ back.flatMap String.toList := by
    rw [ownText, parts, List.flatMap_append, List.flatMap_cons, List.append_assoc]
  refine ⟨?_, fun none => absurd ?_ none⟩
  · calc (copies.map fun copy => toTrees result (copy.outline paragraph).children).flatMap
          (fun copy => Text.pieces '\n' (ownText copy))
        = (copies.map fun copy => textsOutsideAll [Wordml.paragraph]
            (toTrees result (copy.outline paragraph).children)).flatMap
              fun texts => Text.pieces '\n' (texts.flatMap String.toList) := by
          rw [List.flatMap_map, List.flatMap_map]
          rfl
      _ = (linesOf (document.text id)).flatMap fun line => Text.pieces '\n'
            (line.around (front.flatMap String.toList) (back.flatMap String.toList)) := by
          rw [texts, List.flatMap_map]
          exact List.flatMap_congr fun line _ => by rw [flatMap_texts]
      _ = Text.pieces '\n' (ownText (toTrees document paragraph.children)) := by
          rw [flatMap_pieces_around _ _ free, whole]
  · rw [whole, List.mem_append, List.mem_append]
    exact .inl (.inr (List.contains_iff_mem.mp fed))

include holds splittable own in
theorem free_of_lineCopy {line : Line} {copy : LineTwin} (among : line ∈ linesOf (document.text id))
    (lineCopy : LineCopy document paragraph id result line copy) :
    ∀ other ∈ paragraph.ids, result.tag (copy.slot other) = Wordml.text →
      '\r' ∉ (result.text (copy.slot other)).toList := by
  have free : ∀ other ∈ paragraph.ids, document.tag other = Wordml.text →
      '\r' ∉ (document.text other).toList := fun other member isText => by
    have live := holds.isLive_of_mem ((Document.idsAll_fill context [paragraph]).mem_iff.mpr
      (List.mem_append_right _ (by simpa [idsAll] using member)))
    exact ((allows_of_isLive holds splittable live).texts isText).2
  obtain ⟨below, isText, -⟩ := Wordml.mem_ownTexts.mp own
  have member : id ∈ paragraph.ids := ids_eq_descendants holds ▸ List.mem_cons_of_mem _ below
  intro other inside copyText
  by_cases here : other = id
  · obtain ⟨entry, found, rfl⟩ := List.mem_map.mp among
    have part := infix_of_mem_lines (List.fst_mem_of_mem_zipIdx found)
    rw [here, lineCopy.content]
    exact fun lost => free id member isText (part.subset lost)
  · have same : result.text (copy.slot other) = document.text other :=
      congrArg Element.text (lineCopy.element other inside here)
    rw [lineCopy.tag_slot inside] at copyText
    exact same ▸ free other inside copyText

include splittable in
theorem splittable_paragraph : Splittable (paragraph.toTree document) := by
  rw [Context.toTrees_fill] at splittable
  exact splittable_of_trees splittable _ (by simp [toTrees])

include holds splittable splits own in
theorem splittable_copies :
    (∀ copy ∈ toTrees result (copies.map (LineTwin.outline paragraph)), Splittable copy) ∧
      ∀ inner ∈ Tree.elementsAll (toTrees result (copies.map (LineTwin.outline paragraph))),
        ∃ source ∈ Tree.elementsAll [paragraph.toTree document], source.tag = inner.tag := by
  have trees : toTrees result (copies.map (LineTwin.outline paragraph)) =
      copies.map fun copy => (copy.outline paragraph).toTree result := by
    rw [Outline.toTrees_eq, List.map_map]
    rfl
  rw [trees, Tree.elementsAll_eq, List.forall_mem_map]
  refine ⟨fun copy listed => ?_, fun inner inside => ?_⟩
  · obtain ⟨line, among, lineCopy⟩ := exists_line_of_mem splits listed
    exact splittable_copy (fun _ => lineCopy.tag_slot) (free_of_lineCopy holds splittable own among lineCopy)
      (splittable_paragraph splittable)
  · obtain ⟨_, among, deeper⟩ := List.mem_flatMap.mp inside
    obtain ⟨copy, listed, rfl⟩ := List.mem_map.mp among
    obtain ⟨line, -, lineCopy⟩ := exists_line_of_mem splits listed
    obtain ⟨source, found, same⟩ := tags_copy (fun _ => lineCopy.tag_slot) inner deeper
    exact ⟨source, by simpa [Tree.elementsAll] using found, same⟩

theorem fedTexts_of_splittable {element : Element} {children : List Tree}
    (isParagraph : element.tag = Wordml.paragraph) (splittable : Splittable (.node element children)) :
    fedTexts (.node element children) =
      (textsOutsideAll [Wordml.paragraph] children).countP holdsLineFeed := by
  have none := (splittable_node_iff.mp splittable).1.paragraphs isParagraph
  rw [fedTexts, if_pos isParagraph, fedTextsAll_of_none none, Nat.add_zero]

include sound holds splittable isParagraph splits own in
/-- A split takes one text with line feeds away. -/
theorem fedTextsAll_copies (fed : holdsLineFeed (document.text id) = true) :
    fedTextsAll (toTrees result (copies.map (LineTwin.outline paragraph))) + 1 =
      fedTexts (paragraph.toTree document) := by
  obtain ⟨front, back, parts, texts⟩ := texts_copies sound holds splittable isParagraph splits own
  have top := toTree_eta document paragraph
  have whole := splittable_paragraph splittable
  have copied := (splittable_copies holds splittable splits own).1
  rw [top] at whole
  rw [trees_copies isParagraph splits own] at copied ⊢
  have each : ∀ copy ∈ copies, fedTexts (.node (document.node paragraph.id).toElement
      (toTrees result (copy.outline paragraph).children)) =
        (textsOutsideAll [Wordml.paragraph] (toTrees result (copy.outline paragraph).children)).countP
          holdsLineFeed := fun copy member =>
    fedTexts_of_splittable isParagraph (copied _ (List.mem_map_of_mem (List.mem_map_of_mem member)))
  have sum : fedTextsAll ((copies.map fun copy => toTrees result (copy.outline paragraph).children).map
      (.node (document.node paragraph.id).toElement)) =
        front.countP holdsLineFeed + back.countP holdsLineFeed := by
    calc fedTextsAll ((copies.map fun copy => toTrees result (copy.outline paragraph).children).map
            (.node (document.node paragraph.id).toElement))
        = ((copies.map fun copy => textsOutsideAll [Wordml.paragraph]
            (toTrees result (copy.outline paragraph).children)).map (List.countP holdsLineFeed)).sum := by
          rw [fedTextsAll_eq, List.map_map, List.map_map, List.map_map]
          exact congrArg List.sum (List.map_congr_left each)
      _ = ((linesOf (document.text id)).map
            (Line.share (front.countP holdsLineFeed) (back.countP holdsLineFeed))).sum := by
          rw [texts, List.map_map]
          exact congrArg List.sum (List.map_congr_left fun line member =>
            countP_texts front back (feeds_of_mem_linesOf member))
      _ = front.countP holdsLineFeed + back.countP holdsLineFeed := sum_share ..
  rw [sum, top, fedTexts_of_splittable isParagraph whole, parts, List.countP_append, List.countP_cons,
    if_pos fed, Nat.add_assoc]

end OneSplit

structure Cuts (trees others : List Tree) : Prop where
  replaces : Replaces TowardsLines trees others
  splittable : ∀ shown ∈ others, Splittable shown
  fewer : fedTextsAll others + 1 = fedTextsAll trees

section Trees

variable {document result : Document} {context : Context} {paragraph : Outline} {id : NodeId}
  {copies : List LineTwin} (holds : document.Holds (context.fill [paragraph]))
  (isParagraph : document.tag paragraph.id = Wordml.paragraph)
  (splits : SplitsInto document context paragraph id result copies)
include holds splits

theorem around_of_splitsInto : ∀ inner ∈ context.ids,
    (result.node inner).toElement = (document.node inner).toElement :=
  fun inner member => splits.old inner
    (Document.lt_size_of_isLive ((Document.holds_fill_iff.mp holds).isLive_of_mem_ids member))

include isParagraph

theorem freeTextsAll_of_splitsInto :
    freeTextsAll result (context.fill (copies.map (LineTwin.outline paragraph))) =
      freeTextsAll document (context.fill [paragraph]) := by
  refine freeTextsAll_fill_congr (fun inner member =>
    congrArg Element.tag (around_of_splitsInto holds splits inner member)) ?_
  have tags : ∀ copy ∈ copies.map (LineTwin.outline paragraph), result.tag copy.id = Wordml.paragraph := by
    intro copy listed
    obtain ⟨twin, member, rfl⟩ := List.mem_map.mp listed
    obtain ⟨line, -, lineCopy⟩ := exists_line_of_mem splits member
    rw [LineTwin.id_outline, lineCopy.tag_slot paragraph.id_mem_ids, isParagraph]
  rw [freeTextsAll_of_paragraphs tags, freeTextsAll_of_paragraphs (by simpa using isParagraph)]

theorem cuts_of_splitsInto (sound : document.Sound)
    (splittable : ∀ shown ∈ toTrees document (context.fill [paragraph]), Splittable shown)
    (own : id ∈ Wordml.ownTexts document paragraph.id) (fed : holdsLineFeed (document.text id) = true) :
    Cuts (toTrees document (context.fill [paragraph]))
      (toTrees result (context.fill (copies.map (LineTwin.outline paragraph)))) := by
  have around := around_of_splitsInto holds splits
  have fewer := fedTextsAll_copies sound holds splittable isParagraph splits own fed
  have towards := towardsLines_copies sound holds splittable isParagraph splits own fed
  obtain ⟨inside, tags⟩ := splittable_copies holds splittable splits own
  have top := toTree_eta document paragraph
  have single : toTrees document [paragraph] = [paragraph.toTree document] := rfl
  rw [Context.toTrees_fill, single] at splittable
  rw [Context.toTrees_fill, Context.toTrees_fill, Wordml.trees_congr around, single]
  have apart := tagsAbove_of_splittable splittable (by rw [top]; exact List.mem_cons_self ..) isParagraph
  refine ⟨.trees TowardsLines.refl ?_ apart, splittable_trees splittable inside tags, ?_⟩
  · have replaced : Replaces TowardsLines
        [.node (document.node paragraph.id).toElement (toTrees document paragraph.children)]
        ((copies.map fun copy => toTrees result (copy.outline paragraph).children).map
          (.node (document.node paragraph.id).toElement) ++ []) :=
      .paragraph isParagraph towards .nil
    rwa [List.append_nil, ← trees_copies isParagraph splits own, ← top] at replaced
  · have whole := fedTextsAll_trees apart (toTrees result (copies.map (LineTwin.outline paragraph)))
      [paragraph.toTree document]
    rw [fedTextsAll, fedTextsAll, Nat.add_zero] at whole
    omega

end Trees

end WordTemplate.Filling
