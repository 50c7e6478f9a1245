import WordTemplate.Proofs.Filling.LineCopies

/-! What a split makes of the content of a paragraph. Each line gets all of it but other texts: of these the
ones in front go with the first line and the ones behind with the last, while what is no text is there once
for each line. -/

namespace WordTemplate.Filling

open Markup
open Outline (idsAll)
open Wordml (Topped InProperties)

def InRunProperties (document : Document) (id : NodeId) : Prop :=
  ∃ run, document.tag run = Wordml.run ∧ InProperties document run id

/-- Nodes of the second document stand where a node of the first one stood among the children of its
parent. -/
def TakePlace (first second : Document) (id : NodeId) (others : List NodeId) : Prop :=
  ∃ parent before after, first.children parent = before ++ id :: after ∧
    second.children parent = before ++ others ++ after

/-- A node is copied to below a copy of a paragraph. -/
def LineTwin.Shows (result : Document) (paragraph : NodeId) (copy : LineTwin) (id : NodeId) : Prop :=
  copy.slot id ∈ result.descendants (copy.slot paragraph)

/-- One of the paragraphs that a paragraph is split into at a text. A line stands in the place of the text,
and of all else only other texts are missing, with what is below them, and runs in which nothing but such
texts and properties stood, with their properties. -/
structure Share (document result : Document) (paragraph id : NodeId) (removed : List NodeId)
    (content : String) (copy : LineTwin) : Prop where
  descendants : result.descendants (copy.slot paragraph) =
    ((document.descendants paragraph).filter (· ∉ copy.gone)).map copy.slot
  children : ∀ other ∈ paragraph :: document.descendants paragraph, other ∉ copy.gone →
    result.children (copy.slot other) = ((document.children other).filter (· ∉ copy.gone)).map copy.slot
  injective : ∀ first ∈ paragraph :: document.descendants paragraph,
    ∀ second ∈ paragraph :: document.descendants paragraph,
      copy.slot first = copy.slot second → first = second
  element : ∀ other ∈ paragraph :: document.descendants paragraph, other ≠ id →
    (result.node (copy.slot other)).toElement = (document.node other).toElement
  content : result.tag (copy.slot id) = document.tag id ∧ result.text (copy.slot id) = content
  lost : ∀ other ∈ removed, ¬ copy.Shows result paragraph other
  kept : ∀ other ∈ document.descendants paragraph,
    (∀ source ∈ removed, other ∉ source :: document.descendants source) → document.tag other ≠ Wordml.run →
      ¬ InRunProperties document other → copy.Shows result paragraph other
  runs : ∀ run ∈ document.descendants paragraph, document.tag run = Wordml.run →
    ¬ copy.Shows result paragraph run →
      (∃ source ∈ removed, run ∈ document.descendants source) ∨ InRunProperties document run ∨
        (∃ source ∈ removed, document.Lists run source) ∧
          ∀ child, document.Lists run child → child ∈ removed ∨ document.tag child = Wordml.runProperties ∨
            document.tag child = Wordml.run ∧ ¬ copy.Shows result paragraph child

section Shares

variable {document result : Document} {context other : Context} {paragraph : Outline} {id : NodeId}
  {line : Line} {copy : LineTwin}

theorem ids_eq_descendants (holds : document.Holds (context.fill [paragraph])) :
    paragraph.ids = paragraph.id :: document.descendants paragraph.id := by
  rw [holds.descendants, ← Outline.node_eta paragraph]
  rfl

section Line

variable (lineCopy : LineCopy document paragraph id result line copy)
  (holds : document.Holds (context.fill [paragraph]))
  (copied : result.Holds (other.fill [copy.outline paragraph]))
include lineCopy holds copied

theorem LineCopy.descendants : result.descendants (copy.slot paragraph.id) =
    ((document.descendants paragraph.id).filter (· ∉ copy.gone)).map copy.slot := by
  have below := copied.descendants
  rw [LineTwin.id_outline] at below
  have pruned := Outline.idsAll_pruneAll paragraph.children (Document.links_children holds) lineCopy.closed
  rw [below, LineTwin.children_outline, Outline.idsAll_renameAll, pruned, holds.descendants]

theorem LineCopy.shows_iff {inner : NodeId} (below : inner ∈ document.descendants paragraph.id) :
    copy.Shows result paragraph.id inner ↔ inner ∉ copy.gone := by
  have member : ∀ node ∈ document.descendants paragraph.id, node ∈ paragraph.ids := fun node inside =>
    ids_eq_descendants holds ▸ List.mem_cons_of_mem _ inside
  rw [LineTwin.Shows, lineCopy.descendants holds copied]
  constructor
  · intro mapped
    obtain ⟨source, left, same⟩ := List.mem_map.mp mapped
    obtain ⟨inside, kept⟩ := List.mem_filter.mp left
    rw [← lineCopy.injective source (member source inside) inner (member inner below) same]
    simpa using kept
  · exact fun kept => List.mem_map_of_mem (List.mem_filter.mpr ⟨below, by simpa using kept⟩)

/-- The copy for a line is one of the shares. -/
theorem LineCopy.share :
    Share document result paragraph.id id (doomed line (Wordml.ownTexts document paragraph.id) id)
      line.content copy := by
  have ids := ids_eq_descendants holds
  have gone : copy.gone ⊆ document.descendants paragraph.id := holds.descendants ▸ lineCopy.inside
  have shows_iff : ∀ inner ∈ document.descendants paragraph.id,
      copy.Shows result paragraph.id inner ↔ inner ∉ copy.gone :=
    fun inner below => lineCopy.shows_iff holds copied below
  refine ⟨lineCopy.descendants holds copied, fun inner member kept => ?_, fun first one second two => ?_,
    fun inner member => ?_, ⟨lineCopy.tag, lineCopy.content⟩, fun inner listed => ?_,
    fun inner below apart notRun elsewhere => ?_, fun run below isRun missing => ?_⟩
  · exact Outline.children_of_prune (Document.holds_fill_iff.mp holds).links
      (Document.holds_fill_iff.mp copied).links lineCopy.closed (ids ▸ member) kept
  · exact lineCopy.injective first (ids ▸ one) second (ids ▸ two)
  · exact lineCopy.element inner (ids ▸ member)
  · have lost := (lineCopy.goesWith.lost inner listed).1
    exact fun shows => (shows_iff inner (gone lost)).mp shows lost
  · refine (shows_iff inner below).mpr fun lost => ?_
    rcases lineCopy.goesWith.goes inner lost with ⟨source, listed, place⟩ | ⟨run, emptied, rfl | inside⟩
    · exact apart source listed place
    · exact notRun emptied.tag
    · exact elsewhere ⟨run, emptied.tag, inside⟩
  · have lost : run ∈ copy.gone := by
      by_contra kept
      exact missing ((shows_iff run below).mpr kept)
    rcases lineCopy.goesWith.goes run lost with ⟨source, listed, place⟩ | ⟨outer, emptied, rfl | inside⟩
    · refine .inl ⟨source, listed, (List.mem_cons.mp place).resolve_left ?_⟩
      rintro rfl
      rw [(lineCopy.goesWith.lost run listed).2] at isRun
      exact absurd isRun (by decide)
    · refine .inr (.inr ⟨emptied.source, fun child lists => ?_⟩)
      refine (emptied.rest child lists).imp_right (Or.imp_right fun both => ⟨both.2, fun shows => ?_⟩)
      exact (shows_iff child (gone both.1)).mp shows both.1
    · exact .inr (.inl ⟨outer, emptied.tag, inside⟩)

end Line

end Shares

section Splits

variable {document : Document} {skipped : List NodeId} {id paragraph : NodeId} {path : List Nat}

/-- The paragraph that is split next stands below another node, and the text is one of its own. -/
theorem exists_under_of_nextFed? (topped : Topped document) (found : nextFed? document skipped = some id)
    (located : locate? document id = some (paragraph, path)) (below : paragraph ≠ document.root) :
    ∃ (outer : Context) (before after : List Outline) (parent : NodeId) (outline : Outline),
      outline.id = paragraph ∧ document.Holds ((Context.under outer before after parent).fill [outline]) ∧
      document.tag paragraph = Wordml.paragraph ∧ id ∈ Wordml.ownTexts document paragraph ∧
      document.follow? paragraph path = some id := by
  have sound := topped.sound
  obtain ⟨live, isText, -, -⟩ := of_nextFed? sound found
  obtain ⟨closest, leads⟩ := of_locate? located
  obtain ⟨isParagraph, paragraphLive, place⟩ := sound.below_of_closest? live closest
  rw [Document.isAny_singleton] at isParagraph
  have inside : id ∈ document.descendants paragraph := place.resolve_left fun same => by
    rw [same, isParagraph] at isText
    exact absurd isText (by decide)
  have own := Wordml.mem_ownTexts.mpr ⟨inside, isText, closest⟩
  have inRoot : id ∈ document.descendants document.root :=
    (List.mem_filter.mp (List.mem_of_find?_eq_some found)).1
  have belowRoot : paragraph ∈ document.descendants document.root := by
    rcases sound.comparable (.inr inside) (.inr inRoot) with same | inner | outer
    · exact absurd same below
    · exact inner
    · exact absurd outer (topped.root_not_below paragraph)
  obtain ⟨context, outline, rfl, holds⟩ := sound.exists_context paragraphLive
  cases context with
  | top before after =>
      have free := (Document.holds_fill_iff.mp holds).top.parent
      obtain ⟨parent, -, lists⟩ := Relation.TransGen.tail'_iff.mp
        (((sound.descendants document.root).2 outline.id).mp belowRoot).2
      have above : document.parent? outline.id = some parent := sound.wellFormed.above lists
      simp only [Context.parent?] at free
      rw [free] at above
      simp at above
  | under outer before after parent =>
      exact ⟨outer, before, after, parent, outline, rfl, holds, isParagraph, own,
        Document.follow?_of_path? leads⟩

theorem getElem?_linesOf (content : String) (k : Nat) :
    (linesOf content)[k]? =
      (lines content)[k]?.map fun line => ⟨line, k = 0, k + 1 = (lines content).length⟩ := by
  simp only [linesOf, List.getElem?_map, List.getElem?_zipIdx, Option.map_map, Nat.zero_add]
  rfl

theorem exists_getElem?_of_forall₂ {α β : Type} {related : α → β → Prop} {items : List α} {others : List β}
    (all : List.Forall₂ related items others) {k : Nat} {other : β} (here : others[k]? = some other) :
    ∃ item, items[k]? = some item ∧ related item other := by
  induction all generalizing k with
  | nil => simp at here
  | cons first _ ih =>
      cases k with
      | zero =>
          rw [List.getElem?_cons_zero, Option.some.injEq] at here
          exact ⟨_, List.getElem?_cons_zero, here ▸ first⟩
      | succ k =>
          rw [List.getElem?_cons_succ] at here
          simpa using ih here

theorem exists_line_of_splitsInto {context : Context} {outline : Outline} {result : Document}
    {copies : List LineTwin} (splits : SplitsInto document context outline id result copies) {k : Nat}
    {copy : LineTwin} (here : copies[k]? = some copy) :
    ∃ content, (lines (document.text id))[k]? = some content ∧
      LineCopy document outline id result ⟨content, k = 0, k + 1 = copies.length⟩ copy := by
  have length : copies.length = (lines (document.text id)).length := by
    rw [← splits.lines.length_eq, length_linesOf, length_lines]
  obtain ⟨line, found, lineCopy⟩ := exists_getElem?_of_forall₂ splits.lines here
  rw [getElem?_linesOf, Option.map_eq_some_iff] at found
  obtain ⟨content, listed, rfl⟩ := found
  exact ⟨content, listed, by rwa [length]⟩

theorem takePlace_fill {first second : Document} {outer : Context} {before after others : List Outline}
    {parent : NodeId} {outline : Outline}
    (holds : first.Holds ((Context.under outer before after parent).fill [outline]))
    (filled : second.Holds ((Context.under outer before after parent).fill others)) :
    TakePlace first second outline.id (others.map Outline.id) := by
  have here := (Document.holds_fill_iff.mp holds).siblings.1
  have inside : second.Holds (outer.fill [.node parent (before ++ others ++ after)]) := filled
  have there := (Document.holds_fill_iff.mp inside).top.children
  refine ⟨parent, before.map Outline.id, after.map Outline.id, ?_, ?_⟩
  · simpa using here
  · simpa using there

/-- A paragraph that is split at a text is replaced at its place by one copy for each line of the text. Of
its other own texts the ones in front go with the first copy only and the ones behind with the last one only.
All else that is no run, and stands neither in one of these texts nor among the properties of a run, is there
in every copy, as it was. A run is missing from a copy only with one of these texts that it lists, when beside
it there are only more of them, properties and runs that are missing too. -/
theorem splitParagraph_shares (topped : Topped document) (found : nextFed? document skipped = some id)
    (located : locate? document id = some (paragraph, path)) (below : paragraph ≠ document.root) :
    ∃ (front back : List NodeId) (copies : List LineTwin),
      Wordml.ownTexts document paragraph = front ++ id :: back ∧
      TakePlace document (splitParagraph document paragraph path (document.text id)) paragraph
        (copies.map fun copy => copy.slot paragraph) ∧
      copies.length = (lines (document.text id)).length ∧
      ∀ k copy, copies[k]? = some copy → ∃ content, (lines (document.text id))[k]? = some content ∧
        Share document (splitParagraph document paragraph path (document.text id)) paragraph id
          ((if k = 0 then [] else front) ++ (if k + 1 = copies.length then [] else back)) content copy := by
  obtain ⟨outer, before, after, parent, outline, rfl, holds, isParagraph, own, leads⟩ :=
    exists_under_of_nextFed? topped found located below
  obtain ⟨copies, splits⟩ := splitsInto_splitParagraph topped.sound holds isParagraph leads own
  generalize splitParagraph document outline.id path (document.text id) = result at *
  obtain ⟨front, back, parts⟩ := List.append_of_mem own
  have nodup := parts ▸ Wordml.nodup_ownTexts topped.sound outline.id
  refine ⟨front, back, copies, parts, ?_, ?_, fun k copy here => ?_⟩
  · have place := takePlace_fill holds splits.holds
    have tops : (copies.map (LineTwin.outline outline)).map Outline.id =
        copies.map fun copy => copy.slot outline.id := by
      rw [List.map_map]
      exact List.map_congr_left fun copy _ => LineTwin.id_outline outline copy
    rwa [tops] at place
  · rw [← splits.lines.length_eq, length_linesOf, length_lines]
  · obtain ⟨content, listed, lineCopy⟩ := exists_line_of_splitsInto splits here
    obtain ⟨front', back', rfl⟩ := List.append_of_mem (List.mem_of_getElem? here)
    have atCopy : result.Holds (((Context.under outer before after parent).beside
        (front'.map (LineTwin.outline outline)) (back'.map (LineTwin.outline outline))).fill
          [copy.outline outline]) := by
      rw [Context.fill_beside]
      simpa using splits.holds
    have share := lineCopy.share holds atCopy
    rw [parts, doomed_eq _ nodup] at share
    exact ⟨content, listed, by simpa using share⟩

/-- A picture in front of a text of two lines. -/
def pictureText : String :=
  "<w:document><w:body><w:p><w:r><w:drawing/></w:r><w:r><w:t>x\ny</w:t></w:r></w:p></w:body></w:document>"

def pictureDocument : Document :=
  Document.ofTree false <| .node { tag := "w:document" } [.node { tag := "w:body" } [.node { tag := "w:p" }
    [.node { tag := "w:r" } [.node { tag := "w:drawing" } []],
      .node { tag := "w:r" } [.node { tag := "w:t", text := "x\ny" } []]]]]

/-- The picture stands in both paragraphs. -/
theorem splitParagraph_shares_picture :
    nextFed? pictureDocument [] = some 6 ∧ locate? pictureDocument 6 = some (2, [1, 0]) ∧
      ∃ first second : LineTwin,
        TakePlace pictureDocument (splitParagraph pictureDocument 2 [1, 0] "x\ny") 2
          [first.slot 2, second.slot 2] ∧
        first.Shows (splitParagraph pictureDocument 2 [1, 0] "x\ny") 2 4 ∧
        second.Shows (splitParagraph pictureDocument 2 [1, 0] "x\ny") 2 4 := by
  have topped : Topped pictureDocument :=
    Wordml.topped_of_parse (show Document.parse pictureText = .ok pictureDocument by cbv)
  have found : nextFed? pictureDocument [] = some 6 := by decide +kernel
  have located : locate? pictureDocument 6 = some (2, [1, 0]) := by decide +kernel
  refine ⟨found, located, ?_⟩
  obtain ⟨front, back, copies, own, place, length, shares⟩ :=
    splitParagraph_shares topped found located (by decide)
  have text : pictureDocument.text 6 = "x\ny" := rfl
  rw [text] at place shares length
  have sole : Wordml.ownTexts pictureDocument 2 = [6] := by decide +kernel
  rw [sole] at own
  obtain ⟨rfl, rfl⟩ : front = [] ∧ back = [] := by
    rcases front with _ | ⟨_, _ | _⟩ <;> simp_all
  have two : (lines "x\ny").length = 2 := by decide +kernel
  rw [two] at length
  obtain ⟨first, second, rfl⟩ := List.length_eq_two.mp length
  have elsewhere : ¬ InRunProperties pictureDocument 4 := by
    rintro ⟨run, -, properties, -, tag, -⟩
    have named : pictureDocument.tag properties ≠ "" := tag ▸ by decide
    have none : ∀ id < pictureDocument.size, pictureDocument.tag id ≠ Wordml.runProperties := by
      decide +kernel
    exact none properties (Wordml.lt_size_of_tag named) tag
  have shown : ∀ (k : Nat) (copy : LineTwin), [first, second][k]? = some copy →
      copy.Shows (splitParagraph pictureDocument 2 [1, 0] "x\ny") 2 4 := fun k copy here => by
    obtain ⟨content, -, share⟩ := shares k copy here
    exact share.kept 4 (by decide +kernel) (by simp) (by decide) elsewhere
  exact ⟨first, second, place, shown 0 first rfl, shown 1 second rfl⟩

/-- The picture stands in front of the text, and is written with both of its lines. -/
theorem splitLines_picture_twice :
    Document.parse pictureText = .ok pictureDocument ∧
      nextFed? pictureDocument [] = some 6 ∧ locate? pictureDocument 6 = some (2, [1, 0]) ∧
      pictureDocument.descendants 2 = [3, 4, 5, 6] ∧ pictureDocument.tag 4 = "w:drawing" ∧
      (splitLines pictureDocument).1.write =
        "<w:document><w:body>" ++
          "<w:p><w:r><w:drawing /></w:r><w:r><w:t>x</w:t></w:r></w:p>" ++
          "<w:p><w:r><w:drawing /></w:r><w:r><w:t>y</w:t></w:r></w:p>" ++
          "</w:body></w:document>" := by
  exact ⟨by cbv, by decide +kernel, by decide +kernel, by decide +kernel, by decide, by decide +kernel⟩

end Splits

end WordTemplate.Filling
