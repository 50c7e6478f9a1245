import WordTemplate.Proofs.Filling.SplitRuns
import WordTemplate.Proofs.Markup.Copies
import WordTemplate.Proofs.Wordml.Stripping

/-! What a paragraph is split into. For each line there is a copy of the whole paragraph, slot by slot, in
which the line stands in the place of the text; of the rest of the copy only the own texts of the paragraph
are removed that go with another line, and what goes with them. -/

namespace WordTemplate

open Markup
open Outline (idsAll toTrees)
open Markup.Document (Copies Extends)

namespace Wordml

/-- What goes in a copy is a copy of what goes. -/
theorem GoesWith.of_copies {first second : Document} {twin : NodeId → NodeId} {outline : Outline}
    (copies : Copies twin outline first second) {texts gone : List NodeId} (inside : texts ⊆ outline.ids)
    (goesWith : GoesWith second (texts.map twin) gone) (within : gone ⊆ outline.ids.map twin) :
    GoesWith first texts (outline.ids.filter (twin · ∈ gone)) := by
  have mem : ∀ {id}, id ∈ outline.ids → twin id ∈ gone → id ∈ outline.ids.filter (twin · ∈ gone) :=
    fun member lost => List.mem_filter.mpr ⟨member, by simpa using lost⟩
  constructor
  · intro id listed
    obtain ⟨lost, isText⟩ := goesWith.lost (twin id) (List.mem_map_of_mem listed)
    exact ⟨mem (inside listed) lost, (copies.tag id (inside listed)).symm.trans isText⟩
  · intro id member
    obtain ⟨member, lost⟩ := List.mem_filter.mp member
    rw [decide_eq_true_eq] at lost
    rcases goesWith.goes (twin id) lost with ⟨_, mapped, place⟩ | ⟨run', emptied, place⟩
    · obtain ⟨source, listed, rfl⟩ := List.mem_map.mp mapped
      exact .inl ⟨source, listed, (copies.mem_below_iff (inside listed) member).mp place⟩
    · obtain ⟨run, runMember, rfl⟩ := List.mem_map.mp (within emptied.lost)
      refine .inr ⟨run, ⟨mem runMember emptied.lost, ?_, ?_, fun child lists => ?_⟩, ?_⟩
      · exact (copies.tag run runMember).symm.trans emptied.tag
      · obtain ⟨_, mapped, lists⟩ := emptied.source
        obtain ⟨source, listed, rfl⟩ := List.mem_map.mp mapped
        exact ⟨source, listed, (copies.lists_iff runMember (inside listed)).mp lists⟩
      · have childMember := copies.mem_children runMember lists
        rw [← copies.tag child childMember]
        rcases emptied.rest (twin child) ((copies.lists_iff runMember childMember).mpr lists) with
          listed | tag | ⟨lost, tag⟩
        · exact .inl ((copies.mem_map_iff inside childMember).mp listed)
        · exact .inr (.inl tag)
        · exact .inr (.inr ⟨mem childMember lost, tag⟩)
      · rcases place with same | ⟨properties', mapped, tag, below⟩
        · exact .inl (copies.injective member runMember same)
        · rw [Document.Lists, copies.children runMember] at mapped
          obtain ⟨properties, lists, rfl⟩ := List.mem_map.mp mapped
          have propertiesMember := copies.mem_children runMember lists
          refine .inr ⟨properties, lists, (copies.tag properties propertiesMember).symm.trans tag, ?_⟩
          exact (copies.mem_below_iff propertiesMember member).mp below

end Wordml

namespace Markup.Outline

variable {twin : NodeId → NodeId} {gone lost : List NodeId}

mutual

theorem prune_rename (outline : Outline) (same : ∀ id ∈ outline.ids, twin id ∈ lost ↔ id ∈ gone) :
    (outline.rename twin).prune lost = (outline.prune gone).rename twin := by
  cases outline with
  | node id children =>
      rw [ids, List.forall_mem_cons] at same
      rw [rename, prune, pruneAll_renameAll children same.2, prune, rename]

theorem pruneAll_renameAll (outlines : List Outline)
    (same : ∀ id ∈ idsAll outlines, twin id ∈ lost ↔ id ∈ gone) :
    pruneAll lost (renameAll twin outlines) = renameAll twin (pruneAll gone outlines) := by
  cases outlines with
  | nil => rfl
  | cons outline rest =>
      rw [idsAll, List.forall_mem_append] at same
      have top := same.1 outline.id outline.id_mem_ids
      rw [renameAll, pruneAll, pruneAll, id_rename, pruneAll_renameAll rest same.2]
      by_cases here : outline.id ∈ gone
      · rw [if_pos (top.mpr here), if_pos here]
      · rw [if_neg (top.not.mpr here), if_neg here, prune_rename outline same.1, renameAll]

end

end Markup.Outline

namespace Filling

section Rename

variable {first second : Document} {twin : NodeId → NodeId}

mutual

theorem freeTexts_rename (outline : Outline)
    (tags : ∀ id ∈ outline.ids, second.tag (twin id) = first.tag id) :
    freeTexts second (outline.rename twin) = (freeTexts first outline).map twin := by
  cases outline with
  | node id children =>
      rw [Outline.ids, List.forall_mem_cons] at tags
      rw [Outline.rename, freeTexts, freeTexts, tags.1, freeTextsAll_rename children tags.2]
      split
      · rfl
      · rw [List.map_append]
        split <;> rfl

theorem freeTextsAll_rename (outlines : List Outline)
    (tags : ∀ id ∈ idsAll outlines, second.tag (twin id) = first.tag id) :
    freeTextsAll second (Outline.renameAll twin outlines) = (freeTextsAll first outlines).map twin := by
  cases outlines with
  | nil => rfl
  | cons outline rest =>
      rw [idsAll, List.forall_mem_append] at tags
      rw [Outline.renameAll, freeTextsAll, freeTextsAll, freeTexts_rename outline tags.1,
        freeTextsAll_rename rest tags.2, List.map_append]

end

mutual

theorem freeTexts_prune {gone : List NodeId} (outline : Outline) {parent : Option NodeId}
    (has : ∀ link ∈ outline.links parent, first.Has link)
    (below : ∀ id ∈ gone, ∀ child ∈ first.children id, child ∈ gone) (kept : outline.id ∉ gone) :
    freeTexts first (outline.prune gone) = (freeTexts first outline).filter (· ∉ gone) := by
  cases outline with
  | node id children =>
      rw [Outline.links, List.forall_mem_cons] at has
      rw [Outline.prune, freeTexts, freeTexts, freeTextsAll_pruneAll children has.2 below]
      split
      · rfl
      · rw [List.filter_append]
        split
        · rw [List.filter_cons_of_pos (by simpa using kept)]
          rfl
        · rfl

theorem freeTextsAll_pruneAll {gone : List NodeId} (outlines : List Outline) {parent : Option NodeId}
    (has : ∀ link ∈ Outline.linksAll parent outlines, first.Has link)
    (below : ∀ id ∈ gone, ∀ child ∈ first.children id, child ∈ gone) :
    freeTextsAll first (Outline.pruneAll gone outlines) =
      (freeTextsAll first outlines).filter (· ∉ gone) := by
  cases outlines with
  | nil => rfl
  | cons outline rest =>
      rw [Outline.linksAll, List.forall_mem_append] at has
      rw [Outline.pruneAll, freeTextsAll, List.filter_append]
      split
      · rename_i lost
        have nothing : (freeTexts first outline).filter (· ∉ gone) = [] := by
          rw [List.filter_eq_nil_iff]
          intro id free
          simpa using Outline.mem_gone_of_mem_ids has.1 below lost id
            ((sublist_freeTexts first outline).subset free)
        rw [freeTextsAll_pruneAll rest has.2 below, nothing, List.nil_append]
      · rename_i kept
        rw [freeTextsAll, freeTextsAll_pruneAll rest has.2 below, freeTexts_prune outline has.1 below kept]

end

theorem ownTexts_copies {paragraph : Outline} (copies : Copies twin paragraph first second)
    (isParagraph : first.tag paragraph.id = Wordml.paragraph) :
    Wordml.ownTexts second (twin paragraph.id) = (Wordml.ownTexts first paragraph.id).map twin := by
  obtain ⟨context, holds⟩ := copies.holds
  obtain ⟨other, copied⟩ := copies.copied
  have isCopy := (copies.tag paragraph.id paragraph.id_mem_ids).trans isParagraph
  have own := ownTexts_eq copied (by rwa [Outline.id_rename])
  rw [Outline.id_rename, Outline.children_rename] at own
  rw [own, ownTexts_eq holds isParagraph, freeTextsAll_rename]
  intro id member
  refine copies.tag id ?_
  rw [← Outline.node_eta paragraph]
  exact List.mem_cons_of_mem _ member

end Rename

/-- A copy of a paragraph for a line: where the copy of each node is, and which nodes have none left. -/
structure LineTwin where
  slot : NodeId → NodeId
  gone : List NodeId

def LineTwin.outline (paragraph : Outline) (copy : LineTwin) : Outline :=
  (paragraph.prune copy.gone).rename copy.slot

@[simp]
theorem LineTwin.id_outline (paragraph : Outline) (copy : LineTwin) :
    (copy.outline paragraph).id = copy.slot paragraph.id := by
  rw [LineTwin.outline, Outline.id_rename, Outline.id_prune]

theorem LineTwin.children_outline (paragraph : Outline) (copy : LineTwin) :
    (copy.outline paragraph).children =
      Outline.renameAll copy.slot (Outline.pruneAll copy.gone paragraph.children) := by
  cases paragraph
  rfl

/-- A copy of a paragraph for a line of one of its texts. The line stands in the place of the text, the own
texts of the paragraph that go with other lines are gone with what goes with them, and all else is there as
it was. -/
structure LineCopy (document : Document) (paragraph : Outline) (id : NodeId) (result : Document)
    (line : Line) (copy : LineTwin) : Prop where
  goesWith : Wordml.GoesWith document (doomed line (Wordml.ownTexts document paragraph.id) id) copy.gone
  inside : copy.gone ⊆ idsAll paragraph.children
  closed : ∀ other ∈ copy.gone, ∀ child ∈ document.children other, child ∈ copy.gone
  injective : ∀ first ∈ paragraph.ids, ∀ second ∈ paragraph.ids,
    copy.slot first = copy.slot second → first = second
  new : ∀ other ∈ paragraph.ids, document.size ≤ copy.slot other
  bound : ∀ other ∈ paragraph.ids, copy.slot other < result.size
  tag : result.tag (copy.slot id) = document.tag id
  content : result.text (copy.slot id) = line.content
  element : ∀ other ∈ paragraph.ids, other ≠ id →
    (result.node (copy.slot other)).toElement = (document.node other).toElement

theorem LineCopy.tag_slot {document result : Document} {paragraph : Outline} {id : NodeId} {line : Line}
    {copy : LineTwin} (lineCopy : LineCopy document paragraph id result line copy) {other : NodeId}
    (member : other ∈ paragraph.ids) : result.tag (copy.slot other) = document.tag other := by
  by_cases here : other = id
  · rw [here, lineCopy.tag]
  · exact congrArg Element.tag (lineCopy.element other member here)

theorem LineCopy.carry {document first second : Document} {paragraph : Outline} {id : NodeId} {line : Line}
    {copy : LineTwin} (lineCopy : LineCopy document paragraph id first line copy)
    (member : id ∈ paragraph.ids) (size_le : first.size ≤ second.size)
    (old : ∀ other : Nat, other < first.size → (second.node other).toElement = (first.node other).toElement) :
    LineCopy document paragraph id second line copy where
  goesWith := lineCopy.goesWith
  inside := lineCopy.inside
  closed := lineCopy.closed
  injective := lineCopy.injective
  new := lineCopy.new
  bound := fun other inside => Nat.lt_of_lt_of_le (lineCopy.bound other inside) size_le
  tag := (congrArg Element.tag (old _ (lineCopy.bound id member))).trans lineCopy.tag
  content := (congrArg Element.text (old _ (lineCopy.bound id member))).trans lineCopy.content
  element := fun other inside apart =>
    (old _ (lineCopy.bound other inside)).trans (lineCopy.element other inside apart)

theorem doomed_map {line : Line} {ids : List NodeId} {id : NodeId} (member : id ∈ ids) (nodup : ids.Nodup)
    {twin : NodeId → NodeId} (mapped : (ids.map twin).Nodup) :
    doomed line (ids.map twin) (twin id) = (doomed line ids id).map twin := by
  obtain ⟨front, back, rfl⟩ := List.append_of_mem member
  rw [List.map_append, List.map_cons] at mapped ⊢
  rw [doomed_eq line nodup, doomed_eq line mapped, List.map_append]
  cases line.isFirst <;> cases line.isLast <;> rfl

section Copies

variable {origin document : Document} {context : Context} {paragraph : Outline} {path : List Nat}
  {id : NodeId}

theorem isLive_of_rename {twin : NodeId → NodeId}
    (holds : document.Holds (context.fill [paragraph.rename twin]))
    (member : id ∈ paragraph.ids) : document.isLive (twin id) = true := by
  refine holds.isLive_of_mem ?_
  rw [(Document.idsAll_fill context _).mem_iff, idsAll, idsAll, Outline.ids_rename, List.append_nil]
  exact List.mem_append_right _ (List.mem_map_of_mem member)

structure StripsCopy (origin : Document) (paragraph : Outline) (texts : List NodeId) (context : Context)
    (copy : LineTwin) (result : Document) : Prop where
  goesWith : Wordml.GoesWith origin texts copy.gone
  inside : copy.gone ⊆ idsAll paragraph.children
  closed : ∀ other ∈ copy.gone, ∀ child ∈ origin.children other, child ∈ copy.gone
  holds : result.Holds (context.fill [copy.outline paragraph])

theorem stripsCopy_of_strips {twin : NodeId → NodeId} {result : Document} {texts lost : List NodeId}
    (copies : Copies twin paragraph origin document) (sound : document.Sound)
    (holds : document.Holds (context.fill [paragraph.rename twin]))
    (isParagraph : origin.tag paragraph.id = Wordml.paragraph)
    (own : texts ⊆ Wordml.ownTexts origin paragraph.id)
    (strips : Wordml.Strips (texts.map twin) lost document result) :
    StripsCopy origin paragraph texts context ⟨twin, paragraph.ids.filter (twin · ∈ lost)⟩ result := by
  have top : paragraph.id ∈ paragraph.ids := paragraph.id_mem_ids
  have inner : ∀ {other}, other ∈ origin.descendants paragraph.id → other ∈ paragraph.ids :=
    copies.mem_descendants top
  have below : ∀ other ∈ texts, other ∈ origin.descendants paragraph.id := fun other listed =>
    (Wordml.mem_ownTexts.mp (own listed)).1
  -- All that is gone stands below the copy, since the copy is a paragraph and no run.
  have notRun : document.tag (twin paragraph.id) ≠ Wordml.run := by
    rw [copies.tag paragraph.id top, isParagraph]
    decide
  have lostInside := strips.goesWith.subset_descendants sound notRun fun other mapped => by
    obtain ⟨source, listed, rfl⟩ := List.mem_map.mp mapped
    rw [copies.descendants top]
    exact List.mem_map_of_mem (below source listed)
  have within : lost ⊆ (origin.descendants paragraph.id).map twin := copies.descendants top ▸ lostInside
  have cut : (paragraph.rename twin).prune lost =
      LineTwin.outline paragraph ⟨twin, paragraph.ids.filter (twin · ∈ lost)⟩ :=
    Outline.prune_rename paragraph fun other inside => by simp [inside]
  refine ⟨strips.goesWith.of_copies copies (fun other listed => inner (below other listed)) ?_, ?_, ?_, ?_⟩
  · exact fun other listed => List.map_subset twin (fun _ => inner) (within listed)
  · intro other listed
    obtain ⟨inside, gone⟩ := List.mem_filter.mp listed
    obtain ⟨_, held⟩ := copies.holds
    rw [← held.descendants]
    exact (copies.mem_map_iff (fun _ => inner) inside).mp (within (by simpa using gone))
  · intro other listed child lists
    obtain ⟨inside, gone⟩ := List.mem_filter.mp listed
    have childInside := copies.mem_children inside lists
    have childLost := strips.removes.below _ (by simpa using gone) _
      ((copies.lists_iff inside childInside).mpr lists)
    exact List.mem_filter.mpr ⟨childInside, by simpa using childLost⟩
  · exact cut ▸ strips.removes.holds_fill strips.sound holds (by rwa [Outline.id_rename])

structure FillsCopy (origin document : Document) (context : Context) (paragraph : Outline) (id : NodeId)
    (line : Line) (copy : LineTwin) (result : Document) : Prop where
  sound : result.Sound
  holds : result.Holds (context.fill [copy.outline paragraph])
  size : result.size = document.size
  root : result.root = document.root
  others : ∀ other, other ∉ paragraph.ids.map copy.slot →
    (result.node other).toElement = (document.node other).toElement
  line : LineCopy origin paragraph id result line copy

theorem fillsCopy_fillLine {twin : NodeId → NodeId} (copies : Copies twin paragraph origin document)
    (same : ∀ id ∈ paragraph.ids, (document.node (twin id)).toElement = (origin.node id).toElement)
    (new : ∀ id ∈ paragraph.ids, origin.size ≤ twin id)
    (originSound : origin.Sound) (sound : document.Sound)
    (holds : document.Holds (context.fill [paragraph.rename twin]))
    (isParagraph : origin.tag paragraph.id = Wordml.paragraph)
    (leads : origin.follow? paragraph.id path = some id)
    (own : id ∈ Wordml.ownTexts origin paragraph.id) (line : Line) :
    ∃ gone, FillsCopy origin document context paragraph id line ⟨twin, gone⟩
      (fillLine document (twin paragraph.id) path line) := by
  have top : paragraph.id ∈ paragraph.ids := paragraph.id_mem_ids
  have member : id ∈ paragraph.ids := copies.mem_descendants top (Wordml.mem_ownTexts.mp own).1
  have twinLeads : document.follow? (twin paragraph.id) path = some (twin id) := by
    rw [copies.follow? top, leads, Option.map_some]
  -- The line is written first.
  have restyles := restyles_writeLine document (twin id) line.content
  have content := text_writeLine (Document.lt_size_of_isLive (isLive_of_rename holds member)) line.content
  rw [fillLine_eq twinLeads]
  generalize writeLine document (twin id) line.content = written at *
  have writtenSound := restyles.rewritten.sound sound
  have writtenHolds := holds.congr restyles.rewritten.links
  have copied : Copies twin paragraph origin written :=
    ⟨copies.holds, ⟨context, writtenHolds⟩, fun other inside =>
      (restyles.removes.tag _).trans (copies.tag other inside)⟩
  -- The doomed texts of the copy are the copies of those of the paragraph.
  have writtenOwn := ownTexts_copies copied isParagraph
  have mapped := Wordml.nodup_ownTexts writtenSound (twin paragraph.id)
  have texts : ∀ other ∈ doomed line (Wordml.ownTexts written (twin paragraph.id)) (twin id),
      other ∈ Wordml.ownTexts written (twin paragraph.id) := fun other => mem_of_mem_doomed
  rw [if_pos (by rw [writtenOwn]; simpa using ⟨id, own, rfl⟩)]
  obtain ⟨lost, strips⟩ := (Wordml.Strips.start writtenSound).deleteTexts writtenSound fun other listed => by
    obtain ⟨below, isText, -⟩ := Wordml.mem_ownTexts.mp (texts other listed)
    exact ⟨isText, (((writtenSound.descendants _).2 other).mp below).1⟩
  rw [List.nil_append, List.nil_append] at strips
  generalize (doomed line (Wordml.ownTexts written (twin paragraph.id)) (twin id)).foldl
    Wordml.deleteText written = final at *
  rw [writtenOwn] at strips mapped
  rw [doomed_map own (Wordml.nodup_ownTexts originSound paragraph.id) mapped] at strips
  have stripped := stripsCopy_of_strips copied writtenSound writtenHolds isParagraph
    (fun other => mem_of_mem_doomed) strips
  have size : final.size = document.size := strips.removes.size.trans restyles.rewritten.size
  have element : ∀ other, other ≠ twin id →
      (final.node other).toElement = (document.node other).toElement := fun other apart => by
    rw [strips.element, restyles.frame other apart]
  refine ⟨paragraph.ids.filter (twin · ∈ lost), strips.sound, stripped.holds, size,
    strips.removes.root.trans restyles.removes.root, fun other outside => ?_, ?_⟩
  · exact element other fun here => outside (here ▸ List.mem_map_of_mem member)
  · refine ⟨stripped.goesWith, stripped.inside, stripped.closed,
      fun first one second two => copied.injective one two, new, fun other inside => ?_, ?_, ?_,
      fun other inside apart => ?_⟩
    · exact size ▸ Document.lt_size_of_isLive (isLive_of_rename holds inside)
    · exact (congrArg Element.tag (strips.element _)).trans (copied.tag id member)
    · exact (congrArg Element.text (strips.element _)).trans content
    · have elsewhere : twin other ≠ twin id := fun here => apart (copied.injective inside member here)
      rw [element _ elsewhere, same other inside]

theorem sound_placeCopy (sound : document.Sound) {row : Outline} (holds : document.Holds (context.fill [row]))
    {anchor : NodeId} (live : document.isLive anchor = true) :
    ((document.cloneSubtree row.id).1.insertAfter anchor document.size).1.Sound := by
  have cloned : (document.cloneSubtree row.id).1.Sound := sound.graft sound row.id
  have bound := Document.lt_size_of_isLive live
  have stands : (document.cloneSubtree row.id).1.Holds
      ((Context.top [] (context.fill [row])).fill [(row.toTree document).outline document.size]) :=
    holds.cloneSubtree
  have below := stands.descendants
  have top := (Document.holds_fill_iff.mp stands).top.live
  rw [Tree.id_outline] at below
  simp only [Tree.id_outline] at top
  have anchorLive : (document.cloneSubtree row.id).1.isLive anchor = true := by
    rw [Document.isLive, Document.node_cloneSubtree _ bound]
    exact live
  refine cloned.insertBeside (Nat.le_refl 1) top anchorLive fun member => ?_
  rw [below] at member
  have copied : anchor ∈ ((row.toTree document).outline document.size).ids := by
    rw [← Outline.node_eta ((row.toTree document).outline document.size)]
    exact List.mem_cons_of_mem _ member
  rw [Tree.ids_outline] at copied
  exact absurd (List.mem_range'_1.mp copied).1 (Nat.not_le.mpr bound)

structure FillsCopies (origin document : Document) (context : Context) (paragraph : Outline)
    (done : List Outline) (id : NodeId) (lines : List Line) (result : Document) (copies : List LineTwin) :
    Prop where
  sound : result.Sound
  holds : result.Holds (context.fill (paragraph :: (done ++ copies.map (LineTwin.outline paragraph))))
  size_le : document.size ≤ result.size
  root : result.root = document.root
  old : ∀ inner : Nat, inner < document.size → (result.node inner).toElement = (document.node inner).toElement
  lines : List.Forall₂ (LineCopy origin paragraph id result) lines copies

section Lines

variable {outer : Context} {before after done ahead : List Outline} {parent : NodeId} {last : Outline}
  (originSound : origin.Sound) (originHolds : origin.Holds (context.fill [paragraph]))
  (isParagraph : origin.tag paragraph.id = Wordml.paragraph)
  (leads : origin.follow? paragraph.id path = some id) (own : id ∈ Wordml.ownTexts origin paragraph.id)
include originSound originHolds isParagraph leads own

/-- One more copy, with its line. -/
theorem fillsCopies_one (sound : document.Sound)
    (holds : document.Holds ((Context.under outer before after parent).fill (paragraph :: done)))
    (whole : paragraph :: done = ahead ++ [last]) (same : paragraph.toTree document = paragraph.toTree origin)
    (larger : origin.size ≤ document.size) (line : Line) :
    ∃ copy : LineTwin, copy.slot paragraph.id = document.size ∧
      FillsCopies origin document (.under outer before after parent) paragraph done id [line]
        (fillLine ((document.cloneSubtree paragraph.id).1.insertAfter last.id document.size).1
          document.size path line) [copy] := by
  have isLast : last ∈ paragraph :: done := whole ▸ by simp
  have atTop :
      document.Holds (((Context.under outer before after parent).beside [] done).fill [paragraph]) := by
    simpa [Context.fill_beside] using holds
  have placedSound := sound_placeCopy sound atTop (isLive_of_fill holds isLast)
  obtain ⟨copy, here, new, placed, placedTree, grown⟩ := placeCopy holds whole
  generalize ((document.cloneSubtree paragraph.id).1.insertAfter last.id document.size).1 = next
    at placed placedTree grown placedSound ⊢
  have atCopy : next.Holds
      (((Context.under outer before after parent).beside (paragraph :: done) []).fill [copy]) := by
    rw [Context.fill_beside]
    simpa using placed
  obtain ⟨twin, rfl, copies, elements⟩ :=
    Document.exists_copies originHolds atCopy (placedTree.trans same).symm
  rw [Outline.id_rename] at here
  have fresh : ∀ inner ∈ paragraph.ids, origin.size ≤ twin inner := fun inner member =>
    Nat.le_trans larger (new _ (Outline.ids_rename paragraph ▸ List.mem_map_of_mem member))
  obtain ⟨gone, filled⟩ := fillsCopy_fillLine copies elements fresh originSound placedSound atCopy isParagraph
    leads own line
  rw [here] at filled
  refine ⟨⟨twin, gone⟩, here, filled.sound, ?_, ?_, filled.root.trans grown.root, fun inner bound => ?_,
    .cons filled.line .nil⟩
  · have held := filled.holds
    rw [Context.fill_beside] at held
    simpa using held
  · rw [filled.size]
    exact grown.size_le
  · rw [filled.others inner, grown.toElement inner bound]
    intro member
    rw [← Outline.ids_rename] at member
    exact absurd bound (Nat.not_lt.mpr (new inner member))

/-- One copy for each of some lines, one behind the other. -/
theorem fillsCopies_copyLines (sound : document.Sound)
    (holds : document.Holds ((Context.under outer before after parent).fill (paragraph :: done)))
    (whole : paragraph :: done = ahead ++ [last]) (same : paragraph.toTree document = paragraph.toTree origin)
    (larger : origin.size ≤ document.size) (lines : List Line) :
    ∃ copies, FillsCopies origin document (.under outer before after parent) paragraph done id lines
      (copyLines document paragraph.id path last.id lines) copies := by
  -- The paragraph that is copied stays what it was at the origin, since lines are written to copies only.
  induction lines generalizing document done ahead last with
  | nil => exact ⟨[], sound, by simpa [copyLines] using holds, Nat.le_refl _, rfl, fun _ _ => rfl, .nil⟩
  | cons line rest ih =>
      obtain ⟨copy, here, filled⟩ := fillsCopies_one originSound originHolds isParagraph leads own sound holds
        whole same larger line
      rw [copyLines]
      simp only [Document.cloneSubtree_snd]
      generalize fillLine ((document.cloneSubtree paragraph.id).1.insertAfter last.id document.size).1
        document.size path line = next at *
      have sameNext : paragraph.toTree next = paragraph.toTree origin := by
        refine (Outline.toTree_congr fun inner member => filled.old inner ?_).trans same
        exact (Document.holds_fill_iff.mp holds).lt_size (by simp [idsAll, member])
      have member : id ∈ paragraph.ids := by
        obtain ⟨below, -⟩ := Wordml.mem_ownTexts.mp own
        rw [originHolds.descendants] at below
        rw [← Outline.node_eta paragraph]
        exact List.mem_cons_of_mem _ below
      obtain ⟨copies, further⟩ := ih filled.sound filled.holds
        (show paragraph :: (done ++ [copy.outline paragraph]) =
          (paragraph :: done) ++ [copy.outline paragraph] from rfl) sameNext
        (Nat.le_trans larger filled.size_le)
      rw [LineTwin.id_outline, here] at further
      obtain ⟨first, -⟩ := List.forall₂_cons.mp filled.lines
      refine ⟨copy :: copies, further.sound, ?_, Nat.le_trans filled.size_le further.size_le,
        further.root.trans filled.root, fun inner small => ?_, .cons ?_ further.lines⟩
      · simpa using further.holds
      · rw [further.old inner (Nat.lt_of_lt_of_le small filled.size_le), filled.old inner small]
      · exact first.carry member further.size_le further.old

end Lines

/-- What splitting a paragraph comes to: copies of it stand in its place, one for each line, and all else is
as it was. -/
structure SplitsInto (document : Document) (context : Context) (paragraph : Outline) (id : NodeId)
    (result : Document) (copies : List LineTwin) : Prop where
  sound : result.Sound
  holds : result.Holds (context.fill (copies.map (LineTwin.outline paragraph)))
  root : result.root = document.root
  old : ∀ inner : Nat, inner < document.size → (result.node inner).toElement = (document.node inner).toElement
  lines : List.Forall₂ (LineCopy document paragraph id result) (linesOf (document.text id)) copies

theorem splitsInto_splitParagraph (sound : document.Sound) {outer : Context} {before after : List Outline}
    {parent : NodeId} (holds : document.Holds ((Context.under outer before after parent).fill [paragraph]))
    (isParagraph : document.tag paragraph.id = Wordml.paragraph)
    (leads : document.follow? paragraph.id path = some id)
    (own : id ∈ Wordml.ownTexts document paragraph.id) :
    ∃ copies, SplitsInto document (.under outer before after parent) paragraph id
      (splitParagraph document paragraph.id path (document.text id)) copies := by
  obtain ⟨copies, copied⟩ := fillsCopies_copyLines sound holds isParagraph leads own sound holds
    (show [paragraph] = [] ++ [paragraph] from rfl) rfl (Nat.le_refl _) (linesOf (document.text id))
  rw [splitParagraph]
  generalize copyLines document paragraph.id path paragraph.id (linesOf (document.text id)) = result at *
  have atParagraph : result.Holds (((Context.under outer before after parent).beside []
      (copies.map (LineTwin.outline paragraph))).fill [paragraph]) := by
    rw [Context.fill_beside]
    simpa using copied.holds
  have element := Document.toElement_delete atParagraph
  have member : id ∈ paragraph.ids := by
    obtain ⟨below, -⟩ := Wordml.mem_ownTexts.mp own
    rw [holds.descendants] at below
    rw [← Outline.node_eta paragraph]
    exact List.mem_cons_of_mem _ below
  refine ⟨copies, copied.sound.delete _, ?_, (Document.ages_delete ..).root.trans copied.root,
    fun inner bound => ?_, copied.lines.imp fun _ _ line => line.carry member ?_ fun inner _ => element inner⟩
  · have deleted := atParagraph.delete
    rw [Context.fill_beside] at deleted
    simpa using deleted
  · rw [element, copied.old inner bound]
  · exact (Document.ages_delete ..).size_le

end Copies

end Filling

end WordTemplate
