import Mathlib.Algebra.BigOperators.Ring.List
import WordTemplate.Proofs.Filling.FreeTexts
import WordTemplate.Proofs.Filling.UprightPasses
import WordTemplate.Proofs.Wordml.MergedRuns

/-! Splitting one paragraph. Each copy keeps the texts that go with its line and loses the others, so that the
copies together are split less often than the paragraph they come from. -/

namespace WordTemplate

open Markup
open Outline (idsAll toTrees)

namespace Markup.Context

/-- The context of a hole inside of what fills a hole. -/
def into (outer : Context) : Context → Context
  | top before after => outer.beside before after
  | under inner before after id => under (outer.into inner) before after id

theorem fill_into (outer inner : Context) (outlines : List Outline) :
    (outer.into inner).fill outlines = outer.fill (inner.fill outlines) := by
  induction inner generalizing outlines with
  | top before after => exact fill_beside outer before after outlines
  | under inner before after id ih => rw [into, fill, ih, fill]

end Markup.Context

namespace Filling

open Wordml (Upright Upholds)
open Markup.Document (Removes Extends)

section Thinning

variable {first second third document : Document} {scope : NodeId} {gone more : List NodeId}

/-- The second document is the first one without some nodes below a node. -/
structure Thins (scope : NodeId) (gone : List NodeId) (first second : Document) : Prop where
  removes : Removes gone first second
  kept : scope ∉ gone
  sound : second.Sound
  element : ∀ id, (second.node id).toElement = (first.node id).toElement
  holds : ∀ {context : Context} {outline : Outline}, outline.id = scope →
    first.Holds (context.fill [outline]) → ∃ rest, second.Holds (context.fill [.node scope rest]) ∧
      Lighter (toTrees first rest) (toTrees first outline.children)

namespace Thins

theorem refl (scope : NodeId) (sound : document.Sound) : Thins scope [] document document where
  removes := .of_sameLinks (.refl document) rfl rfl fun _ => rfl
  kept := by simp
  sound := sound
  element := fun _ => rfl
  holds := fun {_ outline} same holds =>
    ⟨outline.children, by rw [← same, Outline.node_eta]; exact holds, .refl _⟩

theorem trans (left : Thins scope gone first second) (right : Thins scope more second third) :
    Thins scope (gone ++ more) first third where
  removes := left.removes.trans right.removes
  kept := by
    rw [List.mem_append, not_or]
    exact ⟨left.kept, right.kept⟩
  sound := right.sound
  element := fun id => (right.element id).trans (left.element id)
  holds := by
    intro context outline same holds
    obtain ⟨middle, held, lighter⟩ := left.holds same holds
    obtain ⟨rest, heldRest, lighterRest⟩ := right.holds rfl held
    have elements : ∀ outlines, toTrees second outlines = toTrees first outlines :=
      fun outlines => Outline.toTrees_congr fun id _ => left.element id
    rw [elements, elements, Outline.children_node] at lighterRest
    exact ⟨rest, heldRest, lighterRest.trans lighter⟩

theorem delete (sound : document.Sound) {id : NodeId} (below : id ∈ document.descendants scope) :
    Thins scope (id :: document.descendants id) document (document.delete id) where
  removes := sound.removes_delete (((sound.descendants scope).2 id).mp below).1
  kept := fun lost =>
    sound.not_mem_descendants_self scope (sound.descendants_subset below lost)
  sound := sound.delete id
  element := sound.toElement_delete id
  holds := by
    intro context outline same holds
    subst same
    have inside := below
    rw [holds.descendants] at inside
    obtain ⟨inner, found, rfl, whole⟩ := Document.exists_context inside
    have atFound : document.Holds
        (((Context.under context [] [] outline.id).into inner).fill [found]) := by
      rw [Context.fill_into, ← whole, Context.fill, List.nil_append, List.append_nil, Outline.node_eta]
      exact holds
    have deleted := atFound.delete
    rw [Context.fill_into, Context.fill, List.nil_append, List.append_nil] at deleted
    refine ⟨inner.fill [], deleted, ?_⟩
    rw [whole, Context.toTrees_fill, Context.toTrees_fill]
    exact lighter_trees (.nil _) inner

theorem below (thins : Thins scope gone first second) {id : NodeId} (live : second.isLive id = true)
    (inside : id ∈ first.descendants scope) : id ∈ second.descendants scope := by
  rw [thins.removes.descendants thins.kept, List.mem_filter]
  refine ⟨inside, ?_⟩
  have left : id ∉ gone := fun lost => by
    rw [thins.removes.dead id lost] at live
    exact absurd live (by decide)
  simpa using left

theorem dead (thins : Thins scope gone first second) {id : NodeId} (dead : first.isLive id = false) :
    second.isLive id = false := by
  by_cases lost : id ∈ gone
  · exact thins.removes.dead id lost
  · rw [thins.removes.live id lost, dead]

theorem sublist_ownTexts (thins : Thins scope gone first second) (sound : first.Sound) {lost : List NodeId}
    (dead : ∀ id ∈ lost, second.isLive id = false) :
    (Wordml.ownTexts second scope).Sublist ((Wordml.ownTexts first scope).filter (· ∉ lost)) := by
  have left : (Wordml.ownTexts second scope).filter (· ∉ lost) = Wordml.ownTexts second scope := by
    rw [List.filter_eq_self]
    intro id member
    have live := (((thins.sound.descendants scope).2 id).mp (Wordml.mem_ownTexts.mp member).1).1
    have kept : id ∉ lost := fun gone => by
      rw [dead id gone] at live
      exact absurd live (by decide)
    simpa using kept
  rw [← left, Wordml.ownTexts_removes thins.removes sound thins.kept]
  exact List.filter_sublist.filter _

theorem loose_le (thins : Thins scope gone first second) {context : Context} {rest : List Outline}
    (holds : second.Holds (context.fill [.node scope rest]))
    (isParagraph : second.tag scope = Wordml.paragraph) {left : List NodeId}
    (stays : (Wordml.ownTexts second scope).Sublist left) :
    loose (toTrees second rest) ≤ feedsAll (left.map first.text) := by
  have own := ownTexts_eq holds (by rwa [Outline.id_node])
  have texts : second.text = first.text := funext fun id => congrArg Element.text (thins.element id)
  rw [Outline.id_node, Outline.children_node] at own
  rw [loose, ← map_text_freeTextsAll, ← own, texts]
  exact feedsAll_sublist (stays.map first.text)

end Thins

theorem thins_deleteText (sound : document.Sound) (notRun : document.tag scope ≠ Wordml.run) {id : NodeId}
    (below : document.isLive id = true → id ∈ document.descendants scope) :
    ∃ gone, Thins scope gone document (Wordml.deleteText document id) ∧
      (Wordml.deleteText document id).isLive id = false := by
  by_cases live : document.isLive id = true
  · have deleted := Thins.delete sound (below live)
    have dead : (document.delete id).isLive id = false :=
      deleted.removes.dead id (List.mem_cons_self ..)
    rw [Wordml.deleteText]
    split
    · exact ⟨_, deleted, dead⟩
    · rename_i parent above
      split
      · rename_i bare
        simp only [Bool.and_eq_true, decide_eq_true_eq] at bare
        by_cases parentLive : (document.delete id).isLive parent = true
        · have listed := sound.wellFormed.lists live above
          have place := sound.parent_of_mem_descendants (below live) listed
          have isRun : document.tag parent = Wordml.run := by
            rw [← deleted.removes.tag]
            exact bare.1
          have inside := place.resolve_left fun same => notRun (same ▸ isRun)
          have both := deleted.trans (Thins.delete deleted.sound (deleted.below parentLive inside))
          exact ⟨_, both, (Thins.delete deleted.sound (deleted.below parentLive inside)).dead dead⟩
        · rw [Document.delete_of_dead (by simpa using parentLive)]
          exact ⟨_, deleted, dead⟩
      · exact ⟨_, deleted, dead⟩
  · have dead : document.isLive id = false := by simpa using live
    rw [Wordml.deleteText_of_dead sound dead]
    exact ⟨[], .refl scope sound, dead⟩

theorem thins_deleteTexts (sound : document.Sound) (notRun : document.tag scope ≠ Wordml.run)
    {ids : List NodeId}
    (below : ∀ id ∈ ids, document.isLive id = true → id ∈ document.descendants scope) :
    ∃ gone, Thins scope gone document (ids.foldl Wordml.deleteText document) ∧
      ∀ id ∈ ids, (ids.foldl Wordml.deleteText document).isLive id = false := by
  induction ids generalizing document with
  | nil => exact ⟨[], .refl scope sound, by simp⟩
  | cons id rest ih =>
      rw [List.forall_mem_cons] at below
      obtain ⟨gone, thins, dead⟩ := thins_deleteText sound notRun below.1
      obtain ⟨more, further, others⟩ := ih thins.sound (by rwa [thins.removes.tag])
        fun other member live => by
          refine thins.below live (below.2 other member ?_)
          by_contra died
          rw [thins.dead (by simpa using died)] at live
          exact absurd live (by decide)
      rw [List.foldl_cons]
      refine ⟨gone ++ more, thins.trans further, fun other member => ?_⟩
      rcases List.mem_cons.mp member with rfl | later
      · exact further.dead dead
      · exact others other later

end Thinning

section Copies

variable {document : Document} {context : Context}

def writeLine (document : Document) (twin : NodeId) (content : String) : Document :=
  Wordml.preserveSpace ((document.setText twin content).removeAttribute twin Wordml.spaceKey) twin

theorem restyles_writeLine (document : Document) (twin : NodeId) (content : String) :
    Wordml.Restyles twin document (writeLine document twin content) := by
  have written : Wordml.Restyles twin document (document.setText twin content) :=
    .modify document twin (fun _ => rfl) (fun _ => rfl) (fun _ => rfl) fun _ => rfl
  have bare : Wordml.Restyles twin (document.setText twin content)
      ((document.setText twin content).removeAttribute twin Wordml.spaceKey) :=
    .modify _ twin (fun _ => rfl) (fun _ => rfl) (fun _ => rfl) fun _ => rfl
  exact (written.trans bare).trans (Wordml.restyles_preserveSpace _ twin)

theorem text_writeLine {twin : NodeId} (bound : twin < document.size) (content : String) :
    (writeLine document twin content).text twin = content := by
  rw [writeLine, Wordml.text_preserveSpace, Document.removeAttribute, Document.text, Document.node_modify,
    Document.setText, Document.size_modify, if_pos ⟨rfl, bound⟩, Document.node_modify,
    if_pos ⟨rfl, bound⟩]
  rfl

theorem upholds_writeLine (upright : Upright [] document) (twin : NodeId) (content : String) :
    Upholds document (writeLine document twin content) := by
  have written := Upholds.setText upright twin content
  have bare := Upholds.removeAttribute written.upright twin Wordml.spaceKey
  exact (written.trans bare).trans (.preserveSpace bare.upright twin)

/-- The texts of a copy that go with other lines. -/
def doomed (line : Line) (texts : List NodeId) (twin : NodeId) : List NodeId :=
  (if line.isFirst then [] else texts.takeWhile (· != twin)) ++
    (if line.isLast then [] else (texts.dropWhile (· != twin)).drop 1)

theorem fillLine_eq {copy twin : NodeId} {path : List Nat} (leads : document.follow? copy path = some twin)
    (line : Line) :
    fillLine document copy path line =
      if (Wordml.ownTexts (writeLine document twin line.content) copy).contains twin then
        (doomed line (Wordml.ownTexts (writeLine document twin line.content) copy) twin).foldl
          Wordml.deleteText (writeLine document twin line.content)
      else writeLine document twin line.content := by
  rw [fillLine, leads]
  rfl

theorem mem_of_mem_doomed {line : Line} {texts : List NodeId} {twin id : NodeId}
    (member : id ∈ doomed line texts twin) : id ∈ texts := by
  rw [doomed, List.mem_append] at member
  rcases member with before | after
  · split at before
    · simp at before
    · exact (List.takeWhile_sublist _).subset before
  · split at after
    · simp at after
    · exact (List.dropWhile_sublist _).subset (List.mem_of_mem_drop after)

theorem upholds_fillLine (upright : Upright [] document) (copy : NodeId) (path : List Nat) (line : Line) :
    Upholds document (fillLine document copy path line) := by
  cases leads : document.follow? copy path with
  | none =>
      rw [fillLine, leads]
      exact .refl upright
  | some twin =>
      have written := upholds_writeLine upright twin line.content
      rw [fillLine_eq leads]
      split
      · refine written.trans (.foldl written.upright fun middle upholds id member => ?_)
        obtain ⟨below, isText, _⟩ := Wordml.mem_ownTexts.mp (mem_of_mem_doomed member)
        have live := (((written.upright.sound.descendants copy).2 id).mp below).1
        refine .deleteText upholds.upright (upholds.upright.ne_root_of_text ?_)
        rw [upholds.ages.tag id (Document.lt_size_of_isLive live), isText]
      · exact written

theorem filter_of_chosen (chosen : Bool) {ids gone : List NodeId}
    (taken : ∀ id ∈ ids, id ∈ gone ↔ chosen = false) :
    ids.filter (· ∉ gone) = if chosen then ids else [] := by
  cases chosen with
  | true =>
      rw [if_pos rfl, List.filter_eq_self]
      intro id member
      simpa using (taken id member).mp
  | false =>
      rw [if_neg (by decide), List.filter_eq_nil_iff]
      intro id member
      simpa using (taken id member).mpr rfl

theorem doomed_eq (line : Line) {front back : List NodeId} {twin : NodeId}
    (nodup : (front ++ twin :: back).Nodup) :
    doomed line (front ++ twin :: back) twin =
      (if line.isFirst then [] else front) ++ (if line.isLast then [] else back) := by
  obtain ⟨-, -, apart⟩ := List.nodup_append.mp nodup
  have notFront : ∀ id ∈ front, id ≠ twin := fun id member => apart id member twin (by simp)
  have taken : (front ++ twin :: back).takeWhile (· != twin) = front := by
    rw [List.takeWhile_append_of_pos (by simpa using notFront), List.takeWhile_cons_of_neg (by simp),
      List.append_nil]
  have dropped : ((front ++ twin :: back).dropWhile (· != twin)).drop 1 = back := by
    rw [List.dropWhile_append_of_pos (by simpa using notFront), List.dropWhile_cons_of_neg (by simp)]
    rfl
  rw [doomed, taken, dropped]

theorem filter_doomed (line : Line) {front back : List NodeId} {twin : NodeId}
    (nodup : (front ++ twin :: back).Nodup) :
    (front ++ twin :: back).filter (· ∉ doomed line (front ++ twin :: back) twin) =
      (if line.isFirst then front else []) ++ twin :: (if line.isLast then back else []) := by
  have gone : ∀ id, id ∈ doomed line (front ++ twin :: back) twin ↔
      line.isFirst = false ∧ id ∈ front ∨ line.isLast = false ∧ id ∈ back := by
    intro id
    rw [doomed_eq line nodup, List.mem_append]
    cases line.isFirst <;> cases line.isLast <;> simp
  obtain ⟨_, nodupBack, apart⟩ := List.nodup_append.mp nodup
  have notFront : ∀ id ∈ front, id ≠ twin := fun id member => apart id member twin (by simp)
  have notBack : twin ∉ back := (List.nodup_cons.mp nodupBack).1
  have apartBack : ∀ id ∈ front, id ∉ back := fun id member listed =>
    apart id member id (List.mem_cons_of_mem _ listed) rfl
  have inFront : ∀ id ∈ front, id ∈ doomed line (front ++ twin :: back) twin ↔ line.isFirst = false :=
    fun id member => by simp [gone, member, apartBack id member]
  have inBack : ∀ id ∈ back, id ∈ doomed line (front ++ twin :: back) twin ↔ line.isLast = false :=
    fun id member => by
      have elsewhere : id ∉ front := fun listed => apartBack id listed member
      simp [gone, member, elsewhere]
  have twinStays : twin ∉ doomed line (front ++ twin :: back) twin := fun lost => by
    rcases (gone twin).mp lost with ⟨-, listed⟩ | ⟨-, listed⟩
    · exact notFront twin listed rfl
    · exact notBack listed
  rw [List.filter_append, List.filter_cons_of_pos (by simpa using twinStays),
    filter_of_chosen line.isFirst inFront, filter_of_chosen line.isLast inBack]

theorem feedsAll_shares {written : Document} {twin : NodeId} (whole : feeds (written.text twin) = 0)
    (same : ∀ id, id ≠ twin → written.text id = document.text id) {front back : List NodeId}
    (nodup : (front ++ twin :: back).Nodup) (line : Line) :
    feedsAll (((if line.isFirst then front else []) ++
        twin :: (if line.isLast then back else [])).map written.text) =
      line.share (feedsAll (front.map document.text)) (feedsAll (back.map document.text)) := by
  obtain ⟨_, nodupBack, apart⟩ := List.nodup_append.mp nodup
  have some : ∀ (chosen : Bool) (ids : List NodeId), (∀ id ∈ ids, id ≠ twin) →
      feedsAll ((if chosen then ids else []).map written.text) =
        if chosen then feedsAll (ids.map document.text) else 0 := by
    intro chosen ids apart
    cases chosen with
    | false => rfl
    | true =>
        rw [if_pos rfl, if_pos rfl, List.map_congr_left fun id member => same id (apart id member)]
  rw [List.map_append, List.map_cons, feedsAll_append, feedsAll_cons, whole, Nat.zero_add, Line.share,
    some line.isFirst front fun id member => apart id member twin (by simp),
    some line.isLast back fun id member here => (List.nodup_cons.mp nodupBack).1 (here ▸ member)]

/-- A copy with its line holds no more line feeds than go with the line, and its inner paragraphs no more
than they did. -/
structure Filled (before : Document) (context : Context) (copy : Outline) (bound : Nat)
    (after : Document) (rest : List Outline) : Prop where
  holds : after.Holds (context.fill [.node copy.id rest])
  tag : after.tag copy.id = before.tag copy.id
  size : after.size = before.size
  others : ∀ id, id ∉ copy.ids → (after.node id).toElement = (before.node id).toElement
  loose : loose (toTrees after rest) ≤ bound
  splits : splitsAll (toTrees after rest) ≤ splitsAll (toTrees before copy.children)

theorem filled_fillLine {copy : Outline} (sound : document.Sound)
    (holds : document.Holds (context.fill [copy]))
    (isParagraph : document.tag copy.id = Wordml.paragraph) {path : List Nat} {twin : NodeId}
    (leads : document.follow? copy.id path = some twin) {front back : List NodeId}
    (own : Wordml.ownTexts document copy.id = front ++ twin :: back) {line : Line}
    (whole : feeds line.content = 0) :
    ∃ rest, Filled document context copy
      (line.share (feedsAll (front.map document.text)) (feedsAll (back.map document.text)))
      (fillLine document copy.id path line) rest := by
  have restyles := restyles_writeLine document twin line.content
  have twinBelow : twin ∈ document.descendants copy.id :=
    (Wordml.mem_ownTexts.mp (own ▸ (by simp : twin ∈ front ++ twin :: back))).1
  have twinLive := (((sound.descendants copy.id).2 twin).mp twinBelow).1
  have twinText := text_writeLine (Document.lt_size_of_isLive twinLive) line.content
  -- The line is written first, which leaves the paragraph with the texts that it owns.
  have stillOwn : Wordml.ownTexts (writeLine document twin line.content) copy.id =
      front ++ twin :: back := by
    rw [Wordml.ownTexts_removes restyles.removes sound (by simp), own]
    simp
  rw [fillLine_eq leads, stillOwn, if_pos (by simp)]
  generalize writeLine document twin line.content = written at *
  have writtenSound := restyles.rewritten.sound sound
  have writtenHolds := holds.congr restyles.rewritten.links
  have notRun : written.tag copy.id ≠ Wordml.run := by
    rw [restyles.removes.tag, isParagraph]
    decide
  have below : ∀ id ∈ doomed line (front ++ twin :: back) twin, written.isLive id = true →
      id ∈ written.descendants copy.id := fun id member _ =>
    (Wordml.mem_ownTexts.mp (stillOwn ▸ mem_of_mem_doomed member)).1
  -- Then the texts on the sides of the twin are deleted unless they go with the line.
  obtain ⟨gone, thins, dead⟩ := thins_deleteTexts writtenSound notRun below
  have nodup : (front ++ twin :: back).Nodup := stillOwn ▸ Wordml.nodup_ownTexts writtenSound copy.id
  have survivors := filter_doomed line nodup
  generalize doomed line (front ++ twin :: back) twin = lost at *
  generalize lost.foldl Wordml.deleteText written = final at *
  obtain ⟨rest, finalHolds, lighter⟩ := thins.holds rfl writtenHolds
  have elements : ∀ outlines, toTrees final outlines = toTrees written outlines :=
    fun outlines => Outline.toTrees_congr fun id _ => thins.element id
  have otherText : ∀ id, id ≠ twin → written.text id = document.text id := fun id apart =>
    congrArg (fun node : Node => node.text) (restyles.frame id apart)
  have tag : final.tag copy.id = document.tag copy.id :=
    (thins.removes.tag copy.id).trans (restyles.removes.tag copy.id)
  refine ⟨rest, finalHolds, tag, thins.removes.size.trans restyles.rewritten.size, ?_, ?_, ?_⟩
  · intro id outside
    have inside : twin ∈ copy.ids := by
      rw [holds.descendants] at twinBelow
      rw [← Outline.node_eta copy]
      exact List.mem_cons_of_mem _ twinBelow
    have apart : id ≠ twin := fun same => outside (same ▸ inside)
    rw [thins.element, restyles.frame id apart]
  · have stays := thins.sublist_ownTexts writtenSound dead
    rw [stillOwn, survivors] at stays
    refine Nat.le_trans (thins.loose_le finalHolds (tag.trans isParagraph) stays) (Nat.le_of_eq ?_)
    exact feedsAll_shares (twinText ▸ whole) otherText nodup line
  · rw [elements]
    refine (lighter.trans (.of_outlines (fun id _ => restyles.removes.tag id) fun id _ => ?_)).splits
    by_cases here : id = twin
    · rw [here, twinText, whole]
      exact Nat.zero_le _
    · rw [otherText id here]

theorem isLive_of_fill {outlines : List Outline} {outline : Outline}
    (holds : document.Holds (context.fill outlines)) (member : outline ∈ outlines) :
    document.isLive outline.id = true :=
  (Document.holds_fill_iff.mp holds).isLive_of_mem_idsAll
    (Outline.mem_idsAll.mpr ⟨outline, member, outline.id_mem_ids⟩)

theorem ne_root_of_fill (upright : Upright [] document) {outer : Context}
    {before after outlines : List Outline}
    {parent : NodeId} (holds : document.Holds ((Context.under outer before after parent).fill outlines))
    {outline : Outline} (member : outline ∈ outlines) : outline.id ≠ document.root := by
  obtain ⟨front, back, rfl⟩ := List.append_of_mem member
  have inside : document.Holds
      (((Context.under outer before after parent).beside front back).fill [outline]) := by
    rw [Context.fill_beside]
    simpa using holds
  have above := (Document.holds_fill_iff.mp inside).top.parent
  intro same
  rw [same, upright.topped.top] at above
  simp [Context.beside, Context.parent?] at above

/-- What copying a paragraph for lines comes to: the copies stand behind the paragraph, all else is as it
was, and the copies are split no more often than the bound says. -/
structure CopiesLines (document : Document) (context : Context) (paragraph : Outline) (done : List Outline)
    (bound : Nat) (result : Document) (copies : List Outline) : Prop where
  holds : result.Holds (context.fill (paragraph :: (done ++ copies)))
  upholds : Upholds document result
  size_le : document.size ≤ result.size
  old : ∀ id : Nat, id < document.size → (result.node id).toElement = (document.node id).toElement
  tags : ∀ copy ∈ copies, result.tag copy.id = Wordml.paragraph
  splits : splitsAll (toTrees result copies) ≤ bound

def lineBound (front back inner : Nat) (line : Line) : Nat :=
  line.share front back * (inner + 1) + inner

section Lines

variable {origin : Document} {outer : Context} {before after done ahead : List Outline} {parent : NodeId}
  {paragraph last : Outline} {path : List Nat} {id : NodeId} {front back : List NodeId}
  (originSound : origin.Sound) (originHolds : origin.Holds (context.fill [paragraph]))
  (isParagraph : origin.tag paragraph.id = Wordml.paragraph)
  (leads : origin.follow? paragraph.id path = some id)
  (own : Wordml.ownTexts origin paragraph.id = front ++ id :: back)
include originSound originHolds isParagraph leads own

/-- One more copy, with its line. -/
theorem copiesLines_one (upright : Upright [] document)
    (holds : document.Holds ((Context.under outer before after parent).fill (paragraph :: done)))
    (whole : paragraph :: done = ahead ++ [last])
    (same : paragraph.toTree document = paragraph.toTree origin) {line : Line}
    (feedless : feeds line.content = 0) :
    ∃ rest, CopiesLines document (.under outer before after parent) paragraph done
      (lineBound (feedsAll (front.map origin.text)) (feedsAll (back.map origin.text))
        (splitsAll (toTrees origin paragraph.children)) line)
      (fillLine ((document.cloneSubtree paragraph.id).1.insertAfter last.id document.size).1
        document.size path line) [.node document.size rest] := by
  have isLast : last ∈ paragraph :: done := whole ▸ by simp
  have tag := tag_eq_of_toTree same
  have placedUpholds := upholds_placeCopy upright (by rw [tag, isParagraph]; decide)
    (isLive_of_fill holds (List.mem_cons_self ..)) (isLive_of_fill holds isLast)
    (ne_root_of_fill upright holds isLast)
  -- The copy is placed; the text that is split has a twin in it, and so have the texts on its sides.
  obtain ⟨copy, here, new, placed, placedTree, grown⟩ := placeCopy holds whole
  generalize ((document.cloneSubtree paragraph.id).1.insertAfter last.id document.size).1 = next
    at placed placedTree grown placedUpholds ⊢
  have atCopy : next.Holds
      (((Context.under outer before after parent).beside (paragraph :: done) []).fill [copy]) := by
    rw [Context.fill_beside]
    simpa using placed
  obtain ⟨twin, twinLeads, twins⟩ := twins_ownTexts originHolds atCopy
    ((placedTree.trans same).symm) isParagraph leads (own ▸ by simp)
  rw [own] at twins
  have nodup : (front ++ id :: back).Nodup :=
    own ▸ Wordml.nodup_ownTexts originSound paragraph.id
  obtain ⟨front', back', ownCopy, sameFront, sameBack⟩ := twins.split nodup
  have isCopy : next.tag copy.id = Wordml.paragraph :=
    (tag_eq_of_toTree (placedTree.trans same)).trans isParagraph
  -- The line is put at the twin; what it may hold is counted in the origin.
  obtain ⟨rest, filled⟩ :=
    filled_fillLine placedUpholds.upright.sound atCopy isCopy twinLeads ownCopy feedless
  rw [sameFront, sameBack] at filled
  have upholds := upholds_fillLine placedUpholds.upright copy.id path line
  have innerSplits : splitsAll (toTrees next copy.children) =
      splitsAll (toTrees origin paragraph.children) := by
    have trees := placedTree.trans same
    rw [← Outline.node_eta copy, ← Outline.node_eta paragraph, Outline.toTree, Outline.toTree] at trees
    rw [(Tree.node.inj trees).2]
  obtain ⟨filledHolds, filledTag, size, others, fewLoose, fewSplits⟩ := filled
  rw [innerSplits] at fewSplits
  rw [here] at upholds filledHolds filledTag size others fewLoose fewSplits isCopy
  generalize fillLine next document.size path line = final at *
  refine ⟨rest, ?_, placedUpholds.trans upholds, ?_, ?_, ?_, ?_⟩
  · rw [Context.fill_beside] at filledHolds
    simpa using filledHolds
  · rw [size]
    exact grown.size_le
  · intro other bound
    rw [others other fun member => Nat.not_le.mpr bound (new other member), grown.toElement other bound]
  · simpa using filledTag.trans isCopy
  · have tag : (final.node document.size).tag = Wordml.paragraph := filledTag.trans isCopy
    rw [toTrees, toTrees, splitsAll_singleton, Outline.toTree, splits, if_pos tag]
    exact Nat.add_le_add (Nat.mul_le_mul fewLoose (Nat.add_le_add_right fewSplits 1)) fewSplits

/-- One copy for each of some lines, one behind the other. -/
theorem copiesLines_copyLines (upright : Upright [] document)
    (holds : document.Holds ((Context.under outer before after parent).fill (paragraph :: done)))
    (whole : paragraph :: done = ahead ++ [last])
    (same : paragraph.toTree document = paragraph.toTree origin) {lines : List Line}
    (feedless : ∀ line ∈ lines, feeds line.content = 0) :
    ∃ copies, CopiesLines document (.under outer before after parent) paragraph done
      (lines.map (lineBound (feedsAll (front.map origin.text)) (feedsAll (back.map origin.text))
        (splitsAll (toTrees origin paragraph.children)))).sum
      (copyLines document paragraph.id path last.id lines) copies := by
  -- The paragraph that is copied stays what it was at the origin, since lines are written to copies only.
  induction lines generalizing document done ahead last with
  | nil =>
      exact ⟨[], by simpa [copyLines] using holds, .refl upright, Nat.le_refl _, fun _ _ => rfl, by simp,
        Nat.le_refl 0⟩
  | cons line rest ih =>
      rw [List.forall_mem_cons] at feedless
      obtain ⟨children, copied⟩ := copiesLines_one originSound originHolds isParagraph leads own upright
        holds whole same feedless.1
      rw [copyLines]
      simp only [Document.cloneSubtree_snd]
      generalize fillLine ((document.cloneSubtree paragraph.id).1.insertAfter last.id document.size).1
        document.size path line = next at *
      have bound : ∀ {ids : List Outline}, next.Holds ((Context.under outer before after parent).fill ids) →
          ∀ inner : Nat, inner ∈ idsAll ids → inner < next.size := fun held inner member =>
        (Document.holds_fill_iff.mp held).lt_size member
      have sameNext : paragraph.toTree next = paragraph.toTree origin := by
        refine (Outline.toTree_congr fun inner member => copied.old inner ?_).trans same
        exact (Document.holds_fill_iff.mp holds).lt_size (by simp [idsAll, member])
      obtain ⟨copies, further⟩ := ih copied.upholds.upright copied.holds
        (show paragraph :: (done ++ [.node document.size children]) =
          (paragraph :: done) ++ [.node document.size children] from rfl) sameNext feedless.2
      have kept : ∀ inner ∈ (Outline.node document.size children).ids, inner < next.size :=
        fun inner member => bound copied.holds inner (by simp [idsAll, member])
      rw [Outline.id_node] at further
      generalize copyLines next paragraph.id path document.size rest = final at *
      refine ⟨.node document.size children :: copies, ?_, copied.upholds.trans further.upholds,
        Nat.le_trans copied.size_le further.size_le, ?_, ?_, ?_⟩
      · simpa using further.holds
      · intro inner small
        rw [further.old inner (Nat.lt_of_lt_of_le small copied.size_le), copied.old inner small]
      · rw [List.forall_mem_cons]
        refine ⟨?_, further.tags⟩
        have old := further.old document.size (kept document.size (Outline.id_mem_ids _))
        exact (congrArg Element.tag old).trans (copied.tags _ (List.mem_singleton_self _))
      · rw [toTrees, splitsAll, Outline.toTree_congr fun inner member => further.old inner (kept inner member),
          List.map_cons, List.sum_cons]
        have first := copied.splits
        rw [toTrees, toTrees, splitsAll_singleton] at first
        exact Nat.add_le_add first further.splits

end Lines

theorem sum_lineBound (front back inner : Nat) (content : String) :
    ((linesOf content).map (lineBound front back inner)).sum =
      (front + back) * (inner + 1) + (feeds content + 1) * inner := by
  have parts : (linesOf content).map (lineBound front back inner) =
      (linesOf content).map fun line => line.share front back * (inner + 1) + inner := rfl
  rw [parts, List.sum_map_add, List.sum_map_mul_right, sum_share, List.map_const', List.sum_replicate,
    length_linesOf, nsmul_eq_mul, Nat.cast_id]

/-- With a line feed at least, the copies of a paragraph are split less often than the paragraph. -/
theorem sum_lineBound_lt {front back inner : Nat} {content : String} (fed : 0 < feeds content) :
    ((linesOf content).map (lineBound front back inner)).sum <
      (front + (feeds content + back)) * (inner + 1) + inner :=
  calc ((linesOf content).map (lineBound front back inner)).sum
      = (front + back) * (inner + 1) + (feeds content + 1) * inner := sum_lineBound front back inner content
    _ < (front + back) * (inner + 1) + (feeds content + 1) * inner + feeds content :=
      Nat.lt_add_of_pos_right fed
    _ = (front + (feeds content + back)) * (inner + 1) + inner := by ring

/-- What splitting a paragraph comes to: copies stand in its place, all else is as it was, and there are
fewer splits left. -/
structure SplitsParagraph (document : Document) (context : Context) (paragraph : Outline)
    (result : Document) (copies : List Outline) : Prop where
  holds : result.Holds (context.fill copies)
  upholds : Upholds document result
  old : ∀ id : Nat, id < document.size → (result.node id).toElement = (document.node id).toElement
  tags : ∀ copy ∈ copies, result.tag copy.id = Wordml.paragraph
  fewer : splitsAll (toTrees result copies) < splits (paragraph.toTree document)

theorem splitsParagraph (upright : Upright [] document) {outer : Context} {before after : List Outline}
    {parent : NodeId} {paragraph : Outline}
    (holds : document.Holds ((Context.under outer before after parent).fill [paragraph]))
    (isParagraph : document.tag paragraph.id = Wordml.paragraph) {path : List Nat} {id : NodeId}
    (leads : document.follow? paragraph.id path = some id)
    (own : id ∈ Wordml.ownTexts document paragraph.id) (fed : holdsLineFeed (document.text id) = true) :
    ∃ copies, SplitsParagraph document (.under outer before after parent) paragraph
      (splitParagraph document paragraph.id path (document.text id)) copies := by
  obtain ⟨front, back, parts⟩ := List.append_of_mem own
  obtain ⟨copies, copied⟩ := copiesLines_copyLines upright.sound holds isParagraph leads parts upright holds
    (show [paragraph] = [] ++ [paragraph] from rfl) rfl
    (fun line (member : line ∈ linesOf (document.text id)) => feeds_of_mem_linesOf member)
  have looseInside : loose (toTrees document paragraph.children) =
      feedsAll (front.map document.text) + (feeds (document.text id) + feedsAll (back.map document.text)) := by
    rw [loose, ← map_text_freeTextsAll, ← ownTexts_eq holds isParagraph, parts, List.map_append,
      List.map_cons, feedsAll_append, feedsAll_cons]
  rw [splitParagraph]
  generalize copyLines document paragraph.id path paragraph.id (linesOf (document.text id)) = result at *
  have atParagraph : result.Holds
      (((Context.under outer before after parent).beside [] copies).fill [paragraph]) := by
    rw [Context.fill_beside]
    simpa using copied.holds
  have element := Document.toElement_delete atParagraph
  have apart : paragraph.id ≠ result.root := by
    rw [copied.upholds.ages.root]
    exact ne_root_of_fill upright holds (List.mem_singleton_self _)
  refine ⟨copies, ?_, copied.upholds.trans (.delete copied.upholds.upright apart), ?_, ?_, ?_⟩
  · have deleted := atParagraph.delete
    rw [Context.fill_beside] at deleted
    simpa using deleted
  · intro inner bound
    rw [element, copied.old inner bound]
  · intro copy member
    exact (congrArg Element.tag (element copy.id)).trans (copied.tags copy member)
  · rw [Outline.toTrees_congr fun inner _ => element inner]
    refine Nat.lt_of_le_of_lt copied.splits ?_
    have tag : (document.node paragraph.id).tag = Wordml.paragraph := isParagraph
    rw [← Outline.node_eta paragraph, Outline.toTree, splits, if_pos tag, Outline.children_node,
      looseInside]
    exact sum_lineBound_lt (holdsLineFeed_iff.mp fed)

end Copies

end Filling

end WordTemplate
