import Mathlib.Data.List.InsertIdx
import WordTemplate.Proofs.Markup.DistinctKeys
import WordTemplate.Proofs.Wordml.Sparing

/-! Documents that stand upright: all live nodes stand in one tree below the root, and the root is none of
the elements that are taken out when a document is filled. What is put in and taken out leaves a document
upright. -/

namespace WordTemplate

open Markup
open Outline (idsAll)

namespace Markup.Document

variable {document first second : Document}

def KeysApart (document : Document) : Prop :=
  ∀ id, DistinctKeys (document.node id).attributes

namespace KeysApart

theorem of_extends (apart : first.KeysApart) (extends_ : Extends first second)
    (size : second.size = first.size) : second.KeysApart := by
  intro id
  by_cases bound : id < first.size
  · rw [extends_.toElement id bound]
    exact apart id
  · rw [node_of_le_size (size ▸ Nat.le_of_not_lt bound)]
    exact distinctKeys_nil

theorem modify (apart : document.KeysApart) (id : NodeId) {change : Node → Node}
    (keeps : ∀ node : Node, DistinctKeys node.attributes → DistinctKeys (change node).attributes) :
    (document.modify id change).KeysApart := by
  intro other
  rw [node_modify]
  split
  · exact keeps _ (apart other)
  · exact apart other

theorem push (apart : document.KeysApart) {nodes : List Node}
    (new : ∀ node ∈ nodes, DistinctKeys node.attributes) : (document.push nodes).1.KeysApart := by
  intro id
  rcases node_push_cases document nodes id with ⟨_, same⟩ | ⟨_, pushed | absent⟩
  · rw [same]
    exact apart id
  · exact new _ pushed
  · rw [absent]
    exact distinctKeys_nil

theorem distinct_liveTree (apart : document.KeysApart) (id : NodeId) :
    (document.liveTree id).Distinct := by
  intro element member
  rw [← Tree.node_eta (document.liveTree id), Tree.elements, List.mem_cons] at member
  rcases member with top | below
  · rw [top, liveTree, element_treeTo]
    exact apart id
  · obtain ⟨inner, _, same⟩ := elements_below_treeTo document document.isLive document.size id _ below
    rw [same]
    exact apart inner

end KeysApart

theorem size_insertAfter (document : Document) (anchor id : NodeId) :
    (document.insertAfter anchor id).1.size = document.size := by
  rw [insertAfter]
  rcases document.insertBeside_cases 1 anchor id with same | ⟨parent, position, same⟩
  · rw [same, size_detach]
  · rw [same, size_link, size_detach]

theorem size_delete (document : Document) (id : NodeId) : (document.delete id).size = document.size := by
  rw [delete]
  split
  · rw [size_detach, size_foldl fun document id => size_modify document id _]
  · rfl

/-- Putting a node behind an anchor makes it a child of the anchor's parent, and no other node a child of
any node. -/
theorem mem_children_insertAfter {anchor id parent child : NodeId}
    (listed : child ∈ (document.insertAfter anchor id).1.children parent) :
    child ∈ document.children parent ∨ child = id ∧ document.parent? anchor = some parent := by
  have inner : ∀ other, child ∈ (document.detach id).children other →
      child ∈ document.children other := by
    intro other member
    rw [children_detach] at member
    split at member
    · exact (List.mem_filter.mp member).1
    · exact member
  have none : (document.insertAfter anchor id).1 = document.detach id →
      child ∈ document.children parent :=
    fun same => inner parent (same ▸ listed)
  cases stands : (document.detach id).parent? anchor with
  | none => exact .inl (none (by rw [insertAfter, insertBeside, stands]))
  | some above =>
      cases place : ((document.detach id).children above).idxOf? anchor with
      | none =>
          refine .inl (none ?_)
          rw [insertAfter, insertBeside, stands]
          simp only [place]
      | some position =>
          have bound : above < (document.detach id).size := by
            by_contra beyond
            rw [children, node_of_le_size (Nat.le_of_not_lt beyond)] at place
            simp [Node.absent] at place
          rw [insertAfter, insertBeside_of_idxOf? stands place, children_link id bound] at listed
          split at listed
          · rename_i same
            rcases List.eq_or_mem_of_mem_insertIdx listed with new | old
            · rw [parent?_detach] at stands
              split at stands
              · simp at stands
              · exact .inr ⟨new, same ▸ stands⟩
            · exact .inl (inner parent (same ▸ old))
          · exact .inl (inner parent listed)

theorem isAny_of_closest? {tags : List String} {id found : NodeId}
    (closest : document.closest? id tags = some found) : document.isAny tags found = true :=
  closest?_induction (motive := fun _ => document.isAny tags found = true) (fun here => here)
    (fun _ _ _ _ tagged => tagged) closest

end Markup.Document

namespace Wordml

open Markup.Document (Ages Rewritten)

/-- The elements that are taken out of a document, alone or with what is below them. -/
def removable : List String :=
  [paragraph, row, cell, table, text, run]

/-- The live nodes stand in one tree below the root, and in other trees beside it. The root is no element
that is taken out, and none of its children is a text. -/
structure Upright (others : List Outline) (document : Document) : Prop where
  sound : document.Sound
  stands : document.StandsBeside others
  keys : document.KeysApart
  apart : document.isAny removable document.root = false
  texts : ∀ id ∈ document.children document.root, document.tag id ≠ text

namespace Upright

variable {others : List Outline} {document first second : Document}

theorem topped (upright : Upright others document) : Topped document := by
  obtain ⟨tree, top, holds⟩ := upright.stands
  have inside : document.Holds ((Context.top others []).fill [tree]) := by
    rwa [Context.fill, List.append_nil]
  have here := (Document.holds_fill_iff.mp inside).top
  rw [← Outline.node_eta tree] at here
  exact ⟨upright.sound, top ▸ here.live, top ▸ here.parent⟩

theorem live (upright : Upright others document) : document.isLive document.root = true :=
  upright.topped.live

theorem ne_root (upright : Upright others document) {tags : List String} {id : NodeId}
    (inside : tags ⊆ removable) (found : document.isAny tags id = true) : id ≠ document.root := by
  rintro rfl
  have tag : document.tag document.root ∈ removable := by
    simp only [Document.isAny, List.contains_iff_mem] at found
    exact inside found
  have none := upright.apart
  simp only [Document.isAny, List.contains_iff_mem, ← Bool.not_eq_true] at none
  exact none tag

theorem ne_root_of_closest? (upright : Upright others document) {tags : List String} {id found : NodeId}
    (inside : tags ⊆ removable) (closest : document.closest? id tags = some found) :
    found ≠ document.root :=
  upright.ne_root inside (Document.isAny_of_closest? closest)

theorem ne_root_of_tag (upright : Upright others document) {tag : String} (listed : tag ∈ removable)
    {id : NodeId} (same : document.tag id = tag) : id ≠ document.root :=
  upright.ne_root (List.cons_subset.mpr ⟨listed, List.nil_subset _⟩) (by simp [Document.isAny, same])

theorem ne_root_of_text (upright : Upright others document) {id : NodeId}
    (isText : document.tag id = text) : id ≠ document.root :=
  upright.ne_root_of_tag (by decide) isText

theorem parent_ne_root (upright : Upright others document) {id : NodeId} (isText : document.tag id = text)
    (live : document.isLive id = true) : document.parent? id ≠ some document.root := by
  intro above
  exact upright.texts id (upright.sound.wellFormed.lists live above) isText

theorem rewritten (upright : Upright others first) (rewritten : Rewritten first second)
    (keys : second.KeysApart) : Upright others second where
  sound := rewritten.sound upright.sound
  stands := by
    obtain ⟨tree, top, holds⟩ := upright.stands
    exact ⟨tree, by rw [top, rewritten.ages.root], holds.congr rewritten.links⟩
  keys := keys
  apart := by
    rw [Document.isAny, rewritten.removes.tag, rewritten.ages.root]
    exact upright.apart
  texts := by
    intro id listed
    rw [rewritten.links.children, rewritten.ages.root] at listed
    rw [rewritten.removes.tag]
    exact upright.texts id listed

theorem modify (upright : Upright others document) (id : NodeId) {change : Node → Node}
    (live : ∀ node : Node, (change node).live = node.live)
    (parent : ∀ node : Node, (change node).parent = node.parent)
    (children : ∀ node : Node, (change node).children = node.children)
    (tag : ∀ node : Node, (change node).tag = node.tag)
    (keeps : ∀ node : Node, DistinctKeys node.attributes → DistinctKeys (change node).attributes) :
    Upright others (document.modify id change) :=
  upright.rewritten (Document.rewritten_modify document id live parent children tag)
    (upright.keys.modify id keeps)

theorem delete (upright : Upright [] document) {id : NodeId} (apart : id ≠ document.root) :
    Upright [] (document.delete id) := by
  have spares := Spares.delete upright.topped apart
  have ages := Document.ages_delete document id
  have extends_ := Document.extends_delete document id
  have bound := Document.lt_size_of_isLive upright.live
  refine ⟨spares.topped.sound, ?_, upright.keys.of_extends extends_ (document.size_delete id), ?_, ?_⟩
  · rcases Document.rooted_delete (.inr upright.stands) id with dead | stands
    · rw [spares.topped.live] at dead
      exact absurd dead.2 (by decide)
    · exact stands
  · rw [Document.isAny, ages.root, ages.tag _ bound]
    exact upright.apart
  · intro child listed
    have live := spares.topped.sound.wellFormed.child_live listed
    have parent := spares.parent child _ (spares.topped.sound.wellFormed.above listed)
    rw [ages.root] at parent
    have inside : child < document.size := by
      have inside := Document.lt_size_of_isLive live
      rwa [document.size_delete] at inside
    have before : document.isLive child = true := by
      by_contra dead
      rw [ages.dead child inside (by simpa using dead)] at live
      exact absurd live (by decide)
    rw [ages.tag child inside]
    exact upright.texts child (upright.sound.wellFormed.lists before parent)

theorem push (upright : Upright others document) (isNew : Bool) (tree : Tree) (distinct : tree.Distinct) :
    Upright (tree.outline document.size :: others)
      (document.push (tree.layOut isNew none document.size)).1 := by
  have ages := Document.ages_push document (tree.layOut isNew none document.size)
  have bound := Document.lt_size_of_isLive upright.live
  refine ⟨upright.sound.push isNew tree, Document.standsBeside_push upright.stands isNew tree,
    upright.keys.push fun node member => ?_, ?_, ?_⟩
  · have listed := List.mem_map_of_mem (f := Node.toElement) member
    rw [Document.map_toElement_layOut] at listed
    exact distinct _ listed
  · rw [Document.isAny, ages.root, ages.tag _ bound]
    exact upright.apart
  · intro child listed
    rw [ages.root, Document.children, Document.node_push_of_lt _ bound] at listed
    have inside := Document.lt_size_of_isLive (upright.sound.wellFormed.child_live listed)
    rw [ages.tag child inside]
    exact upright.texts child listed

theorem graft (upright : Upright others document) {source : Document} (keys : source.KeysApart)
    {id : NodeId} (live : source.isLive id = true) :
    Upright ((source.liveTree id).outline document.size :: others) (document.graft source id).1 := by
  rw [Document.graft_of_isLive document live]
  exact upright.push true _ (keys.distinct_liveTree id)

theorem perm {more : List Outline} (upright : Upright others document) (perm : others.Perm more) :
    Upright more document where
  sound := upright.sound
  stands := by
    obtain ⟨tree, top, holds⟩ := upright.stands
    exact ⟨tree, top, holds.perm (perm.append_right _)⟩
  keys := upright.keys
  apart := upright.apart
  texts := upright.texts

theorem setText (upright : Upright others document) (id : NodeId) (content : String) :
    Upright others (document.setText id content) :=
  upright.modify id (fun _ => rfl) (fun _ => rfl) (fun _ => rfl) (fun _ => rfl) fun _ kept => kept

theorem preserveSpace (upright : Upright others document) (id : NodeId) :
    Upright others (preserveSpace document id) := by
  rw [Wordml.preserveSpace]
  split
  · exact upright.modify id (fun _ => rfl) (fun _ => rfl) (fun _ => rfl) (fun _ => rfl)
      fun _ kept => Element.distinctKeys_set kept
  · exact upright

theorem insertAfter {tree : Outline} (upright : Upright (tree :: others) document) {anchor : NodeId}
    (live : document.isLive anchor = true) (outside : anchor ∉ idsAll (tree :: others))
    (below : anchor ≠ document.root)
    (fits : document.tag tree.id = text → document.parent? anchor ≠ some document.root) :
    Upright others (document.insertAfter anchor tree.id).1 := by
  have ages := Document.ages_insertAfter document anchor tree.id
  have extends_ := Document.extends_insertAfter document anchor tree.id
  have size := document.size_insertAfter anchor tree.id
  have bound := Document.lt_size_of_isLive upright.live
  obtain ⟨root, top, holds⟩ := upright.stands
  have inside : document.Holds ((Context.top [] (others ++ [root])).fill [tree]) := holds
  have treeLive : document.isLive tree.id = true := (Document.holds_fill_iff.mp inside).top.live
  refine ⟨?_, Document.standsBeside_insertAfter upright.stands outside live below,
    upright.keys.of_extends extends_ size, ?_, ?_⟩
  · refine upright.sound.insertBeside (Nat.le_refl 1) treeLive live fun under => outside ?_
    rw [inside.descendants] at under
    rw [Outline.idsAll, List.mem_append, ← Outline.node_eta tree, Outline.ids]
    exact .inl (List.mem_cons_of_mem _ under)
  · rw [Document.isAny, ages.root, ages.tag _ bound]
    exact upright.apart
  · intro child listed
    rw [ages.root] at listed
    rcases Document.mem_children_insertAfter listed with old | ⟨rfl, above⟩
    · rw [ages.tag child (Document.lt_size_of_isLive (upright.sound.wellFormed.child_live old))]
      exact upright.texts child old
    · rw [ages.tag _ (Document.lt_size_of_isLive treeLive)]
      exact fun isText => fits isText above

end Upright

/-- The second document comes from the first one and stands upright. -/
structure Upholds (first second : Document) : Prop where
  ages : Ages first second
  upright : Upright [] second

namespace Upholds

variable {document first second third : Document}

theorem refl (upright : Upright [] document) : Upholds document document :=
  ⟨.refl document, upright⟩

theorem trans (left : Upholds first second) (right : Upholds second third) : Upholds first third :=
  ⟨left.ages.trans right.ages, right.upright⟩

theorem rewritten (upright : Upright [] first) (rewritten : Rewritten first second)
    (keys : second.KeysApart) : Upholds first second :=
  ⟨rewritten.ages, upright.rewritten rewritten keys⟩

theorem modify (upright : Upright [] document) (id : NodeId) {change : Node → Node}
    (live : ∀ node : Node, (change node).live = node.live)
    (parent : ∀ node : Node, (change node).parent = node.parent)
    (children : ∀ node : Node, (change node).children = node.children)
    (tag : ∀ node : Node, (change node).tag = node.tag)
    (keeps : ∀ node : Node, DistinctKeys node.attributes → DistinctKeys (change node).attributes) :
    Upholds document (document.modify id change) :=
  ⟨(Document.rewritten_modify document id live parent children tag).ages,
    upright.modify id live parent children tag keeps⟩

theorem setText (upright : Upright [] document) (id : NodeId) (content : String) :
    Upholds document (document.setText id content) :=
  .modify upright id (fun _ => rfl) (fun _ => rfl) (fun _ => rfl) (fun _ => rfl) fun _ kept => kept

theorem pushText (upright : Upright [] document) (id : NodeId) (content : String) :
    Upholds document (document.pushText id content) :=
  .modify upright id (fun _ => rfl) (fun _ => rfl) (fun _ => rfl) (fun _ => rfl) fun _ kept => kept

theorem setAttribute (upright : Upright [] document) (id : NodeId) (key value : String) :
    Upholds document (document.setAttribute id key value) :=
  .modify upright id (fun _ => rfl) (fun _ => rfl) (fun _ => rfl) (fun _ => rfl)
    fun _ kept => Element.distinctKeys_set kept

theorem removeAttribute (upright : Upright [] document) (id : NodeId) (key : String) :
    Upholds document (document.removeAttribute id key) :=
  .modify upright id (fun _ => rfl) (fun _ => rfl) (fun _ => rfl) (fun _ => rfl)
    fun _ kept => kept.sublist (List.Sublist.map _ List.eraseP_sublist)

theorem mapValues (upright : Upright [] document) (id : NodeId) (change : String → String) :
    Upholds document (document.setAttributes id ((document.node id).attributes.map fun entry =>
      { entry with value := change entry.value })) := by
  have written : Rewritten document (document.setAttributes id ((document.node id).attributes.map
      fun entry => { entry with value := change entry.value })) :=
    Document.rewritten_modify document id (fun _ => rfl) (fun _ => rfl) (fun _ => rfl) fun _ => rfl
  refine .rewritten upright written fun other => ?_
  have kept : DistinctKeys ((document.node id).attributes.map fun entry =>
      { entry with value := change entry.value }) := by
    rw [DistinctKeys, List.map_map]
    exact upright.keys id
  rw [Document.setAttributes, Document.node_modify]
  split
  · exact kept
  · exact upright.keys other

theorem preserveSpace (upright : Upright [] document) (id : NodeId) :
    Upholds document (preserveSpace document id) := by
  rw [Wordml.preserveSpace]
  split
  · exact .setAttribute upright id _ _
  · exact .refl upright

theorem delete (upright : Upright [] document) {id : NodeId} (apart : id ≠ document.root) :
    Upholds document (document.delete id) :=
  ⟨Document.ages_delete document id, upright.delete apart⟩

theorem foldl {α : Type} {step : Document → α → Document} {items : List α}
    (upright : Upright [] document)
    (each : ∀ middle, Upholds document middle → ∀ item ∈ items, Upholds middle (step middle item)) :
    Upholds document (items.foldl step document) :=
  List.foldlRecOn items step (motive := Upholds document) (.refl upright)
    fun middle upholds item member => upholds.trans (each middle upholds item member)

theorem clearTextDeep (upright : Upright [] document) (id : NodeId) :
    Upholds document (document.clearTextDeep id) :=
  .foldl upright fun _ upholds other _ => .setText upholds.upright other ""

theorem removeAttributeDeep (upright : Upright [] document) (id : NodeId) (key : String) :
    Upholds document (document.removeAttributeDeep id key) :=
  .foldl upright fun _ upholds other _ => .removeAttribute upholds.upright other key

theorem deleteText (upright : Upright [] document) {id : NodeId} (apart : id ≠ document.root) :
    Upholds document (deleteText document id) := by
  have deleted := delete upright apart
  rw [Wordml.deleteText]
  split
  · exact deleted
  · split
    · rename_i bare
      simp only [Bool.and_eq_true, decide_eq_true_eq] at bare
      refine deleted.trans (.delete deleted.upright ?_)
      exact deleted.upright.ne_root_of_tag (by decide) bare.1
    · exact deleted

theorem joinRuns (upright : Upright [] document) (anchor : Option Anchor) {children : List NodeId}
    (apart : ∀ child ∈ children, child ≠ document.root) :
    Upholds document (joinRuns document anchor children).1 := by
  induction children generalizing document anchor with
  | nil => exact .refl upright
  | cons child rest ih =>
      obtain ⟨here, later⟩ := List.forall_mem_cons.mp apart
      rw [Wordml.joinRuns]
      split
      · exact ih upright none later
      · rename_i found _
        simp only
        split
        · rename_i target _
          have written := pushText upright target.text (document.text found)
          have styled := written.trans (.preserveSpace written.upright target.text)
          have step := styled.trans (.delete styled.upright (styled.ages.root ▸ here))
          exact step.trans (ih step.upright _ (step.ages.root ▸ later))
        · exact ih upright _ later

theorem absorb (upright : Upright [] document) (target : NodeId) {ids : List NodeId}
    (apart : ∀ id ∈ ids, id ≠ document.root) : Upholds document (absorb document target ids) := by
  refine .foldl upright fun middle upholds id member => ?_
  have written := pushText upholds.upright target (middle.text id)
  refine written.trans (.deleteText written.upright ?_)
  rw [written.ages.root, upholds.ages.root]
  exact apart id member

theorem completeMarkers (upright : Upright [] document) {ids : List NodeId}
    (apart : ∀ id ∈ ids, id ≠ document.root) : Upholds document (completeMarkers document ids).1 := by
  refine completeMarkers_induction (motive := fun document ids result => Upright [] document →
    (∀ id ∈ ids, id ≠ document.root) → Upholds document result) ?_ ?_ ?_ document ids upright apart
  · exact fun document upright _ => .refl upright
  · intro document id rest taken after result closing upholds upright apart
    obtain ⟨first, second⟩ := mem_of_cutClosing? closing
    have absorbed := absorb upright id fun other member =>
      apart other (List.mem_cons_of_mem _ (first member))
    have step := absorbed.trans (.preserveSpace absorbed.upright id)
    refine step.trans (upholds step.upright fun other member => ?_)
    rw [step.ages.root]
    exact apart other (List.mem_cons_of_mem _ (second member))
  · exact fun document id rest result upholds upright apart =>
      upholds upright fun other member => apart other (List.mem_cons_of_mem _ member)

theorem repairRuns (upright : Upright [] document) : Upholds document (repairRuns document) := by
  refine List.foldlRecOn (motive := Upholds document) _ _ (.refl upright) fun middle upholds id _ => ?_
  split
  · refine eachParagraph_induction (fun middle id upholds => ?_)
      (eachParagraph_induction (fun middle id upholds => ?_) upholds id) id
    · refine upholds.trans (completeMarkers upholds.upright fun other member => ?_)
      exact upholds.upright.ne_root_of_text (mem_ownTexts.mp member).2.1
    · exact upholds.trans (joinRuns upholds.upright none fun _ => upholds.upright.topped.ne_root_of_child)
  · exact upholds

end Upholds

end Wordml

end WordTemplate
