import WordTemplate.Proofs.Filling.Repairs

/-! Putting inserts into a document. The nodes of an insert are new trees beside the others, and then
siblings behind the text that they are put in for. -/

namespace WordTemplate

namespace Markup.Document

open Outline (idsAll linksAll)

variable {document : Document}

theorem Extends.modify_new {first second : Document} (extends_ : Extends first second) {id : Nat}
    (new : first.size ≤ id) (change : Node → Node) : Extends first (second.modify id change) := by
  refine ⟨?_, fun other old => ?_, extends_.root, extends_.declared⟩
  · rw [size_modify]
    exact extends_.size_le
  · have apart : other ≠ id := Nat.ne_of_lt (Nat.lt_of_lt_of_le old new)
    rw [node_modify, if_neg fun both => apart both.1, extends_.toElement other old]

structure Adds (first : Document) (forest : List Outline) (content : List Tree)
    (result : Document × List NodeId) (trees : List Outline) : Prop where
  ids : trees.map Outline.id = result.2
  holds : result.1.Holds (trees ++ forest)
  content : Outline.toTrees result.1 trees = content
  new : ∀ id : Nat, id ∈ idsAll trees → first.size ≤ id

theorem extends_graftAll (document source : Document) (ids : List NodeId) :
    Extends document (document.graftAll source ids).1 := by
  induction ids generalizing document with
  | nil => exact .refl document
  | cons id rest ih => exact (extends_graft document source id).trans (ih _)

theorem adds_graftAll {source : Document} {ids : List NodeId}
    (live : ∀ id ∈ ids, source.isLive id = true) {forest : List Outline}
    (holds : document.Holds forest) :
    ∃ trees : List Outline,
      Adds document forest (ids.map source.liveTree) (document.graftAll source ids) trees := by
  induction ids generalizing document forest with
  | nil => exact ⟨[], rfl, holds, rfl, by simp [idsAll]⟩
  | cons id rest ih =>
      have here := live id (by simp)
      let tree := (source.liveTree id).outline document.size
      have grafted : (document.graft source id).1.Holds (tree :: forest) := by
        rw [graft_of_isLive document here]
        exact holds.push true _
      have read : tree.toTree (document.graft source id).1 = source.liveTree id := by
        rw [graft_of_isLive document here]
        exact toTree_of_laid (laid_push document _)
      obtain ⟨trees, added⟩ := ih (fun other member => live other (by simp [member])) grafted
      have grown := extends_graftAll (document.graft source id).1 source rest
      refine ⟨tree :: trees, ?_, added.holds.perm (by simp), ?_, ?_⟩
      · simp only [List.map_cons, tree, Tree.id_outline, added.ids, graftAll]
        rfl
      · have kept : tree.toTree (document.graftAll source (id :: rest)).1 = source.liveTree id :=
          (grown.toTree fun other inside => grafted.lt_size (by simp [idsAll, inside])).trans read
        rw [Outline.toTrees, kept, List.map_cons, ← added.content]
        rfl
      · intro other member
        rw [idsAll, List.mem_append] at member
        rcases member with inside | later
        · rw [Tree.ids_outline] at inside
          exact (List.mem_range'_1.mp inside).1
        · exact Nat.le_trans (extends_graft document source id).size_le (added.new other later)

theorem ages_graftAll (document source : Document) (ids : List NodeId) :
    Ages document (document.graftAll source ids).1 := by
  induction ids generalizing document with
  | nil => exact .refl document
  | cons id rest ih => exact (ages_graft document source id).trans (ih _)

theorem slots_graftAll {holds : String → Prop} {onlyLive : Bool} {among : NodeId → Prop}
    (slots : document.Slots holds onlyLive among) {source : Document} (new : source.AllSlots holds)
    (ids : List NodeId) : (document.graftAll source ids).1.Slots holds onlyLive among := by
  induction ids generalizing document with
  | nil => exact slots
  | cons id rest ih =>
      refine ih (slots_graft slots fun other listed _ => new other listed (by simp))

end Markup.Document

namespace Filling

open Markup
open Markup.Document (Ages Slots)
open Outline (idsAll)

variable {document : Document}

theorem ages_setText (document : Document) (id : NodeId) (text : String) :
    Ages document (document.setText id text) :=
  Document.ages_modify document id (fun _ dead => dead) fun _ => rfl

theorem ages_preserveSpace (document : Document) (id : NodeId) :
    Ages document (Wordml.preserveSpace document id) := by
  rw [Wordml.preserveSpace]
  split
  · exact Document.ages_modify document id (fun _ dead => dead) fun _ => rfl
  · exact .refl document

theorem sameLinks_preserveSpace (document : Document) (id : NodeId) :
    Document.SameLinks document (Wordml.preserveSpace document id) := by
  rw [Wordml.preserveSpace]
  split
  · exact Document.sameLinks_modify document id (fun _ => rfl) (fun _ => rfl) fun _ => rfl
  · exact .refl document

def textElement (content : String) : Element where
  tag := Wordml.text
  attributes := if Wordml.hasOuterBlank content.toList then [⟨Wordml.spaceKey, "preserve"⟩] else []
  text := content

/-- The elements that an insert brings in: a text node unless the text is empty, or the elements of the
markup. -/
def Insert.trees : Insert → List Tree
  | text content => if content.isEmpty then [] else [.node (textElement content) []]
  | markup content =>
    match Document.parseFragment content with
    | .ok fragment => (fragment.children fragment.root).map fragment.liveTree
    | .error _ => []

theorem toElement_preserveSpace (document : Document) {id : Nat} (bound : id < document.size) :
    ((Wordml.preserveSpace document id).node id).toElement =
      if Wordml.hasOuterBlank (document.text id).toList then
        (document.node id).toElement.setAttribute Wordml.spaceKey "preserve"
      else (document.node id).toElement := by
  rw [Wordml.preserveSpace]
  split
  · rw [Document.setAttribute, Document.node_modify, if_pos ⟨rfl, bound⟩]
  · rfl

/-- The nodes of an insert stand beside the others. -/
theorem adds_insertNodes {forest : List Outline} (holds : document.Holds forest) (insert : Insert) :
    ∃ trees : List Outline,
      Document.Adds document forest insert.trees (insertNodes document insert) trees := by
  cases insert with
  | text content =>
      rw [insertNodes, Insert.trees]
      split
      · exact ⟨[], rfl, holds, rfl, by simp [idsAll]⟩
      · have created := holds.push false (.node { tag := Wordml.text } [])
        let blank := (document.createElement Wordml.text).1
        have bound : document.size < blank.size := by simp [blank, Document.createElement]
        have element : (blank.node document.size).toElement = { tag := Wordml.text } :=
          congrArg Node.toElement (Document.laid_push document [{ tag := Wordml.text }]).1
        have written : ((blank.setText document.size content).node document.size).toElement =
            { tag := Wordml.text, text := content } := by
          rw [Document.setText, Document.node_modify, if_pos ⟨rfl, bound⟩, element]
        refine ⟨[.node document.size []], rfl, ?_, ?_, ?_⟩
        · refine Document.Holds.congr created (Document.SameLinks.trans ?_
            (sameLinks_preserveSpace _ document.size))
          exact Document.sameLinks_modify _ document.size (fun _ => rfl) (fun _ => rfl) fun _ => rfl
        · have preserved : ((Wordml.preserveSpace (blank.setText document.size content)
              document.size).node document.size).toElement = textElement content := by
            rw [toElement_preserveSpace _ (by simpa [Document.setText] using bound), Document.text, written,
              textElement]
            split <;> rfl
          exact congrArg (fun element => [Markup.Tree.node element []]) preserved
        · simp [idsAll, Outline.ids]
  | markup content =>
      cases parsed : Document.parseFragment content with
      | error _ =>
          simp only [insertNodes, Insert.trees, parsed]
          exact ⟨[], rfl, holds, rfl, by simp [idsAll]⟩
      | ok fragment =>
          simp only [insertNodes, Insert.trees, parsed]
          obtain ⟨tree, rfl⟩ := Document.exists_ofTree_of_parseFragment parsed
          apply Document.adds_graftAll _ holds
          intro id listed
          exact (Document.holds_ofTree false tree).isLive_of_child listed

theorem holds_insertNodes {forest : List Outline} (holds : document.Holds forest) (insert : Insert) :
    ∃ trees : List Outline, trees.map Outline.id = (insertNodes document insert).2 ∧
      (insertNodes document insert).1.Holds (trees ++ forest) := by
  obtain ⟨trees, added⟩ := adds_insertNodes holds insert
  exact ⟨trees, added.ids, added.holds⟩

theorem extends_insertNodes (document : Document) (insert : Insert) :
    document.Extends (insertNodes document insert).1 := by
  cases insert with
  | text content =>
      rw [insertNodes]
      split
      · exact .refl document
      · have written : document.Extends
            ((document.createElement Wordml.text).1.setText document.size content) :=
          (Document.extends_push document _).modify_new (Nat.le_refl _) _
        change document.Extends (Wordml.preserveSpace _ document.size)
        rw [Wordml.preserveSpace]
        split
        · exact written.modify_new (Nat.le_refl _) _
        · exact written
  | markup content =>
      rw [insertNodes]
      split
      · exact Document.extends_graftAll document _ _
      · exact .refl document

theorem ages_insertNodes (document : Document) (insert : Insert) :
    Ages document (insertNodes document insert).1 := by
  cases insert with
  | text content =>
      rw [insertNodes]
      split
      · exact .refl document
      · exact ((Document.ages_push document _).trans (ages_setText _ _ content)).trans
          (ages_preserveSpace _ _)
  | markup content =>
      rw [insertNodes]
      split
      · exact Document.ages_graftAll document _ _
      · exact .refl document

def Insert.Has (holds : String → Prop) : Insert → Prop
  | text content => holds content
  | markup content => ∀ fragment, Document.parseFragment content = .ok fragment →
      fragment.AllSlots holds

section Slots

variable {holds : String → Prop} {onlyLive : Bool} {among : NodeId → Prop}

theorem slots_insertNodes (slots : document.Slots holds onlyLive among) {insert : Insert}
    (has : insert.Has holds) (preserve : holds "preserve") (empty : holds "") :
    (insertNodes document insert).1.Slots holds onlyLive among := by
  cases insert with
  | text content =>
      rw [insertNodes]
      split
      · exact slots
      · have blank : ∀ node ∈ [({ tag := Wordml.text } : Node)], (onlyLive = true → node.live = true) →
            node.toElement.Slots holds := by
          intro node member _
          rw [List.mem_singleton] at member
          subst member
          exact ⟨fun _ => empty, by simp⟩
        have created := Document.slots_push slots blank
        exact Document.slots_preserveSpace (Document.slots_setText created _ fun _ => has) _ preserve
  | markup content =>
      rw [insertNodes]
      split
      · rename_i fragment parsed
        exact Document.slots_graftAll slots (has fragment parsed) _
      · exact slots

theorem slots_placeAfter (slots : document.Slots holds onlyLive among) (anchor : NodeId)
    (ids : List NodeId) : (placeAfter document anchor ids).1.Slots holds onlyLive among := by
  induction ids generalizing document anchor with
  | nil => exact slots
  | cons id rest ih => exact ih (Document.slots_insertAfter slots anchor id) id

theorem slots_spliceAfter (slots : document.Slots holds onlyLive among) (anchor : NodeId)
    {inserts : List Insert} (has : ∀ insert ∈ inserts, insert.Has holds)
    (preserve : holds "preserve") (empty : holds "") :
    (spliceAfter document anchor inserts).Slots holds onlyLive among := by
  induction inserts generalizing document anchor with
  | nil => exact slots
  | cons insert rest ih =>
      have created := slots_insertNodes slots (has insert (by simp)) preserve empty
      exact ih (slots_placeAfter created anchor _) _ fun other member => has other (by simp [member])

end Slots

theorem ages_placeAfter (document : Document) (anchor : NodeId) (ids : List NodeId) :
    Ages document (placeAfter document anchor ids).1 := by
  induction ids generalizing document anchor with
  | nil => exact .refl document
  | cons id rest ih => exact (Document.ages_insertAfter document anchor id).trans (ih _ id)

theorem ages_spliceAfter (document : Document) (anchor : NodeId) (inserts : List Insert) :
    Ages document (spliceAfter document anchor inserts) := by
  induction inserts generalizing document anchor with
  | nil => exact .refl document
  | cons insert rest ih =>
      exact ((ages_insertNodes document insert).trans (ages_placeAfter _ anchor _)).trans (ih _ _)

theorem holds_placeAfter {outer : Context} {before after front : List Outline} {parent : NodeId}
    {last : Outline} {trees : List Outline}
    (holds : document.Holds (trees ++
      (Context.under outer before after parent).fill (front ++ [last]))) :
    ∃ front' last', front' ++ [last'] = front ++ last :: trees ∧
      (placeAfter document last.id (trees.map Outline.id)).2 = last'.id ∧
      (placeAfter document last.id (trees.map Outline.id)).1.Holds
        ((Context.under outer before after parent).fill (front' ++ [last'])) := by
  induction trees generalizing document front last with
  | nil => exact ⟨front, last, rfl, rfl, holds⟩
  | cons tree rest ih =>
      have arranged : document.Holds (tree ::
          (Context.under (outer.behind rest) (before ++ front) after parent).fill [last]) := by
        have same : (Context.under (outer.behind rest) (before ++ front) after parent).fill [last] =
            rest ++ (Context.under outer before after parent).fill (front ++ [last]) := by
          simp [Context.fill, Context.fill_behind]
        rw [same]
        exact holds
      have inserted := Document.Holds.insertAfter arranged
      have next : (document.insertAfter last.id tree.id).1.Holds (rest ++
          (Context.under outer before after parent).fill ((front ++ [last]) ++ [tree])) := by
        have same : (Context.under (outer.behind rest) (before ++ front) after parent).fill
            [last, tree] =
            rest ++ (Context.under outer before after parent).fill (front ++ [last] ++ [tree]) := by
          simp [Context.fill, Context.fill_behind]
        rw [← same]
        exact inserted
      obtain ⟨front', last', whole, top, placed⟩ := ih next
      exact ⟨front', last', by simp [whole], top, placed⟩

theorem extends_placeAfter (document : Document) (anchor : NodeId) (ids : List NodeId) :
    document.Extends (placeAfter document anchor ids).1 := by
  induction ids generalizing document anchor with
  | nil => exact .refl document
  | cons id rest ih => exact (Document.extends_insertAfter document anchor id).trans (ih _ id)

theorem extends_spliceAfter (document : Document) (anchor : NodeId) (inserts : List Insert) :
    document.Extends (spliceAfter document anchor inserts) := by
  induction inserts generalizing document anchor with
  | nil => exact .refl document
  | cons insert rest ih =>
      exact ((extends_insertNodes document insert).trans (extends_placeAfter _ anchor _)).trans (ih _ _)

/-- What is spliced in stands behind the anchor as further siblings, in order. -/
theorem exists_spliced {outer : Context} {before after front : List Outline} {parent : NodeId}
    {last : Outline} {inserts : List Insert}
    (holds : document.Holds ((Context.under outer before after parent).fill (front ++ [last]))) :
    ∃ trees : List Outline,
      (spliceAfter document last.id inserts).Holds
          ((Context.under outer before after parent).fill (front ++ last :: trees)) ∧
        Outline.toTrees (spliceAfter document last.id inserts) trees = inserts.flatMap Insert.trees ∧
        ∀ id : Nat, id ∈ idsAll trees → document.size ≤ id := by
  induction inserts generalizing document front last with
  | nil => exact ⟨[], holds, rfl, by simp [idsAll]⟩
  | cons insert rest ih =>
      obtain ⟨trees, added⟩ := adds_insertNodes holds insert
      obtain ⟨front', last', whole, top, placed⟩ := holds_placeAfter added.holds
      rw [added.ids] at top placed
      obtain ⟨more, done, content, new⟩ := ih placed
      have grown := extends_insertNodes document insert
      have set := extends_placeAfter (insertNodes document insert).1 last.id (insertNodes document insert).2
      have spliced : spliceAfter document last.id (insert :: rest) = spliceAfter (placeAfter
          (insertNodes document insert).1 last.id (insertNodes document insert).2).1 last'.id rest := by
        rw [← top]
        rfl
      rw [spliced]
      refine ⟨trees ++ more, ?_, ?_, fun id member => ?_⟩
      · have same : front ++ last :: (trees ++ more) = front' ++ last' :: more := by
          have extended := congrArg (· ++ more) whole
          simpa using extended.symm
        rw [same]
        exact done
      · have made : ∀ id : Nat, id ∈ idsAll trees → id < (insertNodes document insert).1.size :=
          fun id inside => added.holds.lt_size (by simp [inside])
        have kept := (set.trans (extends_spliceAfter _ last'.id rest)).toTrees made
        rw [Outline.toTrees_append, content, kept, added.content, List.flatMap_cons]
      · rw [Outline.idsAll_append, List.mem_append] at member
        rcases member with here | later
        · exact added.new id here
        · exact Nat.le_trans (grown.trans set).size_le (new id later)

theorem holds_spliceAfter {outer : Context} {before after front : List Outline} {parent : NodeId}
    {last : Outline} {inserts : List Insert}
    (holds : document.Holds ((Context.under outer before after parent).fill (front ++ [last]))) :
    ∃ trees : List Outline, (spliceAfter document last.id inserts).Holds
      ((Context.under outer before after parent).fill (front ++ last :: trees)) := by
  obtain ⟨trees, spliced, _⟩ := exists_spliced holds
  exact ⟨trees, spliced⟩

end Filling

end WordTemplate
