import WordTemplate.Proofs.Filling.Substitution
import WordTemplate.Proofs.Wordml.Sparing

/-! Filling the single placeholders of a whole document whose placeholders have no triggers. A walk visits
every node once, and what it leaves in the place of a node is not visited again, so that all placeholders
are substituted at the same time. -/

namespace WordTemplate.Filling

open Markup
open Outline (idsAll heightAll)

def givesWay (params : Params) (document : Document) (id : NodeId) : Bool :=
  document.tag id = Wordml.text && becomesMarkup params (document.text id)

/-- What stands in the place of a node: the node itself, filled, with what stands in the places of its
children, or new nodes around markup. -/
inductive Fills (params : Params) (first final : Document) : Outline → List Outline → Prop
  | kept {id : NodeId} {children : List Outline} {places : List (List Outline)}
      (noMarkup : givesWay params first id = false)
      (element : (final.node id).toElement = fillElement params (first.node id).toElement)
      (below : List.Forall₂ (Fills params first final) children places) :
      Fills params first final (.node id children) [.node id places.flatten]
  | replaced {outline : Outline} {trees : List Outline}
      (markup : givesWay params first outline.id = true)
      (content : Outline.toTrees final trees =
        (stretches "" (substituteAll params (first.text outline.id))).flatMap Insert.trees)
      (new : ∀ id : Nat, id ∈ idsAll trees → first.size ≤ id) : Fills params first final outline trees

variable {params : Params} {first : Document}

/-- Outlines that a walk has still to visit: they are as they were at first. -/
structure Unvisited (first : Document) (context : Context) (outlines : List Outline)
    (document : Document) : Prop where
  holds : document.Holds (context.fill outlines)
  size_le : first.size ≤ document.size
  same : ∀ id ∈ idsAll outlines, (document.node id).toElement = (first.node id).toElement
  untriggered : ∀ id ∈ idsAll outlines, first.tag id = Wordml.text → Untriggered (first.text id)

/-- What visits of outlines have put in their places. A later document that has the same there goes on to
show the outlines filled. -/
structure Visited (params : Params) (first : Document) (context : Context) (outlines : List Outline)
    (start result : Document × List Firing) (places : List (List Outline)) : Prop where
  holds : result.1.Holds (context.fill places.flatten)
  size_le : start.1.size ≤ result.1.size
  others : ∀ id : Nat, id < start.1.size → id ∉ idsAll outlines →
    (result.1.node id).toElement = (start.1.node id).toElement
  fills : ∀ final : Document,
    (∀ id ∈ idsAll places.flatten, (final.node id).toElement = (result.1.node id).toElement) →
    List.Forall₂ (Fills params first final) outlines places
  firings : result.2 = start.2

def VisitsNode (params : Params) (first : Document) (depth : Nat) : Prop :=
  ∀ {outer : Context} {before after : List Outline} {parent : NodeId} {outline : Outline}
    {state : Document × List Firing}, outline.height ≤ depth →
    Unvisited first (.under outer before after parent) [outline] state.1 →
    ∃ places, Visited params first (.under outer before after parent) [outline] state
      (Document.walkNode (fillNode params) depth state outline.id) places

section Siblings

variable {outer : Context} {before after : List Outline} {parent : NodeId} {outline : Outline}
  {rest : List Outline}

theorem mem_idsAll_cons_of_head {id : NodeId} (member : id ∈ idsAll [outline]) :
    id ∈ idsAll (outline :: rest) := by
  simp only [idsAll, List.append_nil] at member
  simp [idsAll, member]

theorem Unvisited.head {document : Document}
    (unvisited : Unvisited first (.under outer before after parent) (outline :: rest) document) :
    Unvisited first (.under outer before (rest ++ after) parent) [outline] document where
  holds := by simpa [Context.fill] using unvisited.holds
  size_le := unvisited.size_le
  same := fun id inside => unvisited.same id (mem_idsAll_cons_of_head inside)
  untriggered := fun id inside => unvisited.untriggered id (mem_idsAll_cons_of_head inside)

variable {start middle result : Document × List Firing} {here others : List (List Outline)}
  (one : Visited params first (.under outer before (rest ++ after) parent) [outline] start middle here)
include one

theorem Visited.unvisited_rest
    (unvisited : Unvisited first (.under outer before after parent) (outline :: rest) start.1) :
    Unvisited first (.under outer (before ++ here.flatten) after parent) rest middle.1 := by
  refine ⟨by simpa [Context.fill] using one.holds, Nat.le_trans unvisited.size_le one.size_le, ?_, ?_⟩
  · intro id later
    have nodup := (Document.holds_fill_iff.mp unvisited.holds).nodup
    simp only [idsAll, List.nodup_append] at nodup
    have member : id ∈ idsAll (outline :: rest) := by simp [idsAll, later]
    have old := (Document.holds_fill_iff.mp unvisited.holds).lt_size member
    refine (one.others id old fun inside => ?_).trans (unvisited.same id member)
    simp only [idsAll, List.append_nil] at inside
    exact nodup.2.1.2.2 id inside id later rfl
  · exact fun id later => unvisited.untriggered id (by simp [idsAll, later])

theorem Visited.append
    (all : Visited params first (.under outer (before ++ here.flatten) after parent) rest middle result
      others) :
    Visited params first (.under outer before after parent) (outline :: rest) start result
      (here ++ others) := by
  refine ⟨by simpa [Context.fill] using all.holds, Nat.le_trans one.size_le all.size_le, ?_, ?_,
    all.firings.trans one.firings⟩
  · intro id old outside
    simp only [idsAll, List.mem_append, not_or] at outside
    refine (all.others id (Nat.lt_of_lt_of_le old one.size_le) outside.2).trans ?_
    exact one.others id old (by simpa [idsAll] using outside.1)
  · intro final same
    have joined : middle.1.Holds ((Context.under outer before after parent).fill (here.flatten ++ rest)) := by
      simpa [Context.fill] using one.holds
    have nodup := (Document.holds_fill_iff.mp joined).nodup
    simp only [Outline.idsAll_append, List.nodup_append] at nodup
    have inFront : ∀ id ∈ idsAll here.flatten,
        (final.node id).toElement = (middle.1.node id).toElement := by
      intro id inside
      refine (same id (by simp [inside])).trans (all.others id ?_ fun later => ?_)
      · exact (Document.holds_fill_iff.mp one.holds).lt_size inside
      · exact nodup.2.1.2.2 id inside id later rfl
    have behind := all.fills final fun id inside => same id (by simp [inside])
    exact List.rel_append (one.fills final inFront) behind

omit one in
theorem visits_children {depth : Nat} (visits : VisitsNode params first depth) {outlines : List Outline}
    (state : Document × List Firing) (shallow : heightAll outlines ≤ depth)
    (unvisited : Unvisited first (.under outer before after parent) outlines state.1) :
    ∃ places, Visited params first (.under outer before after parent) outlines state
      ((outlines.map Outline.id).foldl (Document.walkNode (fillNode params) depth) state) places := by
  induction outlines generalizing before state with
  | nil =>
      exact ⟨[], unvisited.holds, Nat.le_refl _, fun _ _ _ => rfl, fun _ _ => .nil, rfl⟩
  | cons outline rest ih =>
      simp only [heightAll] at shallow
      obtain ⟨here, one⟩ := visits (by omega) unvisited.head
      obtain ⟨others, all⟩ := ih _ (by omega) (one.unvisited_rest unvisited)
      exact ⟨here ++ others, one.append all⟩

end Siblings

section Visit

theorem toElement_fillNode_of_not_mem {document : Document} (firings : List Firing) {id other : Nat}
    {children : List Outline} (old : other < document.size)
    (outside : other ∉ idsAll [Outline.node id children]) :
    ((fillNode params document firings id).1.node other).toElement = (document.node other).toElement :=
  toElement_fillNode_of_ne params firings old fun here => outside (by simp [idsAll, Outline.ids, here])

variable {outer : Context} {before after children : List Outline} {parent id : NodeId}
  {document : Document} (firings : List Firing)
  (unvisited : Unvisited first (.under outer before after parent) [.node id children] document)
include unvisited

theorem Unvisited.isLive : document.isLive id = true :=
  (Document.holds_fill_iff.mp unvisited.holds).top.live

theorem Unvisited.element : (document.node id).toElement = (first.node id).toElement :=
  unvisited.same id (by simp [idsAll, Outline.ids])

theorem Unvisited.tag : document.tag id = first.tag id :=
  congrArg Element.tag unvisited.element

theorem Unvisited.text : document.text id = first.text id :=
  congrArg Element.text unvisited.element

theorem Unvisited.firings_eq : (fillNode params document firings id).2.1 = firings := by
  refine firings_fillNode params firings fun isText => ?_
  rw [unvisited.text]
  exact unvisited.untriggered id (by simp [idsAll, Outline.ids]) (unvisited.tag ▸ isText)

/-- A node that gives way is gone when it has been visited. -/
theorem visited_of_givesWay (markup : givesWay params first id = true) :
    (fillNode params document firings id).1.isLive id = false ∧
      ∃ places, Visited params first (.under outer before after parent) [.node id children]
        (document, firings) ((fillNode params document firings id).1, firings) places := by
  have both := Bool.and_eq_true_iff.mp markup
  obtain ⟨dead, trees, holds, content, new⟩ := fillNode_of_markup params firings unvisited.holds
    (by simpa [unvisited.tag] using both.1) (by simpa [unvisited.text] using both.2)
  refine ⟨dead, [trees], by simpa using holds, size_le_fillNode document params firings id, ?_, ?_, rfl⟩
  · exact fun other => toElement_fillNode_of_not_mem firings
  · refine fun final same => .cons (.replaced markup ?_ fun other inside => ?_) .nil
    · rw [Outline.id_node, ← unvisited.text, ← Outline.id_node id children, ← content]
      exact Outline.toTrees_congr fun other inside => same other (by simpa using inside)
    · exact Nat.le_trans unvisited.size_le (new other inside)

theorem unvisited_children (noMarkup : givesWay params first id = false) :
    Document.SameLinks document (fillNode params document firings id).1 ∧
      ((fillNode params document firings id).1.node id).toElement =
        fillElement params (first.node id).toElement ∧
      Unvisited first (.under (.under outer before after parent) [] [] id) children
        (fillNode params document firings id).1 := by
  have plain (isText : document.tag id = Wordml.text) :
      becomesMarkup params (document.text id) = false := by
    rw [unvisited.tag] at isText
    simpa [givesWay, isText, unvisited.text] using noMarkup
  obtain ⟨links, element⟩ := fillNode_of_no_markup params firings unvisited.isLive plain
  have held := unvisited.holds.congr links
  have grown := size_le_fillNode document params firings id
  refine ⟨links, unvisited.element ▸ element, by simpa [Context.fill] using held,
    Nat.le_trans unvisited.size_le grown, fun other inside => ?_, fun other inside => ?_⟩
  · have nodup := (Document.holds_fill_iff.mp held).nodup
    simp only [idsAll, Outline.ids, List.append_nil, List.nodup_append, List.nodup_cons] at nodup
    have member : other ∈ idsAll [Outline.node id children] := by simp [idsAll, Outline.ids, inside]
    have old := (Document.holds_fill_iff.mp unvisited.holds).lt_size member
    refine (toElement_fillNode_of_ne params firings old fun here => ?_).trans (unvisited.same other member)
    exact nodup.2.1.1 (here ▸ inside)
  · exact unvisited.untriggered other (by simp [idsAll, Outline.ids, inside])

theorem visited_of_children (noMarkup : givesWay params first id = false)
    {result : Document × List Firing} {places : List (List Outline)}
    (done : Visited params first (.under (.under outer before after parent) [] [] id) children
      ((fillNode params document firings id).1, firings) result places) :
    Visited params first (.under outer before after parent) [.node id children] (document, firings)
      result [[.node id places.flatten]] := by
  obtain ⟨links, element, inner⟩ := unvisited_children firings unvisited noMarkup
  have grown := size_le_fillNode document params firings id
  refine ⟨by simpa [Context.fill] using done.holds, Nat.le_trans grown done.size_le, ?_, ?_, done.firings⟩
  · intro other old outside
    refine (done.others other (Nat.lt_of_lt_of_le old grown) fun below => ?_).trans ?_
    · exact outside (by simp [idsAll, Outline.ids, below])
    · exact toElement_fillNode_of_not_mem firings old outside
  · intro final later
    have nodup := (Document.holds_fill_iff.mp inner.holds).nodup
    have fresh : id ∉ idsAll children := fun below =>
      (List.nodup_append.mp nodup).2.2 id (Context.parent_mem_ids rfl) id below rfl
    have live := (links.isLive id).trans unvisited.isLive
    refine .cons (.kept noMarkup ?_ (done.fills final fun other inside => later other ?_)) .nil
    · rw [later id (by simp [idsAll, Outline.ids]), done.others id (Document.lt_size_of_isLive live) fresh]
      exact element
    · simp [idsAll, Outline.ids, inside]

end Visit

theorem visits_node (params : Params) (first : Document) (depth : Nat) : VisitsNode params first depth := by
  induction depth with
  | zero =>
      intro outer before after parent outline state shallow _
      cases outline
      simp [Outline.height] at shallow
  | succ depth ih =>
      intro outer before after parent outline state shallow unvisited
      obtain ⟨document, firings⟩ := state
      obtain ⟨id, children⟩ := outline
      have live : document.isLive id = true := unvisited.isLive
      have unfired : (fillNode params document firings id).2.1 = firings := unvisited.firings_eq firings
      have descends := step_fillNode params document firings id
      simp only [Document.walkNode, Outline.id_node, live, if_true, descends, unfired]
      -- A node that gives way is dead after its visit, so that the walk does not go into what replaces it.
      cases markup : givesWay params first id with
      | true =>
          obtain ⟨dead, visited⟩ := visited_of_givesWay firings unvisited markup
          simpa [dead] using visited
      | false =>
          obtain ⟨links, -, inner⟩ := unvisited_children firings unvisited markup
          have stillLive := (links.isLive id).trans live
          have childIds := (links.children id).trans (Document.holds_fill_iff.mp unvisited.holds).top.children
          simp only [Outline.height] at shallow
          obtain ⟨places, done⟩ := visits_children ih (_, firings) (by omega) inner
          have whole := visited_of_children firings unvisited markup done
          exact ⟨[[.node id places.flatten]], by simpa [stillLive, childIds] using whole⟩

/-- Filling the single placeholders of a document below its root substitutes them all at once, if none of
them has a trigger. -/
theorem fills_fillSingles (params : Params) {document : Document} {children : List Outline}
    (holds : document.Holds [.node document.root children])
    (untriggered : InTexts document fun placeholder => placeholder.trigger? = none) :
    ∃ places, (fillSingles document params).Holds [.node document.root places.flatten] ∧
      List.Forall₂ (Fills params document (fillSingles document params)) children places := by
  have inside : document.Holds ((Context.under (.top [] []) [] [] document.root).fill children) := by
    simpa [Context.fill] using holds
  have links := sameLinks_fillAttributes document params document.root
  have nodup := (Document.holds_fill_iff.mp inside).nodup
  have whole : document.Holds ((Context.top [] []).fill [.node document.root children]) := holds
  have childIds : (fillAttributes document params document.root).children document.root =
      children.map Outline.id :=
    (links.children _).trans (Document.holds_fill_iff.mp whole).top.children
  have start : Unvisited document (.under (.top [] []) [] [] document.root) children
      (fillAttributes document params document.root) := by
    refine ⟨inside.congr links, Nat.le_of_eq (size_fillAttributes ..).symm, fun id below => ?_,
      fun id below => ?_⟩
    · have notRoot : id ≠ document.root := by
        rintro rfl
        exact (List.nodup_append.mp nodup).2.2 _ (Context.parent_mem_ids rfl) _ below rfl
      exact congrArg Node.toElement (node_fillAttributes_of_ne document params notRoot)
    · exact untriggered id ((Document.holds_fill_iff.mp inside).isLive_of_mem_idsAll below)
  have deep : heightAll children ≤ (fillAttributes document params document.root).size := by
    have bound := (Document.holds_fill_iff.mp (whole.congr links)).height_le_size
    simp only [Outline.height] at bound
    omega
  obtain ⟨places, done⟩ := visits_children (visits_node params document _)
    (fillAttributes document params document.root, []) deep start
  rw [← childIds] at done
  have filled : fillSingles document params = ((fillAttributes document params document.root).walk
      document.root (fillNode params) []).1 := by
    rw [fillSingles]
    exact congrArg (Firing.evaluateAll _) done.firings
  rw [filled]
  exact ⟨places, by simpa [Context.fill, Document.walk] using done.holds, done.fills _ fun _ _ => rfl⟩

/-- What stands for a node when the placeholders of a document are filled: the node itself, with the
contents of its text put together if it is one, or new nodes for the stretches around markup. -/
inductive StandsFor (params : Params) (document final : Document) (id : NodeId) : List NodeId → Prop
  | element (other : document.tag id ≠ Wordml.text) (live : final.isLive id = true) :
      StandsFor params document final id [id]
  | text (isText : document.tag id = Wordml.text)
      (noMarkup : becomesMarkup params (document.text id) = false) (live : final.isLive id = true)
      (still : final.tag id = Wordml.text)
      (text : final.text id = String.join ((substituteAll params (document.text id)).map Insert.content))
      (blanks : isFilled params (document.text id) = true →
        Wordml.hasOuterBlank (final.text id).toList = true →
        final.attribute? id Wordml.spaceKey = some "preserve") : StandsFor params document final id [id]
  | markup {ids : List NodeId} (isText : document.tag id = Wordml.text)
      (markup : becomesMarkup params (document.text id) = true) (new : ∀ new ∈ ids, document.size ≤ new)
      (trees : ids.map final.liveTree =
        (stretches "" (substituteAll params (document.text id))).flatMap Insert.trees) :
      StandsFor params document final id ids

section Places

variable {document final : Document}

theorem tag_fillElement (element : Element) : (fillElement params element).tag = element.tag := by
  unfold fillElement
  simp only
  split
  · split <;> rfl
  · rfl

theorem text_fillElement {element : Element} (isText : element.tag = Wordml.text) :
    (fillElement params element).text =
      String.join ((substituteAll params element.text).map Insert.content) := by
  unfold fillElement
  simp only
  split
  · split <;> rfl
  · rename_i other
    have unfilled : isFilled params element.text = false := by simpa [isText] using other
    exact (join_substituteAll_of_not_isFilled unfilled).symm

theorem attribute?_fillElement {element : Element} (isText : element.tag = Wordml.text)
    (filled : isFilled params element.text = true)
    (blank : Wordml.hasOuterBlank (fillElement params element).text.toList = true) :
    (fillElement params element).attribute? Wordml.spaceKey = some "preserve" := by
  rw [text_fillElement isText] at blank
  simp only [fillElement, isText, filled, true_and, if_true, blank]
  exact Element.attribute?_setAttribute _ _ _

theorem map_liveTree {context : Context} {outlines : List Outline}
    (holds : document.Holds (context.fill outlines)) :
    (outlines.map Outline.id).map document.liveTree = Outline.toTrees document outlines := by
  rw [Outline.toTrees_eq, List.map_map]
  refine List.map_congr_left fun outline member => ?_
  obtain ⟨front, back, rfl⟩ := List.append_of_mem member
  have inside : document.Holds ((context.beside front back).fill [outline]) := by
    simpa [Context.fill_beside] using holds
  exact inside.liveTree

theorem standsFor_of_fills {outline : Outline} {place : List Outline}
    (fills : Fills params document final outline place) {context : Context}
    (holds : final.Holds (context.fill place)) :
    StandsFor params document final outline.id (place.map Outline.id) := by
  cases fills with
  | @kept id children places noMarkup element below =>
      have live : final.isLive id = true := (Document.holds_fill_iff.mp holds).top.live
      by_cases isText : document.tag id = Wordml.text
      · have tag : final.tag id = Wordml.text :=
          (congrArg Element.tag element).trans ((tag_fillElement _).trans isText)
        have text : final.text id = (fillElement params (document.node id).toElement).text :=
          congrArg Element.text element
        refine .text isText (by simpa [givesWay, isText] using noMarkup) live tag ?_ fun filled blank => ?_
        · exact text.trans (text_fillElement isText)
        · simp only [Outline.id_node, text] at blank
          rw [Outline.id_node, Document.attribute?, element]
          exact attribute?_fillElement isText filled blank
      · exact .element isText live
  | replaced markup content new =>
      have both := Bool.and_eq_true_iff.mp markup
      refine .markup (by simpa using both.1) both.2 (fun id listed => ?_) ((map_liveTree holds).trans content)
      obtain ⟨tree, member, rfl⟩ := List.mem_map.mp listed
      exact new tree.id (Outline.mem_idsAll.mpr ⟨tree, member, tree.id_mem_ids⟩)

theorem standsFor_all {outlines : List Outline} {places : List (List Outline)}
    (each : List.Forall₂ (Fills params document final) outlines places) {outer : Context}
    {before after : List Outline} {parent : NodeId}
    (holds : final.Holds ((Context.under outer before after parent).fill places.flatten)) :
    List.Forall₂ (StandsFor params document final) (outlines.map Outline.id)
      (places.map (List.map Outline.id)) := by
  induction each generalizing before with
  | nil => exact .nil
  | @cons outline place rest others fills _ ih =>
      have here : final.Holds ((Context.under outer before (others.flatten ++ after) parent).fill place) := by
        simpa [Context.fill] using holds
      have behind : final.Holds ((Context.under outer (before ++ place) after parent).fill others.flatten) := by
        simpa [Context.fill] using holds
      exact .cons (standsFor_of_fills fills here) (ih behind)

def ChildrenStand (params : Params) (document final : Document) (id : NodeId) : Prop :=
  ∃ places : List (List NodeId), final.children id = places.flatten ∧
    List.Forall₂ (StandsFor params document final) (document.children id) places

theorem childrenStand_of_fills {children : List Outline} {places : List (List Outline)} {id : NodeId}
    (each : List.Forall₂ (Fills params document final) children places) {context context' : Context}
    (holds : document.Holds (context.fill [.node id children]))
    (held : final.Holds (context'.fill [.node id places.flatten])) :
    ChildrenStand params document final id := by
  have before : document.children id = children.map Outline.id :=
    (Document.holds_fill_iff.mp holds).top.children
  have after : final.children id = places.flatten.map Outline.id :=
    (Document.holds_fill_iff.mp held).top.children
  have inside : final.Holds ((Context.under context' [] [] id).fill places.flatten) := by
    simpa [Context.fill] using held
  refine ⟨places.map (List.map Outline.id), by rw [after, List.map_flatten], ?_⟩
  rw [before]
  exact standsFor_all each inside

theorem exists_of_forall₂ {α β : Type} {related : α → β → Prop} {items : List α} {others : List β}
    (each : List.Forall₂ related items others) {item : α} (member : item ∈ items) :
    ∃ front other back, others = front ++ other :: back ∧ related item other := by
  induction each with
  | nil => simp at member
  | @cons first other rest others here _ ih =>
      rcases List.mem_cons.mp member with rfl | later
      · exact ⟨[], other, others, rfl, here⟩
      · obtain ⟨front, found, back, rfl, there⟩ := ih later
        exact ⟨other :: front, found, back, rfl, there⟩

/-- The children of every node that no text above it takes away are what stands for each of them. -/
theorem childrenStand_of_mem {outline : Outline} {places : List (List Outline)}
    (each : List.Forall₂ (Fills params document final) outline.children places) {context context' : Context}
    (holds : document.Holds (context.fill [outline]))
    (held : final.Holds (context'.fill [.node outline.id places.flatten])) {parent : NodeId}
    (member : parent ∈ outline.ids)
    (stays : ∀ outer ∈ idsAll outline.children, outer = parent ∨ parent ∈ document.descendants outer →
      givesWay params document outer = false) : ChildrenStand params document final parent := by
  induction outline using Outline.induction generalizing places context context' with
  | node id children ih =>
      simp only [Outline.ids, List.mem_cons] at member
      rcases member with rfl | below
      · exact childrenStand_of_fills each holds held
      · -- The child on the way down stays, and the contexts before and after are extended by its siblings.
        obtain ⟨child, listed, inside⟩ := Outline.mem_idsAll.mp below
        obtain ⟨front, place, back, rfl, fills⟩ := exists_of_forall₂ each listed
        obtain ⟨left, right, rfl⟩ := List.append_of_mem listed
        have atChild : document.Holds ((Context.under context left right id).fill [child]) := by
          simpa [Context.fill] using holds
        have atPlace : final.Holds ((Context.under context' front.flatten back.flatten id).fill place) := by
          simpa [Context.fill] using held
        have above : child.id = parent ∨ parent ∈ document.descendants child.id := by
          rw [atChild.descendants]
          rw [← Outline.node_eta child, Outline.ids, List.mem_cons] at inside
          exact inside.imp_left Eq.symm
        have noMarkup := stays child.id (Outline.mem_idsAll.mpr ⟨child, listed, child.id_mem_ids⟩) above
        cases fills with
        | kept _ _ inner =>
            refine ih _ listed inner atChild atPlace inside fun outer lower => ?_
            exact stays outer (Outline.mem_idsAll.mpr ⟨_, listed, List.mem_cons_of_mem _ lower⟩)
        | replaced markup _ _ => exact absurd markup (by simp [noMarkup])

end Places

/-- Filling the single placeholders of a document that has been read, none of which has a trigger,
substitutes them all at once. Where no text above a node but the root takes in markup, the node and its
siblings give way to what stands for each of them, in order. -/
theorem standsFor_fillSingles {source : String} {document : Document}
    (parsed : Document.parse source = .ok document) {params : Params}
    (untriggered : InTexts document fun placeholder => placeholder.trigger? = none) {id parent : NodeId}
    (live : document.isLive id = true) (stands : document.parent? id = some parent)
    (apart : ∀ outer, outer ≠ document.root → document.tag outer = Wordml.text →
      id ∈ document.descendants outer → becomesMarkup params (document.text outer) = false) :
    ∃ places : List (List NodeId), id ∈ document.children parent ∧
      (fillSingles document params).children parent = places.flatten ∧
      List.Forall₂ (StandsFor params document (fillSingles document params))
        (document.children parent) places := by
  have topped := Wordml.topped_of_parse parsed
  have lists : document.Lists parent id := topped.sound.wellFormed.lists live stands
  obtain ⟨outline, top, holds⟩ : ∃ outline : Outline, outline.id = document.root ∧
      document.Holds [outline] := by
    obtain ⟨declared, tree, rfl⟩ := Document.exists_ofTree_of_parse parsed
    exact ⟨tree.outline 0, Tree.id_outline 0 tree, Document.holds_ofTree declared tree⟩
  obtain ⟨root, children⟩ := outline
  obtain rfl : root = document.root := top
  obtain ⟨places, filled, each⟩ := fills_fillSingles params holds untriggered
  have whole : document.Holds ((Context.top [] []).fill [.node document.root children]) := holds
  have kept : (fillSingles document params).Holds
      ((Context.top [] []).fill [.node document.root places.flatten]) := filled
  have member : parent ∈ (Outline.node document.root children).ids := by
    simpa [idsAll] using holds.mem_of_isLive parent (holds.isLive_parent live stands)
  obtain ⟨stand, listed, stood⟩ := childrenStand_of_mem each whole kept member fun outer inside above => by
    have below : id ∈ document.descendants outer :=
      topped.sound.mem_descendants (above.imp_left Eq.symm) lists
    have notRoot : outer ≠ document.root := by
      rintro rfl
      have nodup := holds.nodup
      simp only [idsAll, Outline.ids, List.append_nil, List.nodup_cons] at nodup
      exact nodup.1 inside
    rw [givesWay, Bool.and_eq_false_iff]
    by_cases isText : document.tag outer = Wordml.text
    · exact .inr (apart outer notRoot isText below)
    · exact .inl (by simpa using isText)
  exact ⟨stand, lists, listed, stood⟩

def signatureText : String :=
  "<w:p><w:r><w:t>\x7b\x7bA\x7d\x7d \x7b\x7bB\x7d\x7d</w:t></w:r></w:p>"

def signatureDocument : Document :=
  Document.ofTree false <|
    .node { tag := "w:p" } [.node { tag := "w:r" }
      [.node { tag := "w:t", text := "\x7b\x7bA\x7d\x7d \x7b\x7bB\x7d\x7d" } []]]

/-- The image of a stamp, which has been found, and a name. -/
def signatureParams : Params :=
  ((Params.ofMembers [("A", .object [("$image", .object [("path", .string "stamp.png")])]),
    ("B", .string "Ada")]).traverse (fun _ param =>
      ((), param.kind, if param.image?.isSome then "<w:pict/>" else param.value)) ()).2

/-- The text gives way to the image and a text with the name, which keeps the blank at its start. -/
theorem standsFor_fillSingles_signature :
    ∃ places : List (List NodeId), 2 ∈ signatureDocument.children 1 ∧
      (fillSingles signatureDocument signatureParams).children 1 = places.flatten ∧
      List.Forall₂ (StandsFor signatureParams signatureDocument
        (fillSingles signatureDocument signatureParams)) (signatureDocument.children 1) places := by
  have parsed : Document.parse signatureText = .ok signatureDocument := by cbv
  have untriggered : InTexts signatureDocument fun placeholder => placeholder.trigger? = none := by
    have each : ∀ id < signatureDocument.size,
        ∀ placeholder ∈ Placeholder.scan (signatureDocument.text id), placeholder.trigger? = none := by
      decide +kernel
    exact fun id live _ => each id (Document.lt_size_of_isLive live)
  have apart : ∀ outer, outer ≠ signatureDocument.root → signatureDocument.tag outer = Wordml.text →
      2 ∈ signatureDocument.descendants outer →
      becomesMarkup signatureParams (signatureDocument.text outer) = false := by
    intro outer _ isText below
    have bare : ∀ other < signatureDocument.size, signatureDocument.tag other = Wordml.text →
        signatureDocument.descendants other = [] := by decide +kernel
    rw [bare outer (Document.lt_size_of_isText isText) isText] at below
    simp at below
  exact standsFor_fillSingles parsed untriggered (by decide) (by decide) apart

/-- A text inside another one that becomes an image. -/
def nestedTextsText : String :=
  "<w:p><w:r><w:t>\x7b\x7bA\x7d\x7d<w:t>\x7b\x7bB\x7d\x7d</w:t></w:t></w:r></w:p>"

def nestedTexts : Document :=
  Document.ofTree false <|
    .node { tag := "w:p" } [.node { tag := "w:r" }
      [.node { tag := "w:t", text := "\x7b\x7bA\x7d\x7d" }
        [.node { tag := "w:t", text := "\x7b\x7bB\x7d\x7d" } []]]]

/-- The inner text holds no image, but it goes with the text around it, so that nothing stands for it. -/
theorem not_standsFor_nestedTexts :
    Document.parse nestedTextsText = .ok nestedTexts ∧
      nestedTexts.tag 3 = Wordml.text ∧ nestedTexts.children 3 = [] ∧ nestedTexts.parent? 3 = some 2 ∧
      (∀ id < nestedTexts.size, Untriggered (nestedTexts.text id)) ∧
      (∀ param ∈ signatureParams.all, param.isResolvedImage = true →
        (Document.parseFragment param.value).toBool = true) ∧
      substituteAll signatureParams (nestedTexts.text 3) = [.text "Ada"] ∧
      ¬ ∃ places : List (List NodeId),
        (fillSingles nestedTexts signatureParams).children 2 = places.flatten ∧
        List.Forall₂ (StandsFor signatureParams nestedTexts (fillSingles nestedTexts signatureParams))
          (nestedTexts.children 2) places := by
  have parsed : Document.parse nestedTextsText = .ok nestedTexts := by cbv
  have untriggered : ∀ id < nestedTexts.size, Untriggered (nestedTexts.text id) := by decide +kernel
  have readable : ∀ param ∈ signatureParams.all, param.isResolvedImage = true →
      (Document.parseFragment param.value).toBool = true := by decide +kernel
  have name : substituteAll signatureParams (nestedTexts.text 3) = [.text "Ada"] := by decide +kernel
  refine ⟨parsed, by decide, by decide, by decide, untriggered, readable, name, ?_⟩
  rintro ⟨places, listed, each⟩
  have gone : (fillSingles nestedTexts signatureParams).children 2 = [] := by decide +kernel
  have plain : becomesMarkup signatureParams (nestedTexts.text 3) = false := by decide +kernel
  have inner : nestedTexts.children 2 = [3] := by decide
  rw [inner, List.forall₂_cons_left_iff] at each
  obtain ⟨place, rest, stands, -, rfl⟩ := each
  rw [gone, List.flatten_cons, eq_comm, List.append_eq_nil_iff] at listed
  cases stands with
  | element => simp at listed
  | text => simp at listed
  | markup _ becomes => exact absurd becomes (by simp [plain])

end WordTemplate.Filling
