import Mathlib.Data.List.InsertIdx
import WordTemplate.Proofs.Markup.Slots

/-! Slots that are out of reach. No other slot is linked to them, and it stays so when the others are
removed, moved and copied; what is written of a document comes from the other slots alone. -/

namespace WordTemplate.Markup

namespace Tree

structure LinksFrom (first : Nat) (parent : Option NodeId) (node : Node) : Prop where
  children : ∀ child : Nat, child ∈ node.children → first ≤ child
  parent : ∀ above : Nat, node.parent = some above → parent = some above ∨ first ≤ above

theorem LinksFrom.weaken {first later : Nat} {node : Node} (links : LinksFrom later (some first) node)
    (parent : Option NodeId) (le : first ≤ later) : LinksFrom first parent node := by
  refine ⟨fun child member => Nat.le_trans le (links.children child member), ?_⟩
  intro above stands
  rcases links.parent above stands with same | beyond
  · rw [Option.some.injEq] at same
    exact .inr (Nat.le_of_eq same)
  · exact .inr (Nat.le_trans le beyond)

mutual

theorem linksFrom_layOut (isNew : Bool) (parent : Option NodeId) (first : NodeId) (tree : Tree) :
    ∀ node ∈ tree.layOut isNew parent first, LinksFrom first parent node := by
  cases tree with
  | node element children =>
      intro node member
      rw [layOut, List.mem_cons] at member
      rcases member with here | below
      · subst here
        exact ⟨fun child listed => Nat.le_of_succ_le (le_of_mem_roots listed),
          fun above stands => .inl stands⟩
      · exact (linksFrom_layOutAll isNew (some first) (first + 1) children node below).weaken parent
          (Nat.le_succ first)

theorem linksFrom_layOutAll (isNew : Bool) (parent : Option NodeId) (first : NodeId)
    (trees : List Tree) :
    ∀ node ∈ layOutAll isNew parent first trees, LinksFrom first parent node := by
  cases trees with
  | nil => simp [layOutAll]
  | cons tree rest =>
      intro node member
      rw [layOutAll, List.mem_append] at member
      rcases member with here | later
      · exact linksFrom_layOut isNew parent first tree node here
      · have links := linksFrom_layOutAll isNew parent (first + tree.size) rest node later
        refine ⟨fun child listed => Nat.le_trans (Nat.le_add_right ..) (links.children child listed), ?_⟩
        intro above stands
        exact (links.parent above stands).imp_right fun beyond =>
          Nat.le_trans (Nat.le_add_right ..) beyond

end

end Tree

namespace Document

/-- The gone slots are dead, and no other slot is linked to them; the texts and values of the others
have a property. -/
structure Severed (gone : Nat → Prop) (holds : String → Prop) (document : Document) : Prop where
  slots : document.Slots holds false fun id => ¬ gone id
  dead : ∀ id, gone id → document.isLive id = false
  bound : ∀ id, gone id → id < document.size
  children : ∀ id, ¬ gone id → ∀ child ∈ document.children id, ¬ gone child
  parent : ∀ id, ¬ gone id → ∀ above, document.parent? id = some above → ¬ gone above

namespace Severed

variable {gone : Nat → Prop} {holds : String → Prop} {document : Document}

theorem modify (severed : document.Severed gone holds) (id : NodeId) {change : Node → Node}
    (dead : gone id → (change (document.node id)).live = false)
    (slots : ¬ gone id → (change (document.node id)).toElement.Slots holds)
    (children : ¬ gone id → ∀ child ∈ (change (document.node id)).children, ¬ gone child)
    (parent : ¬ gone id → ∀ above, (change (document.node id)).parent = some above → ¬ gone above) :
    (document.modify id change).Severed gone holds where
  slots := by
    intro other kept inside
    rw [node_modify]
    split
    · rename_i here
      rw [here.1] at kept ⊢
      exact slots kept
    · exact severed.slots other kept (by simp)
  dead := by
    intro other lost
    rw [isLive, node_modify]
    split
    · rename_i here
      rw [here.1] at lost ⊢
      exact dead lost
    · exact severed.dead other lost
  bound := fun other lost => by
    rw [size_modify]
    exact severed.bound other lost
  children := by
    intro other kept child listed
    rw [Document.children, node_modify] at listed
    split at listed
    · rename_i here
      rw [here.1] at kept listed
      exact children kept child listed
    · exact severed.children other kept child listed
  parent := by
    intro other kept above stands
    rw [parent?, node_modify] at stands
    split at stands
    · rename_i here
      rw [here.1] at kept stands
      exact parent kept above stands
    · exact severed.parent other kept above stands

theorem foldl {α : Type} {step : Document → α → Document}
    (kept : ∀ document item, document.Severed gone holds → (step document item).Severed gone holds)
    (items : List α) (severed : document.Severed gone holds) :
    (items.foldl step document).Severed gone holds := by
  induction items generalizing document with
  | nil => exact severed
  | cons item rest ih => exact ih (kept document item severed)

theorem element (severed : document.Severed gone holds) {id : NodeId} (kept : ¬ gone id) :
    (document.node id).toElement.Slots holds :=
  severed.slots id kept (by simp)

theorem changeElement (severed : document.Severed gone holds) (id : NodeId) {change : Node → Node}
    (live : ∀ node : Node, (change node).live = node.live)
    (children : ∀ node : Node, (change node).children = node.children)
    (parent : ∀ node : Node, (change node).parent = node.parent)
    (slots : ¬ gone id → (change (document.node id)).toElement.Slots holds) :
    (document.modify id change).Severed gone holds := by
  refine severed.modify id (fun lost => (live _).trans (severed.dead id lost)) slots ?_ ?_
  · intro kept child listed
    rw [children] at listed
    exact severed.children id kept child listed
  · intro kept above stands
    rw [parent] at stands
    exact severed.parent id kept above stands

theorem setText (severed : document.Severed gone holds) (id : NodeId) {text : String}
    (here : holds text) : (document.setText id text).Severed gone holds :=
  severed.changeElement id (fun _ => rfl) (fun _ => rfl) (fun _ => rfl) fun kept =>
    ⟨fun _ => here, (severed.element kept).value⟩

theorem clearTextDeep (severed : document.Severed gone holds) (id : NodeId) (empty : holds "") :
    (document.clearTextDeep id).Severed gone holds :=
  foldl (fun _ inner severed => severed.setText inner empty) _ severed

theorem removeAttribute (severed : document.Severed gone holds) (id : NodeId) (key : String) :
    (document.removeAttribute id key).Severed gone holds :=
  severed.changeElement id (fun _ => rfl) (fun _ => rfl) (fun _ => rfl) fun kept =>
    ⟨(severed.element kept).text, fun entry member =>
      (severed.element kept).value entry (List.mem_of_mem_eraseP member)⟩

theorem preserveSpace (severed : document.Severed gone holds) (id : NodeId)
    (preserve : holds "preserve") : (Wordml.preserveSpace document id).Severed gone holds := by
  rw [Wordml.preserveSpace]
  split
  · refine severed.changeElement id (fun _ => rfl) (fun _ => rfl) (fun _ => rfl) fun kept =>
      ⟨(severed.element kept).text, fun entry member => ?_⟩
    rcases mem_setAttribute member with old | new
    · exact (severed.element kept).value entry old
    · exact new ▸ preserve
  · exact severed

theorem detach (severed : document.Severed gone holds) (id : NodeId) :
    (document.detach id).Severed gone holds := by
  rw [Document.detach]
  split
  · exact severed
  · rename_i parent _
    have first : (document.modify id fun node => { node with parent := none }).Severed gone holds :=
      severed.modify id (severed.dead id) severed.element (severed.children id) (by simp)
    refine first.modify parent (first.dead parent) first.element ?_ (first.parent parent)
    intro kept child listed
    exact first.children parent kept child (List.mem_filter.mp listed).1

theorem delete (severed : document.Severed gone holds) (id : NodeId) :
    (document.delete id).Severed gone holds := by
  rw [Document.delete]
  split
  · refine detach (foldl (fun document inner severed => ?_) _ severed) id
    exact severed.modify inner (fun _ => rfl) severed.element (by simp) (severed.parent inner)
  · exact severed

theorem deleteText (severed : document.Severed gone holds) (id : NodeId) :
    (Wordml.deleteText document id).Severed gone holds := by
  simp only [Wordml.deleteText]
  split
  · exact severed.delete id
  · split
    · exact (severed.delete id).delete _
    · exact severed.delete id

theorem insertAfter (severed : document.Severed gone holds) {anchor id : NodeId}
    (anchorKept : ¬ gone anchor) (kept : ¬ gone id) :
    (document.insertAfter anchor id).1.Severed gone holds := by
  have detached := severed.detach id
  simp only [Document.insertAfter, insertBeside]
  split
  · exact detached
  · rename_i parent stands
    have parentKept := detached.parent anchor anchorKept parent stands
    split
    · exact detached
    · rename_i position _
      have widened : ((document.detach id).modify parent fun node =>
          { node with children := node.children.insertIdx (position + 1) id }).Severed gone holds := by
        refine detached.modify parent (detached.dead parent) detached.element ?_
          (detached.parent parent)
        intro _ child listed
        rcases List.eq_or_mem_of_mem_insertIdx listed with here | there
        · exact here ▸ kept
        · exact detached.children parent parentKept child there
      refine widened.modify id (widened.dead id) widened.element (widened.children id) ?_
      intro _ above stands
      rw [Option.some.injEq] at stands
      exact stands ▸ parentKept

theorem push (severed : document.Severed gone holds) {nodes : List Node}
    (slots : ∀ node ∈ nodes, node.toElement.Slots holds)
    (links : ∀ node ∈ nodes, Tree.LinksFrom document.size none node) :
    (document.push nodes).1.Severed gone holds := by
  have fresh : ∀ id, document.size ≤ id → ¬ gone id :=
    fun id beyond lost => Nat.not_lt.mpr beyond (severed.bound id lost)
  refine ⟨slots_push severed.slots fun node member _ => slots node member, ?_, ?_, ?_, ?_⟩
  · intro id lost
    rw [isLive, node_push_of_lt nodes (severed.bound id lost)]
    exact severed.dead id lost
  · intro id lost
    rw [size_push]
    exact Nat.lt_of_lt_of_le (severed.bound id lost) (Nat.le_add_right ..)
  · intro id kept child listed
    rw [Document.children] at listed
    rcases node_push_cases document nodes id with ⟨_, same⟩ | ⟨_, pushed | absent⟩
    · rw [same] at listed
      exact severed.children id kept child listed
    · exact fresh child ((links _ pushed).children child listed)
    · rw [absent] at listed
      simp [Node.absent] at listed
  · intro id kept above stands
    rw [parent?] at stands
    rcases node_push_cases document nodes id with ⟨_, same⟩ | ⟨_, pushed | absent⟩
    · rw [same] at stands
      exact severed.parent id kept above stands
    · exact fresh above (((links _ pushed).parent above stands).resolve_left (by simp))
    · rw [absent] at stands
      simp [Node.absent] at stands

theorem graft (severed : document.Severed gone holds) {source : Document} {id : NodeId}
    (elements : ∀ element ∈ (source.liveTree id).elements, element.Slots holds) :
    (document.graft source id).1.Severed gone holds := by
  have pushed : (document.push
      ((source.liveTree id).layOut true none document.size)).1.Severed gone holds := by
    refine severed.push ?_ (Tree.linksFrom_layOut true none document.size _)
    intro node member
    apply elements
    rw [← map_toElement_layOut true none document.size]
    exact List.mem_map_of_mem member
  exact pushed.modify document.size (fun lost => absurd (severed.bound _ lost) (Nat.lt_irrefl _))
    pushed.element (pushed.children _) (pushed.parent _)

theorem cloneSubtree (severed : document.Severed gone holds) {id : NodeId} (kept : ¬ gone id) :
    (document.cloneSubtree id).1.Severed gone holds := by
  refine severed.graft fun element member => ?_
  obtain ⟨other, rfl | live, rfl⟩ := elements_liveTree document id element member
  · exact severed.element kept
  · refine severed.element fun lost => ?_
    rw [severed.dead other lost] at live
    exact absurd live (by decide)

theorem graftAll (severed : document.Severed gone holds) {source : Document}
    (slots : source.AllSlots holds) (ids : List NodeId) :
    (document.graftAll source ids).1.Severed gone holds := by
  induction ids generalizing document with
  | nil => exact severed
  | cons id rest ih =>
      refine ih (severed.graft fun element member => ?_)
      obtain ⟨other, -, rfl⟩ := elements_liveTree source id element member
      exact slots other trivial (by simp)

theorem setAttributes (severed : document.Severed gone holds) (id : NodeId)
    {attributes : List Attribute} (here : ¬ gone id → ∀ entry ∈ attributes, holds entry.value) :
    (document.setAttributes id attributes).Severed gone holds :=
  severed.changeElement id (fun _ => rfl) (fun _ => rfl) (fun _ => rfl) fun kept =>
    ⟨(severed.element kept).text, here kept⟩

theorem kept_of_isLive (severed : document.Severed gone holds) {id : NodeId}
    (live : document.isLive id = true) : ¬ gone id := by
  intro lost
  rw [severed.dead id lost] at live
  exact absurd live (by decide)

theorem kept_of_closest? (severed : document.Severed gone holds) {id found : NodeId}
    (kept : ¬ gone id) {tags : List String} (closest : document.closest? id tags = some found) :
    ¬ gone found := by
  have passes : ¬ gone id → ¬ gone found :=
    closest?_induction (motive := fun id => ¬ gone id → ¬ gone found) (fun _ here => here)
      (fun id parent _ stands above kept => above (severed.parent id kept parent stands)) closest
  exact passes kept

theorem kept_of_mem_descendants (severed : document.Severed gone holds) {id start : NodeId}
    (member : id ∈ document.descendants start) : ¬ gone id := by
  refine severed.kept_of_isLive ?_
  rw [Document.descendants] at member
  generalize document.size = depth at member
  induction depth generalizing start with
  | zero => simp [Document.descendantsTo] at member
  | succ depth ih =>
      rw [Document.descendantsTo, List.mem_flatMap] at member
      obtain ⟨child, _, inside⟩ := member
      split at inside
      · rename_i live
        rcases List.mem_cons.mp inside with here | below
        · exact here ▸ live
        · exact ih below
      · simp at inside

theorem linkedTree (severed : document.Severed gone holds) {id : NodeId} (kept : ¬ gone id) :
    ∀ element ∈ (document.linkedTree id).elements, element.Slots holds := by
  rw [Document.linkedTree]
  generalize document.size = depth
  induction depth generalizing id with
  | zero =>
      intro element member
      simp only [treeTo, Tree.elements, Tree.elementsAll, List.mem_singleton] at member
      exact member ▸ severed.element kept
  | succ depth ih =>
      intro element member
      rw [treeTo, Tree.elements, List.mem_cons, Tree.elementsAll_eq, List.mem_flatMap] at member
      rcases member with here | ⟨child, listed, below⟩
      · exact here ▸ severed.element kept
      · obtain ⟨origin, inside, rfl⟩ := List.mem_map.mp listed
        exact ih (severed.children id kept origin (List.mem_filter.mp inside).1) element below

end Severed

end Document

end WordTemplate.Markup
