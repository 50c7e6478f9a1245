import WordTemplate.Proofs.Markup.Appended

/-! Which elements a text begins, and which of them it leaves open. The tokens are counted without building
a tree; that the tree agrees with the count is an invariant of the reading. It follows that blank text
beside children is kept only by elements that are left open. -/

namespace WordTemplate.Markup

def Element.head (element : Element) : String × List Attribute :=
  (element.tag, element.attributes)

/-- The text beside children is not empty, but blank. -/
def Node.HoldsLayout (node : Node) : Prop :=
  node.children ≠ [] ∧ node.text ≠ "" ∧ Text.isAllBlank node.text.toList = true

instance (node : Node) : Decidable node.HoldsLayout :=
  inferInstanceAs (Decidable (_ ∧ _ ∧ _))

inductive Tree.Settled : Tree → Prop
  | node {element : Element} {children : List Tree}
      (layout : children ≠ [] → Text.isAllBlank element.text.toList = true → element.text = "")
      (below : ∀ child ∈ children, child.Settled) : Tree.Settled (.node element children)

theorem Tree.settled_leaf (element : Element) : (Tree.node element []).Settled :=
  .node (by simp) (by simp)

/-! Layout among nodes that are laid out -/

def LayoutAmong (slots : List NodeId) : NodeId → List Node → Prop
  | _, [] => True
  | first, node :: rest => (node.HoldsLayout → first ∈ slots) ∧ LayoutAmong slots (first + 1) rest

section

variable {slots : List NodeId} {first : NodeId}

theorem layoutAmong_append {front back : List Node} :
    LayoutAmong slots first (front ++ back) ↔
      LayoutAmong slots first front ∧ LayoutAmong slots (first + front.length) back := by
  induction front generalizing first with
  | nil => simp [LayoutAmong]
  | cons node rest ih =>
      have shift : first + 1 + rest.length = first + (rest.length + 1) :=
        Nat.add_right_comm first 1 rest.length
      simp [LayoutAmong, ih, and_assoc, shift]

theorem layoutAmong_iff {nodes : List Node} : LayoutAmong slots first nodes ↔
    ∀ position node, nodes[position]? = some node → node.HoldsLayout → first + position ∈ slots := by
  induction nodes generalizing first with
  | nil => simp [LayoutAmong]
  | cons head rest ih =>
      have shift : ∀ position : Nat, first + 1 + position = first + (position + 1) :=
        Nat.add_right_comm first 1
      rw [LayoutAmong, ih]
      constructor
      · rintro ⟨here, later⟩ position node found holds
        cases position with
        | zero =>
            cases found
            exact here holds
        | succ position => exact shift position ▸ later position node found holds
      · intro listed
        refine ⟨listed 0 head rfl, fun position node found holds => ?_⟩
        exact (shift position).symm ▸ listed (position + 1) node found holds

theorem LayoutAmong.mono {other : List NodeId} {nodes : List Node} (among : LayoutAmong slots first nodes)
    (wider : slots ⊆ other) : LayoutAmong other first nodes :=
  layoutAmong_iff.mpr fun position node found holds =>
    wider (layoutAmong_iff.mp among position node found holds)

end

namespace Tree

theorem layOutAll_append (isNew : Bool) (parent : Option NodeId) (first : NodeId) (front back : List Tree) :
    layOutAll isNew parent first (front ++ back) =
      layOutAll isNew parent first front ++ layOutAll isNew parent (first + sizeAll front) back := by
  induction front generalizing first with
  | nil => rfl
  | cons tree rest ih => simp [layOutAll, ih, sizeAll, Nat.add_assoc]

theorem length_elements (tree : Tree) : tree.elements.length = tree.size := by
  rw [← Document.map_toElement_layOut false none 0, List.length_map, length_layOut]

theorem roots_ne_nil {first : NodeId} {trees : List Tree} : roots first trees ≠ [] ↔ trees ≠ [] := by
  cases trees <;> simp [roots]

mutual

theorem settled_iff_layoutAmong {isNew : Bool} {parent : Option NodeId} {first : NodeId} {tree : Tree} :
    tree.Settled ↔ LayoutAmong [] first (tree.layOut isNew parent first) := by
  cases tree with
  | node element children =>
      have below : (∀ child ∈ children, child.Settled) ↔
          LayoutAmong [] (first + 1) (layOutAll isNew (some first) (first + 1) children) :=
        forall_settled_iff_layoutAmong
      simp only [layOut, LayoutAmong, Node.HoldsLayout, ← below, roots_ne_nil, List.not_mem_nil]
      constructor
      · rintro ⟨layout, settled⟩
        exact ⟨fun ⟨inner, text, blank⟩ => text (layout inner blank), settled⟩
      · rintro ⟨layout, settled⟩
        refine .node (fun inner blank => ?_) settled
        by_contra text
        exact layout ⟨inner, text, blank⟩

theorem forall_settled_iff_layoutAmong {isNew : Bool} {parent : Option NodeId} {first : NodeId}
    {trees : List Tree} : (∀ tree ∈ trees, tree.Settled) ↔
      LayoutAmong [] first (layOutAll isNew parent first trees) := by
  cases trees with
  | nil => simp [layOutAll, LayoutAmong]
  | cons tree rest =>
      rw [layOutAll, layoutAmong_append, length_layOut, ← settled_iff_layoutAmong,
        ← forall_settled_iff_layoutAmong, List.forall_mem_cons]

end

end Tree

/-! Frames -/

namespace Frame

def begun : List Frame → List (String × List Attribute)
  | [] => []
  | inner :: outer => begun outer ++ inner.tree.elements.map Element.head

def slots : List Frame → List NodeId
  | [] => []
  | _ :: outer => (begun outer).length :: slots outer

theorem begun_addChild (inner : Frame) (outer : List Frame) (child : Tree) :
    begun (inner.addChild child :: outer) =
      begun (inner :: outer) ++ child.elements.map Element.head := by
  simp [begun, addChild, tree, Tree.elements, Tree.elementsAll_append, Tree.elementsAll]

theorem map_head_close (frame : Frame) :
    frame.close.elements.map Element.head = frame.tree.elements.map Element.head := by
  rw [close, dropLayout]
  split <;> rfl

theorem map_head_unwind (inner : Tree) (outer : List Frame) :
    (unwind inner outer).elements.map Element.head =
      begun outer ++ inner.elements.map Element.head := by
  induction outer generalizing inner with
  | nil => rfl
  | cons frame rest ih =>
      have whole := begun_addChild frame rest inner
      rw [begun] at whole
      rw [unwind, ih, whole]

theorem settled_close {frame : Frame} (below : ∀ child ∈ frame.children, child.Settled) :
    frame.close.Settled := by
  have inside : ∀ child ∈ frame.children.reverse, child.Settled := fun child member =>
    below child (List.mem_reverse.mp member)
  rw [close, dropLayout]
  split
  · exact .node (fun _ _ => rfl) inside
  · rename_i kept
    refine .node (fun some blank => ?_) inside
    simp [blank] at kept
    simp [kept] at some

/-- Around a tree, only the open elements can hold layout. -/
theorem layoutAmong_unwind {among : List NodeId} {outer : List Frame}
    (settled : ∀ frame ∈ outer, ∀ child ∈ frame.children, child.Settled)
    (opened : slots outer ⊆ among) {inner : Tree}
    (inside : ∀ parent, LayoutAmong among (begun outer).length
      (inner.layOut false parent (begun outer).length)) :
    LayoutAmong among 0 ((unwind inner outer).layOut false none 0) := by
  induction outer generalizing inner with
  | nil => exact inside none
  | cons frame rest ih =>
      obtain ⟨below, others⟩ := List.forall_mem_cons.mp settled
      obtain ⟨here, further⟩ := List.cons_subset.mp opened
      refine ih others further fun parent => ?_
      have children : ∀ child ∈ frame.children.reverse, child.Settled := fun child member =>
        below child (List.mem_reverse.mp member)
      have before : (begun (frame :: rest)).length =
          (begun rest).length + 1 + Tree.sizeAll frame.children.reverse := by
        rw [begun, List.length_append, List.length_map, Tree.length_elements, tree, Tree.size]
        omega
      have listed : (frame.addChild inner).children.reverse = frame.children.reverse ++ [inner] :=
        List.reverse_cons
      rw [before] at inside
      rw [tree, listed, Tree.layOut, Tree.layOutAll_append]
      refine ⟨fun _ => here, layoutAmong_append.mpr ⟨?_, ?_⟩⟩
      · exact (Tree.forall_settled_iff_layoutAmong.mp children).mono (List.nil_subset _)
      · rw [Tree.length_layOutAll, Tree.layOutAll, Tree.layOutAll, List.append_nil]
        exact inside _

end Frame

/-- The elements that tokens begin and end, counted from zero on as they begin, until the first one has
ended. -/
structure Tally where
  begun : List (String × List Attribute) := []
  /-- The elements that are open, innermost first. -/
  opened : List NodeId := []
  ended : List NodeId := []
deriving DecidableEq, Repr

namespace Tally

def step (tally : Tally) : Token → Tally
  | .opening tag attributes =>
    if tally.begun = [] ∨ tally.opened ≠ [] then
      { tally with
        begun := tally.begun ++ [(tag, attributes)]
        opened := tally.begun.length :: tally.opened }
    else tally
  | .empty tag attributes =>
    if tally.begun = [] ∨ tally.opened ≠ [] then
      { tally with begun := tally.begun ++ [(tag, attributes)] }
    else tally
  | .closing _ =>
    match tally.opened with
    | [] => tally
    | inner :: outer => { tally with opened := outer, ended := inner :: tally.ended }
  | _ => tally

def count (tally : Tally) (tokens : List Token) : Tally :=
  tokens.foldl step tally

structure Proper (tally : Tally) : Prop where
  nodup : (tally.opened ++ tally.ended).Nodup
  begun : ∀ slot ∈ tally.opened ++ tally.ended, slot < tally.begun.length

theorem proper_step {tally : Tally} (proper : tally.Proper) (token : Token) :
    (tally.step token).Proper := by
  have longer : ∀ (entry : String × List Attribute), ∀ slot ∈ tally.opened ++ tally.ended,
      slot < (tally.begun ++ [entry]).length := by
    intro entry slot member
    have before := proper.begun slot member
    rw [List.length_append]
    exact Nat.lt_add_right _ before
  cases token with
  | opening tag attributes =>
      rw [step]
      split
      · have fresh : tally.begun.length ∉ tally.opened ++ tally.ended := fun member =>
          Nat.lt_irrefl _ (proper.begun _ member)
        refine ⟨List.nodup_cons.mpr ⟨fresh, proper.nodup⟩, ?_⟩
        exact List.forall_mem_cons.mpr ⟨by simp, longer _⟩
      · exact proper
  | empty tag attributes =>
      rw [step]
      split
      · exact ⟨proper.nodup, longer _⟩
      · exact proper
  | closing tag =>
      rw [step]
      split
      · exact proper
      · rename_i inner outer opened
        have same : tally.opened ++ tally.ended = inner :: (outer ++ tally.ended) := by
          rw [opened, List.cons_append]
        have moved : (outer ++ inner :: tally.ended).Perm (tally.opened ++ tally.ended) :=
          same ▸ List.perm_middle
        exact ⟨moved.nodup_iff.mpr proper.nodup, fun slot member =>
          proper.begun slot (moved.mem_iff.mp member)⟩
  | text | reference | declaration | ignored => exact proper

theorem proper_count {tally : Tally} (proper : tally.Proper) (tokens : List Token) :
    (tally.count tokens).Proper := by
  induction tokens generalizing tally with
  | nil => exact proper
  | cons token rest ih => exact ih (proper_step proper token)

theorem proper_empty : ({} : Tally).Proper :=
  ⟨List.nodup_nil, by simp⟩

theorem step_of_ended {tally : Tally} (some : tally.begun ≠ []) (none : tally.opened = [])
    (token : Token) : tally.step token = tally := by
  cases token with
  | opening | empty => simp [step, some, none]
  | closing => simp [step, none]
  | text | reference | declaration | ignored => rfl

theorem Proper.not_mem_opened {tally : Tally} (proper : tally.Proper) {slot : NodeId}
    (ended : slot ∈ tally.ended) : slot ∉ tally.opened := fun opened =>
  (List.nodup_append.mp proper.nodup).2.2 slot opened slot ended rfl

end Tally

/-- Open elements agree with a count: they began with what was counted, they stand in the slots that are
open, and all that has ended in them is settled. -/
structure Frame.Tallied (frames : List Frame) (tally : Tally) : Prop where
  begun : tally.begun = Frame.begun frames
  opened : tally.opened = Frame.slots frames
  settled : ∀ frame ∈ frames, ∀ child ∈ frame.children, child.Settled

namespace Stage

def Tallied : Stage → Tally → Prop
  | beforeRoot, tally => Frame.Tallied [] tally
  | inside inner outer, tally => Frame.Tallied (inner :: outer) tally
  | afterRoot root _, tally =>
    tally.begun = root.elements.map Element.head ∧ tally.opened = [] ∧ root.Settled

variable {tally : Tally}

theorem tallied_within {frames : List Frame} :
    (within frames).Tallied tally ↔ Frame.Tallied frames tally := by
  cases frames <;> rfl

theorem taking {frames : List Frame} (tallied : Frame.Tallied frames tally) :
    tally.begun = [] ∨ tally.opened ≠ [] := by
  cases frames with
  | nil => exact .inl tallied.begun
  | cons inner outer =>
      right
      rw [tallied.opened, Frame.slots]
      exact List.cons_ne_nil _ _

theorem tallied_addElement {frames : List Frame} (tallied : Frame.Tallied frames tally) {child : Tree}
    (settled : child.Settled) : ((within frames).addElement child).Tallied
      { tally with begun := tally.begun ++ child.elements.map Element.head } := by
  cases frames with
  | nil =>
      refine ⟨?_, tallied.opened, settled⟩
      rw [tallied.begun]
      rfl
  | cons inner outer =>
      refine ⟨?_, tallied.opened, ?_⟩
      · rw [Frame.begun_addChild, tallied.begun]
      · obtain ⟨first, others⟩ := List.forall_mem_cons.mp tallied.settled
        exact List.forall_mem_cons.mpr ⟨List.forall_mem_cons.mpr ⟨settled, first⟩, others⟩

theorem tallied_openElement {frames : List Frame} (tallied : Frame.Tallied frames tally) (tag : String)
    (attributes : List Attribute) : Frame.Tallied (Frame.start tag attributes :: frames)
      { tally with
        begun := tally.begun ++ [(tag, attributes)]
        opened := tally.begun.length :: tally.opened } := by
  refine ⟨?_, ?_, ?_⟩
  · rw [tallied.begun]
    rfl
  · rw [tallied.begun, tallied.opened]
    rfl
  · exact List.forall_mem_cons.mpr ⟨by simp [Frame.start], tallied.settled⟩

theorem tallied_close {inner : Frame} {outer : List Frame} (tallied : Frame.Tallied (inner :: outer) tally)
    (ended : List NodeId) : ((within outer).addElement inner.close).Tallied
      { tally with opened := Frame.slots outer, ended } := by
  obtain ⟨first, others⟩ := List.forall_mem_cons.mp tallied.settled
  have before : Frame.Tallied outer ⟨Frame.begun outer, Frame.slots outer, ended⟩ :=
    ⟨rfl, rfl, others⟩
  have closed := tallied_addElement before (Frame.settled_close first)
  rw [Frame.map_head_close] at closed
  rw [tallied.begun]
  exact closed

theorem tallied_addText {frames : List Frame} (tallied : Frame.Tallied frames tally)
    (content : List Char) : ((within frames).addText content).Tallied tally := by
  cases frames with
  | nil => exact tallied
  | cons inner outer =>
      obtain ⟨first, others⟩ := List.forall_mem_cons.mp tallied.settled
      exact ⟨tallied.begun, tallied.opened, List.forall_mem_cons.mpr ⟨first, others⟩⟩

theorem tallied_step?_within (frames : List Frame) (tallied : Frame.Tallied frames tally) {token : Token}
    {next : Stage} (step : (within frames).step? token = some next) :
    next.Tallied (tally.step token) := by
  cases token with
  | opening tag attributes =>
      rw [step?, openElement_within] at step
      cases step
      rw [Tally.step, if_pos (taking tallied), tallied_within]
      exact tallied_openElement tallied tag attributes
  | empty tag attributes =>
      cases step
      rw [Tally.step, if_pos (taking tallied)]
      exact tallied_addElement tallied (Tree.settled_leaf _)
  | closing tag =>
      cases frames with
      | nil => simp [within, step?, closeElement?] at step
      | cons inner outer =>
          have named : tag = inner.element.tag := by
            by_contra other
            simp [within, step?, closeElement?, other] at step
          rw [step?, named, closeElement?_within] at step
          cases step
          rw [Tally.step, tallied.opened, Frame.slots]
          exact tallied_close tallied _
  | text | reference =>
      cases step
      exact tallied_addText tallied _
  | declaration | ignored =>
      cases step
      exact tallied_within.mpr tallied

/-- Every token that is taken keeps a tree and its count together. -/
theorem tallied_step? {stage next : Stage} {token : Token} (tallied : stage.Tallied tally)
    (step : stage.step? token = some next) : next.Tallied (tally.step token) := by
  cases stage with
  | beforeRoot => exact tallied_step?_within [] tallied step
  | inside inner outer => exact tallied_step?_within (inner :: outer) tallied step
  | afterRoot root stray =>
      obtain ⟨others, rfl⟩ := step?_afterRoot step
      have some : tally.begun ≠ [] := by
        rw [tallied.1]
        cases root
        exact List.cons_ne_nil _ _
      rw [Tally.step_of_ended some tallied.2.1]
      exact tallied

theorem tallied_run {stage : Stage} (tallied : stage.Tallied tally) (tokens : List Token) :
    (stage.run tokens).1.Tallied (tally.count (stage.taken tokens)) := by
  induction tokens generalizing stage tally with
  | nil => exact tallied
  | cons token rest ih =>
      rw [run, taken]
      cases step : stage.step? token with
      | none => exact tallied
      | some next => exact ih (tallied_step? tallied step)

theorem head_root? {stage : Stage} (tallied : stage.Tallied tally) {root : Tree}
    (found : stage.root? = some root) : root.elements.map Element.head = tally.begun := by
  cases stage with
  | beforeRoot => cases found
  | inside inner outer =>
      cases found
      rw [Frame.map_head_unwind, tallied.begun]
      rfl
  | afterRoot last stray =>
      cases found
      exact tallied.1.symm

theorem layoutAmong_root? {stage : Stage} (tallied : stage.Tallied tally) {root : Tree}
    (found : stage.root? = some root) :
    LayoutAmong tally.opened 0 (root.layOut false none 0) := by
  cases stage with
  | beforeRoot => cases found
  | inside inner outer =>
      cases found
      obtain ⟨first, others⟩ := List.forall_mem_cons.mp tallied.settled
      have children : ∀ child ∈ inner.children.reverse, child.Settled := fun child member =>
        first child (List.mem_reverse.mp member)
      rw [tallied.opened]
      refine Frame.layoutAmong_unwind others (List.subset_cons_self ..) fun parent => ?_
      exact ⟨fun _ => List.mem_cons_self .., (Tree.forall_settled_iff_layoutAmong.mp children).mono
        (List.nil_subset _)⟩
  | afterRoot last stray =>
      cases found
      rw [tallied.2.1]
      exact Tree.settled_iff_layoutAmong.mp tallied.2.2

theorem afterRoot_of_opened {stage : Stage} (tallied : stage.Tallied tally) {root : Tree}
    (found : stage.root? = some root) (none : tally.opened = []) :
    ∃ stray, stage = afterRoot root stray := by
  cases stage with
  | beforeRoot => cases found
  | inside inner outer =>
      rw [tallied.opened] at none
      cases none
  | afterRoot last stray =>
      cases found
      exact ⟨stray, rfl⟩

end Stage

end WordTemplate.Markup
