import WordTemplate.Proofs.Markup.Growth
import WordTemplate.Proofs.Markup.Reading
import WordTemplate.Wordml.Vocabulary

/-! What is kept when a document changes. Slots stay, dead ones stay dead, and tags do not change; what
holds of all texts and values holds of them when nodes are removed, moved and copied. -/

namespace WordTemplate.Markup

structure Element.Slots (holds : String → Prop) (element : Element) : Prop where
  text : element.tag = Wordml.text → holds element.text
  value : ∀ entry ∈ element.attributes, holds entry.value

namespace Document

/-- The second store comes from the first one by adding slots, and changing and removing nodes. -/
structure Ages (first second : Document) : Prop where
  size_le : first.size ≤ second.size
  root : second.root = first.root
  dead : ∀ id : Nat, id < first.size → first.isLive id = false → second.isLive id = false
  tag : ∀ id : Nat, id < first.size → second.tag id = first.tag id

namespace Ages

theorem refl (document : Document) : Ages document document :=
  ⟨Nat.le_refl _, rfl, fun _ _ dead => dead, fun _ _ => rfl⟩

theorem trans {first second third : Document} (left : Ages first second)
    (right : Ages second third) : Ages first third where
  size_le := Nat.le_trans left.size_le right.size_le
  root := right.root.trans left.root
  dead := fun id bound dead =>
    right.dead id (Nat.lt_of_lt_of_le bound left.size_le) (left.dead id bound dead)
  tag := fun id bound =>
    (right.tag id (Nat.lt_of_lt_of_le bound left.size_le)).trans (left.tag id bound)

end Ages

theorem ages_modify (document : Document) (id : NodeId) {change : Node → Node}
    (dead : ∀ node : Node, node.live = false → (change node).live = false)
    (tag : ∀ node : Node, (change node).tag = node.tag) : Ages document (document.modify id change) := by
  refine ⟨Nat.le_of_eq (size_modify ..).symm, rfl, ?_, ?_⟩
  · intro other _ wasDead
    rw [isLive, node_modify]
    split
    · exact dead _ wasDead
    · exact wasDead
  · intro other _
    rw [Document.tag, node_modify]
    split
    · exact tag _
    · rfl

theorem ages_foldl {α : Type} {step : Document → α → Document}
    (ages : ∀ document item, Ages document (step document item)) (items : List α)
    (document : Document) : Ages document (items.foldl step document) := by
  induction items generalizing document with
  | nil => exact .refl document
  | cons item rest ih => exact (ages document item).trans (ih _)

theorem ages_detach (document : Document) (id : NodeId) : Ages document (document.detach id) := by
  rw [detach]
  split
  · exact .refl document
  · refine (ages_modify document id ?_ ?_).trans (ages_modify _ _ ?_ ?_)
    · exact fun node dead => dead
    · exact fun node => rfl
    · exact fun node dead => dead
    · exact fun node => rfl

theorem ages_delete (document : Document) (id : NodeId) : Ages document (document.delete id) := by
  rw [delete]
  split
  · refine (ages_foldl ?_ (document.linkedTo document.size id) document).trans (ages_detach _ _)
    intro other inner
    exact ages_modify other inner (fun _ _ => rfl) fun _ => rfl
  · exact .refl document

theorem ages_insertAfter (document : Document) (anchor id : NodeId) :
    Ages document (document.insertAfter anchor id).1 := by
  have detached := ages_detach document id
  simp only [insertAfter, insertBeside]
  split
  · exact detached
  · split
    · exact detached
    · refine (detached.trans (ages_modify _ _ ?_ ?_)).trans (ages_modify _ _ ?_ ?_)
      · exact fun node dead => dead
      · exact fun node => rfl
      · exact fun node dead => dead
      · exact fun node => rfl

theorem ages_push (document : Document) (nodes : List Node) :
    Ages document (document.push nodes).1 := by
  refine ⟨by rw [size_push]; omega, rfl, ?_, ?_⟩
  · intro id bound dead
    rw [isLive, node_push_of_lt nodes bound]
    exact dead
  · intro id bound
    rw [tag, node_push_of_lt nodes bound]
    rfl

theorem ages_graft (document source : Document) (id : NodeId) :
    Ages document (document.graft source id).1 := by
  refine ⟨Nat.le_of_lt (lt_size_graft ..), rfl, ?_, ?_⟩
  · intro other bound dead
    rwa [isLive, node_graft_of_lt source id bound]
  · intro other bound
    rw [tag, node_graft_of_lt source id bound, tag]

theorem ages_cloneSubtree (document : Document) (id : NodeId) :
    Ages document (document.cloneSubtree id).1 :=
  ages_graft document document id

def Slots (holds : String → Prop) (onlyLive : Bool) (among : NodeId → Prop) (document : Document) :
    Prop :=
  ∀ id, among id → (onlyLive = true → document.isLive id = true) →
    (document.node id).toElement.Slots holds

def AllSlots (holds : String → Prop) (document : Document) : Prop :=
  document.Slots holds false fun _ => True

def LiveSlots (holds : String → Prop) (document : Document) : Prop :=
  document.Slots holds true fun _ => True

section Slots

variable {holds : String → Prop} {onlyLive : Bool} {among : NodeId → Prop} {document : Document}

theorem slots_absent : Node.absent.toElement.Slots holds :=
  ⟨by simp [Node.absent, Wordml.text], by simp [Node.absent]⟩

theorem slots_of_lt_size
    (texts : ∀ id < document.size, document.tag id = Wordml.text → holds (document.text id))
    (values : ∀ id < document.size, ∀ entry ∈ (document.node id).attributes, holds entry.value) :
    document.Slots holds onlyLive among := by
  intro id _ _
  by_cases inside : id < document.size
  · exact ⟨texts id inside, values id inside⟩
  · rw [node_of_le_size (Nat.le_of_not_lt inside)]
    exact slots_absent

theorem slots_of_same {second : Document} (slots : document.Slots holds onlyLive among)
    (same : ∀ id, (second.node id).toElement = (document.node id).toElement)
    (live : ∀ id, second.isLive id = true → document.isLive id = true) :
    second.Slots holds onlyLive among := by
  intro id listed inside
  rw [same]
  exact slots id listed fun only => live id (inside only)

theorem slots_modify (slots : document.Slots holds onlyLive among) {id : NodeId} {change : Node → Node}
    (live : (change (document.node id)).live = true → (document.node id).live = true)
    (kept : among id → (onlyLive = true → document.isLive id = true) →
      (change (document.node id)).toElement.Slots holds) :
    (document.modify id change).Slots holds onlyLive among := by
  intro other listed inside
  rw [isLive, node_modify] at inside
  rw [node_modify]
  split
  · rename_i here
    rw [if_pos here, here.1] at inside
    rw [here.1] at listed ⊢
    exact kept listed fun only => live (inside only)
  · rename_i elsewhere
    rw [if_neg elsewhere] at inside
    exact slots other listed inside

theorem slots_foldl {α : Type} {step : Document → α → Document}
    (kept : ∀ document item, document.Slots holds onlyLive among → (step document item).Slots holds onlyLive among)
    (items : List α) (slots : document.Slots holds onlyLive among) :
    (items.foldl step document).Slots holds onlyLive among := by
  induction items generalizing document with
  | nil => exact slots
  | cons item rest ih => exact ih (kept document item slots)

theorem slots_detach (slots : document.Slots holds onlyLive among) (id : NodeId) :
    (document.detach id).Slots holds onlyLive among := by
  rw [detach]
  split
  · exact slots
  · have first : (document.modify id fun node => { node with parent := none }).Slots
        holds onlyLive among :=
      slots_modify slots (fun live => live) fun listed inside => slots id listed inside
    exact slots_modify first (fun live => live) fun listed inside => first _ listed inside

theorem slots_delete (slots : document.Slots holds onlyLive among) (id : NodeId) :
    (document.delete id).Slots holds onlyLive among := by
  rw [delete]
  split
  · refine slots_detach (slots_foldl ?_ _ slots) id
    intro other inner kept
    exact slots_modify kept (fun live => by simp at live) fun listed inside =>
      kept inner listed inside
  · exact slots

theorem slots_insertAfter (slots : document.Slots holds onlyLive among) (anchor id : NodeId) :
    (document.insertAfter anchor id).1.Slots holds onlyLive among := by
  have detached := slots_detach slots id
  simp only [insertAfter, insertBeside]
  split
  · exact detached
  · split
    · exact detached
    · refine slots_of_same detached ?_ ?_
      · intro other
        simp only [node_modify, size_modify]
        split <;> split <;> rfl
      · intro other live
        rw [isLive, node_modify, node_modify] at live
        split at live <;> split at live <;> exact live

theorem slots_push (slots : document.Slots holds onlyLive among) {nodes : List Node}
    (new : ∀ node ∈ nodes, (onlyLive = true → node.live = true) → node.toElement.Slots holds) :
    (document.push nodes).1.Slots holds onlyLive among := by
  intro id listed inside
  rcases node_push_cases document nodes id with ⟨_, same⟩ | ⟨_, pushed | absent⟩
  · rw [isLive, same] at inside
    rw [same]
    exact slots id listed inside
  · exact new _ pushed inside
  · rw [absent]
    exact slots_absent

theorem toElement_graft_top (document source : Document) (id : NodeId) :
    ((document.graft source id).1.node document.size).toElement = (source.node id).toElement := by
  have laid := laid_push document ((source.liveTree id).layOut true none document.size)
  rw [node_graft, if_pos rfl]
  rw [← Tree.node_eta (source.liveTree id)] at laid ⊢
  exact (congrArg Node.toElement laid.1).trans (element_treeTo ..)

/-- Behind the top of a copy stand the nodes that are live below what was copied. -/
theorem toElement_graft_behind (document source : Document) (id : NodeId) {other : Nat}
    (behind : document.size < other) : (document.graft source id).1.node other = .absent ∨
      ∃ below, source.isLive below = true ∧
        ((document.graft source id).1.node other).toElement = (source.node below).toElement := by
  rw [node_graft, if_neg (Nat.ne_of_gt behind)]
  obtain ⟨index, rfl⟩ := Nat.exists_eq_add_of_lt behind
  rw [Nat.add_assoc, node_push_add, List.getD_eq_getElem?_getD]
  have below := elements_below_treeTo source source.isLive source.size id
  rw [← liveTree] at below
  generalize source.liveTree id = tree at below ⊢
  cases tree with
  | node element children =>
      rw [Tree.layOut, List.getElem?_cons_succ]
      cases found : (Tree.layOutAll true (some document.size) (document.size + 1) children)[index]? with
      | none => exact .inl rfl
      | some node =>
          have listed := List.mem_map_of_mem (f := Node.toElement) (List.mem_of_getElem? found)
          rw [map_toElement_layOutAll] at listed
          exact .inr (below _ listed)

theorem slots_graft (slots : document.Slots holds onlyLive among) {source : Document} {id : NodeId}
    (new : source.Slots holds onlyLive fun _ => True) :
    (document.graft source id).1.Slots holds onlyLive among := by
  intro other listed inside
  rcases Nat.lt_trichotomy other document.size with before | rfl | behind
  · rw [isLive, node_graft_of_lt source id before] at inside
    rw [node_graft_of_lt source id before]
    exact slots other listed inside
  · rw [isLive, node_graft, if_pos rfl] at inside
    rw [toElement_graft_top]
    exact new id trivial inside
  · rcases toElement_graft_behind document source id behind with absent | ⟨below, live, same⟩
    · rw [absent]
      exact slots_absent
    · rw [same]
      exact new below trivial fun _ => live

theorem slots_cloneSubtree (slots : document.Slots holds onlyLive fun _ => True) (id : NodeId) :
    (document.cloneSubtree id).1.Slots holds onlyLive fun _ => True :=
  slots_graft slots slots

theorem slots_setText (slots : document.Slots holds onlyLive among) (id : NodeId) {text : String}
    (kept : document.tag id = Wordml.text → holds text) :
    (document.setText id text).Slots holds onlyLive among :=
  slots_modify slots (fun live => live) fun listed inside =>
    ⟨kept, (slots id listed inside).value⟩

theorem slots_clearTextDeep (slots : document.Slots holds onlyLive among) (id : NodeId)
    (empty : holds "") : (document.clearTextDeep id).Slots holds onlyLive among :=
  slots_foldl (fun _ _ kept => slots_setText kept _ fun _ => empty) _ slots

theorem mem_setAttribute {element : Element} {key value : String} {entry : Attribute}
    (member : entry ∈ (element.setAttribute key value).attributes) :
    entry ∈ element.attributes ∨ entry = ⟨key, value⟩ := by
  simp only [Element.setAttribute] at member
  generalize element.attributes = attributes at member ⊢
  induction attributes with
  | nil => simpa [Element.setAttribute.set] using member
  | cons first rest ih =>
      rw [Element.setAttribute.set] at member
      split at member
      · rcases List.mem_cons.mp member with here | later
        · exact .inr here
        · exact .inl (List.mem_cons_of_mem _ later)
      · rcases List.mem_cons.mp member with here | later
        · exact .inl (here ▸ List.mem_cons_self ..)
        · exact (ih later).imp_left (List.mem_cons_of_mem _)

theorem slots_setAttribute (slots : document.Slots holds onlyLive among) (id : NodeId)
    (key : String) {value : String} (kept : holds value) :
    (document.setAttribute id key value).Slots holds onlyLive among := by
  refine slots_modify slots (fun live => live) fun listed inside =>
    ⟨(slots id listed inside).text, ?_⟩
  intro entry member
  rcases mem_setAttribute member with old | new
  · exact (slots id listed inside).value entry old
  · exact new ▸ kept

theorem slots_preserveSpace (slots : document.Slots holds onlyLive among) (id : NodeId)
    (kept : holds "preserve") : (Wordml.preserveSpace document id).Slots holds onlyLive among := by
  rw [Wordml.preserveSpace]
  split
  · exact slots_setAttribute slots id _ kept
  · exact slots

end Slots

end Document

end WordTemplate.Markup
