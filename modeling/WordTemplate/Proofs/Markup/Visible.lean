import Mathlib.Data.List.Chain
import Mathlib.Data.List.Perm.Subperm
import WordTemplate.Proofs.Markup.Handles

/-! What is written of a document and what is found in it. Writing follows the lists of children, and
looking around passes over dead nodes in them. Both meet the same nodes exactly when no node that is met
lists a node that is not its like, and so after all edits that move nodes only to their like. -/

namespace WordTemplate.Markup.Document

open Relation (ReflTransGen TransGen)

/-- The nodes that are written, in the order in which their elements begin. -/
def writtenNodes (document : Document) : List NodeId :=
  if document.isLive document.root then document.linkedTo document.size document.root else []

/-- The root, if it is alive, and what is found below it. -/
def foundNodes (document : Document) : List NodeId :=
  (if document.isLive document.root then [document.root] else []) ++
    document.descendants document.root

variable {document : Document}

theorem elements_linked (document : Document) (depth : Nat) (id : NodeId) :
    (document.treeTo (fun _ => true) depth id).elements =
      (document.linkedTo depth id).map fun id => (document.node id).toElement := by
  induction depth generalizing id with
  | zero => rfl
  | succ depth ih =>
      rw [treeTo, Tree.elements, Tree.elementsAll_eq, List.filter_true, List.flatMap_map, linkedTo,
        List.map_cons, List.map_flatMap]
      congr 1
      exact List.flatMap_congr fun child _ => ih child

theorem written_eq (document : Document) :
    document.written = document.writtenNodes.map fun id => (document.node id).toElement := by
  rw [written, writtenNodes]
  split
  · exact elements_linked document document.size document.root
  · rfl

theorem linkedTo_of_live {depth : Nat} {id : NodeId}
    (live : ∀ parent ∈ id :: document.descendantsTo depth id, ∀ child ∈ document.children parent,
      document.isLive child = true) :
    document.linkedTo depth id = id :: document.descendantsTo depth id := by
  induction depth generalizing id with
  | zero => rfl
  | succ depth ih =>
      rw [linkedTo, descendantsTo]
      congr 1
      refine List.flatMap_congr fun child lists => ?_
      have childLive := live id (List.mem_cons_self ..) child lists
      rw [if_pos childLive]
      refine ih fun parent below => live parent (List.mem_cons_of_mem _ ?_)
      rw [descendantsTo, List.mem_flatMap]
      exact ⟨child, lists, by rwa [if_pos childLive]⟩

theorem mem_linkedTo_of_isChain {depth : Nat} {first : NodeId} {path : List NodeId}
    (chain : (first :: path).IsChain document.Lists) (short : path.length ≤ depth) :
    (first :: path).getLast (List.cons_ne_nil _ _) ∈ document.linkedTo depth first := by
  induction path generalizing depth first with
  | nil => cases depth <;> simp [linkedTo]
  | cons next path ih =>
      obtain ⟨lists, further⟩ := List.isChain_cons_cons.mp chain
      cases depth with
      | zero => simp at short
      | succ depth =>
          rw [List.getLast_cons (List.cons_ne_nil _ _), linkedTo, List.mem_cons, List.mem_flatMap]
          exact .inr ⟨next, lists, ih further (Nat.le_of_succ_le_succ short)⟩

theorem length_of_isChain (tied : document.Tied) (acyclic : document.Acyclic) {first : NodeId}
    {path : List NodeId} (chain : (first :: path).IsChain document.Lists) :
    path.length ≤ document.size := by
  have apart : (first :: path).Pairwise (TransGen document.Lists) :=
    (chain.imp fun _ _ lists => TransGen.single lists).pairwise
  have nodup : path.Nodup := by
    refine (List.pairwise_cons.mp apart).2.imp ?_
    rintro id other leads rfl
    exact acyclic id leads
  have within : path ⊆ List.range document.size := by
    intro id member
    obtain ⟨parent, _, lists⟩ := TransGen.tail'_iff.mp ((List.pairwise_cons.mp apart).1 id member)
    exact List.mem_range.mpr (tied.bound lists)
  have bounded := (nodup.subperm within).length_le
  rwa [List.length_range] at bounded

theorem mem_linkedTo_of_reached (tied : document.Tied) (acyclic : document.Acyclic)
    {start id : NodeId} (reached : ReflTransGen document.Lists start id) :
    id ∈ document.linkedTo document.size start := by
  obtain ⟨path, chain, last⟩ := List.exists_isChain_cons_of_relationReflTransGen reached
  rw [← last]
  exact mem_linkedTo_of_isChain chain (length_of_isChain tied acyclic chain)

theorem reached_of_descendantsTo {depth : Nat} {start id : NodeId}
    (below : id ∈ document.descendantsTo depth start) :
    document.isLive id = true ∧ TransGen document.Lists start id := by
  induction depth generalizing start with
  | zero => simp [descendantsTo] at below
  | succ depth ih =>
      rw [descendantsTo, List.mem_flatMap] at below
      obtain ⟨child, lists, inside⟩ := below
      split at inside
      · rename_i live
        rcases List.mem_cons.mp inside with rfl | deeper
        · exact ⟨live, .single lists⟩
        · exact ⟨(ih deeper).1, .head lists (ih deeper).2⟩
      · simp at inside

theorem foundNodes_of_dead (tied : document.Tied) (dead : document.isLive document.root = false) :
    document.foundNodes = [] ↔
      ∀ child ∈ document.children document.root, document.isLive child = false := by
  rw [foundNodes, dead, if_neg (by decide), List.nil_append]
  constructor
  · intro none child lists
    by_contra alive
    have some : 0 < document.size := Nat.lt_of_le_of_lt (Nat.zero_le _) (tied.bound lists)
    have depth : document.size = document.size - 1 + 1 := (Nat.sub_add_cancel some).symm
    have found : child ∈ document.descendants document.root := by
      rw [descendants, depth, descendantsTo, List.mem_flatMap]
      exact ⟨child, lists, by simp [alive]⟩
    simp [none] at found
  · intro all
    rw [descendants]
    cases document.size with
    | zero => rfl
    | succ depth =>
        rw [descendantsTo, List.flatMap_eq_nil_iff]
        intro child lists
        rw [all child lists, if_neg (by decide)]

/-- What is written is what is found when every node lists its like, and only then. -/
theorem writtenNodes_eq_iff (tied : document.Tied) (acyclic : document.Acyclic) :
    document.writtenNodes = document.foundNodes ↔
      ∀ parent ∈ document.root :: document.descendants document.root,
        ∀ child ∈ document.children parent, document.isLive child = document.isLive parent := by
  by_cases live : document.isLive document.root = true
  · have alive : ∀ parent ∈ document.root :: document.descendants document.root,
        document.isLive parent = true := by
      intro parent member
      rcases List.mem_cons.mp member with rfl | below
      · exact live
      · exact (reached_of_descendantsTo below).1
    rw [writtenNodes, foundNodes, if_pos live, if_pos live]
    constructor
    · intro same parent member child lists
      rw [alive parent member]
      have reached : ReflTransGen document.Lists document.root parent := by
        rcases List.mem_cons.mp member with rfl | below
        · exact .refl
        · exact (reached_of_descendantsTo below).2.to_reflTransGen
      have met := mem_linkedTo_of_reached tied acyclic (reached.tail lists)
      rw [same] at met
      exact alive child met
    · intro like
      exact linkedTo_of_live fun parent member child lists =>
        (like parent member child lists).trans (alive parent member)
  · have dead : document.isLive document.root = false := by simpa using live
    rw [writtenNodes, if_neg live, eq_comm, foundNodes_of_dead tied dead]
    constructor
    · intro all parent member child lists
      have none := (foundNodes_of_dead tied dead).mpr all
      rw [foundNodes, List.append_eq_nil_iff] at none
      rw [none.2, List.mem_singleton] at member
      rw [member] at lists ⊢
      exact (all child lists).trans dead.symm
    · intro like child lists
      exact (like document.root (List.mem_cons_self ..) child lists).trans dead

/-- However nodes are moved, copied and deleted, dead ones among them: the nodes that are written are the
live root and what is found below it exactly when every node on the way lists its like, and so whenever
nodes were moved only to their like. -/
theorem writtenNodes_eq_foundNodes_iff {start : Document} (opened : Opened start)
    (run : Run (fun document edit => edit.Free document) start document) :
    (document.written = document.writtenNodes.map fun id => (document.node id).toElement) ∧
      (document.writtenNodes = document.foundNodes ↔
        ∀ parent ∈ document.root :: document.descendants document.root,
          ∀ child ∈ document.children parent, document.isLive child = document.isLive parent) ∧
      (Run (fun document edit => edit.Level document) start document →
        document.writtenNodes = document.foundNodes) := by
  have tied := run.tied opened.sound.tied
  have same := writtenNodes_eq_iff tied (run.acyclic opened.sound)
  refine ⟨written_eq document, same, fun level => same.mpr fun parent _ child lists => ?_⟩
  exact level.even opened.sound parent child lists

theorem acyclic_of_lt
    (down : ∀ parent < document.size, ∀ child ∈ document.children parent, parent < child) :
    document.Acyclic := by
  intro id cycle
  have further {first last : NodeId} (path : TransGen document.Lists first last) : first < last := by
    refine TransGen.trans_induction_on path (fun {parent child} lists => ?_) fun _ _ => Nat.lt_trans
    by_cases bound : parent < document.size
    · exact down parent bound child lists
    · rw [Lists, children, node_of_le_size (Nat.le_of_not_lt bound)] at lists
      exact absurd lists List.not_mem_nil
  exact Nat.lt_irrefl _ (further cycle)

/-- A paragraph is put into a body and copied, and dies. An element that is dead as well is put into the
dead paragraph. -/
def deadInDead : List Edit :=
  [.createElement "w:p", .append 0 1, .cloneAfter 1, .createElement "w:r", .delete 1, .delete 3,
    .append 1 3]

def editedAll (document : Document) (edits : List Edit) : Document :=
  edits.foldl (fun document edit => edit.apply document) document

theorem level_of_lt {edit : Edit} (within : ∀ id ∈ edit.handles, id < document.size)
    (down : ∀ parent < (edit.apply document).size, ∀ child ∈ (edit.apply document).children parent,
      parent < child)
    (toLike : edit.ToLike document) : edit.Level document :=
  ⟨⟨within, acyclic_of_lt down⟩, toLike⟩

theorem level_deadInDead :
    Run (fun document edit => edit.Level document) (.new "w:body")
      (editedAll (.new "w:body") deadInDead) := by
  simp only [editedAll, deadInDead, List.foldl_cons, List.foldl_nil]
  refine .edit (.edit (.edit (.edit (.edit (.edit (.edit (.unchanged _) _ ?_) _ ?_) _ ?_) _ ?_) _ ?_)
    _ ?_) _ ?_
  all_goals exact level_of_lt (by decide) (by decide) (by trivial)

theorem writtenNodes_deadInDead :
    (editedAll (.new "w:body") deadInDead).writtenNodes = [0, 2] ∧
      (editedAll (.new "w:body") deadInDead).foundNodes = [0, 2] := by
  have free := level_deadInDead.mono fun _ _ level => level.toFree
  have same := (writtenNodes_eq_foundNodes_iff (.new "w:body") free).2.2 level_deadInDead
  exact ⟨by decide, same ▸ by decide⟩

/-- A dead paragraph is put into a body, where it is not found and yet written. -/
theorem write_dead_paragraph :
    ∃ document, Run (fun document edit => edit.Free document) (.new "w:body") document ∧
      document.isLive 1 = false ∧ document.descendants document.root = [] ∧
      document.write = "<w:body><w:p /></w:body>" ∧
      document.writtenNodes ≠ document.foundNodes := by
  refine ⟨editedAll (.new "w:body") [.createElement "w:p", .delete 1, .append 0 1], ?_, by decide,
    by decide, by decide +kernel, by decide⟩
  simp only [editedAll, List.foldl_cons, List.foldl_nil]
  refine .edit (.edit (.edit (.unchanged _) _ ?_) _ ?_) _ ?_
  all_goals exact ⟨by decide, acyclic_of_lt (by decide)⟩

end WordTemplate.Markup.Document
