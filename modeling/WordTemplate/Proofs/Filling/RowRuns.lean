import WordTemplate.Proofs.Filling.RowCopies
import WordTemplate.Proofs.Filling.RowKeys

/-! Expansion of rows in a store. The walk leaves the copies of the rows it met for later; expanding
those, and the rows below each of them, gives what the trees expand to. The fuel is never used up,
and the same run is made without any. -/

namespace WordTemplate.Filling

open Markup
open Outline (idsAll)
open Document (Extends)

variable {params : Params}

/-- What a walk leaves for trees that stood in a forest: rows that do not repeat stay, and those that
repeat are replaced by copies that are still to be expanded. -/
inductive Due (params : Params) (document : Document) :
    Bool → List Tree → List Outline → List NodeId → Prop
  | nil {inRow : Bool} : Due params document inRow [] [] []
  | keeps {inRow : Bool} {id : NodeId} {children rest : List Tree} {below others : List Outline}
      {due more : List NodeId}
      (settled : listsOfRow params inRow (.node (document.node id).toElement children) = [])
      (inner : Due params document (entersRow inRow (document.node id).toElement) children below due)
      (next : Due params document inRow rest others more) :
      Due params document inRow (.node (document.node id).toElement children :: rest)
        (.node id below :: others) (due ++ more)
  | repeats {inRow : Bool} {tree : Tree} {rest : List Tree} {copies others : List Outline}
      {more : List NodeId}
      (trees : Outline.toTrees document copies =
        copiesOf params (listsOfRow params inRow tree) tree)
      (repeating : listsOfRow params inRow tree ≠ [])
      (next : Due params document inRow rest others more) :
      Due params document inRow (tree :: rest) (copies ++ others) (copies.map Outline.id ++ more)

namespace Due

variable {document : Document} {inRow : Bool}

theorem append {front back : List Tree} {outlines others : List Outline} {due more : List NodeId}
    (first : Due params document inRow front outlines due)
    (second : Due params document inRow back others more) :
    Due params document inRow (front ++ back) (outlines ++ others) (due ++ more) := by
  induction first with
  | nil => exact second
  | keeps settled inner _ _ ih =>
      rw [List.append_assoc]
      exact .keeps settled inner (ih second)
  | repeats trees repeating _ ih =>
      rw [List.append_assoc, List.append_assoc]
      exact .repeats trees repeating (ih second)

theorem of_extends {grown : Document} (extends_ : document.Extends grown) {sources : List Tree}
    {outlines : List Outline} {due : List NodeId}
    (bound : ∀ id : Nat, id ∈ idsAll outlines → id < document.size)
    (left : Due params document inRow sources outlines due) :
    Due params grown inRow sources outlines due := by
  induction left with
  | nil => exact .nil
  | @keeps inRow id children rest below others due more settled _ _ innerIH nextIH =>
      have here := extends_.toElement id (bound id (by simp [idsAll, Outline.ids]))
      have inner := innerIH fun other member =>
        bound other (by simp [idsAll, Outline.ids, member])
      have next := nextIH fun other member => bound other (by simp [idsAll, member])
      rw [← here] at settled inner ⊢
      exact .keeps settled inner next
  | @repeats inRow tree rest copies others more trees repeating _ nextIH =>
      have next := nextIH fun other member => bound other (by simp [member])
      refine .repeats ?_ repeating next
      rw [← trees]
      exact extends_.toTrees fun other member => bound other (by simp [member])

end Due

theorem depth_toTree (document : Document) (outline : Outline) :
    (outline.toTree document).depth = outline.height := by
  induction outline using Outline.induction with
  | node id children ih =>
      rw [Outline.toTree, Tree.depth, Outline.height, Nat.add_right_cancel_iff]
      induction children with
      | nil => rfl
      | cons child rest inner =>
          rw [Outline.toTrees, Tree.depthAll, Outline.heightAll, ih child (by simp),
            inner fun other member => ih other (by simp [member])]

theorem depthAll_toTrees (document : Document) (outlines : List Outline) :
    Tree.depthAll (Outline.toTrees document outlines) = Outline.heightAll outlines := by
  induction outlines with
  | nil => rfl
  | cons outline rest ih =>
      rw [Outline.toTrees, Tree.depthAll, Outline.heightAll, depth_toTree, ih]

theorem depth_copiesOf (params : Params) (lists : List Param) (tree : Tree) :
    Tree.depthAll (copiesOf params lists tree) ≤ tree.depth := by
  apply Tree.depthAll_le
  intro copy member
  obtain ⟨position, -, rfl⟩ := List.mem_map.mp member
  exact Nat.le_of_eq (Tree.depth_map ..)

theorem Due.heightAll_le {document : Document} {inRow : Bool} {sources : List Tree}
    {outlines : List Outline} {due : List NodeId}
    (left : Due params document inRow sources outlines due) :
    Outline.heightAll outlines ≤ Tree.depthAll sources := by
  induction left with
  | nil => exact Nat.le_refl _
  | keeps _ _ _ innerIH nextIH =>
      simp only [Outline.heightAll, Outline.height, Tree.depthAll, Tree.depth]
      omega
  | @repeats inRow tree rest copies others more trees _ _ nextIH =>
      have copied := depth_copiesOf params (listsOfRow params inRow tree) tree
      rw [← trees, depthAll_toTrees] at copied
      have whole := Tree.depthAll_append (Outline.toTrees document copies)
        (Outline.toTrees document others)
      rw [← Outline.toTrees_append, depthAll_toTrees, depthAll_toTrees, depthAll_toTrees] at whole
      rw [whole]
      simp only [Tree.depthAll]
      omega

theorem isAny_of_listsOfRow {document : Document} {inRow : Bool} {outline : Outline}
    (due : listsOfRow params inRow (outline.toTree document) ≠ []) :
    document.isAny rowTags outline.id = true := by
  have guarded := contains_of_ownedTexts (ownedTexts_of_listsOfRow due)
  cases outline with
  | node id children =>
      have tag : (guards inRow).contains (document.tag id) = true := guarded
      rw [Document.isAny, Outline.id_node]
      cases inRow with
      | false => exact tag
      | true =>
          simp only [guards, if_true, List.contains_cons, List.contains_nil, Bool.or_false,
            beq_iff_eq] at tag
          simp [rowTags, tag]

section Walk

theorem expandVisited_of_settled {document : Document} {context : Context} {outline : Outline}
    (holds : document.Holds (context.fill [outline]))
    (settled : listsOfRow params (inRow document context) (outline.toTree document) = [])
    (own : Nat × List NodeId) :
    expandVisited params document own outline.id = (document, own, .descend) := by
  obtain ⟨count, copies⟩ := own
  simp only [expandVisited, expandRow?_of_settled holds settled]
  split <;> rfl

theorem expandVisited_of_due {document : Document} {outer : Context} {before after : List Outline}
    {parent : NodeId} {row : Outline}
    (holds : document.Holds ((Context.under outer before after parent).fill [row]))
    (due : listsOfRow params (inRow document (.under outer before after parent))
      (row.toTree document) ≠ []) (count : Nat) (known : List NodeId) :
    ∃ (expanded : Document) (copies : List Outline),
      expandVisited params document (count, known) row.id =
        (expanded, (count + 1, known ++ copies.map Outline.id), .skip) ∧
      expanded.Holds ((Context.under outer before after parent).fill copies) ∧
      Outline.toTrees expanded copies =
        copiesOf params (listsOfRow params (inRow document (.under outer before after parent))
          (row.toTree document)) (row.toTree document) ∧
      Extends document expanded := by
  obtain ⟨expanded, copies, found, held⟩ := expandRow?_of_due holds due
  refine ⟨expanded, copies, ?_, held⟩
  simp only [expandVisited, isAny_of_listsOfRow due, found]
  rfl

structure Walked (params : Params) (context : Context) (outlines : List Outline)
    (start : Document × Nat × List NodeId) (result : Document × Nat × List NodeId)
    (left : List Outline) (due : List NodeId) : Prop where
  copies : result.2.2 = start.2.2 ++ due
  holds : result.1.Holds (context.fill left)
  due : Due params result.1 (inRow start.1 context) (Outline.toTrees start.1 outlines) left due
  grown : start.1.Extends result.1

theorem inRow_extends {first second : Document} (context : Context)
    (extends_ : first.Extends second) (bound : ∀ id : Nat, id ∈ context.ids → id < first.size) :
    inRow second context = inRow first context := by
  rw [inRow, inRow, Context.isInside, Context.isInside,
    Context.closest?_extends extends_ bound]

theorem lt_size_of_mem_ids {document : Document} {context : Context} {outlines : List Outline}
    (holds : document.Holds (context.fill outlines)) {id : Nat} (member : id ∈ context.ids) :
    id < document.size :=
  Document.lt_size_of_isLive ((Document.holds_fill_iff.mp holds).isLive_of_mem_ids member)

theorem lt_size_of_mem_idsAll {document : Document} {context : Context} {outlines : List Outline}
    (holds : document.Holds (context.fill outlines)) {id : Nat} (member : id ∈ idsAll outlines) :
    id < document.size :=
  (Document.holds_fill_iff.mp holds).lt_size member

namespace Walked

variable {context outer : Context} {before after front behind left others : List Outline}
  {parent id : NodeId} {children : List Outline} {due more : List NodeId}
  {start middle result : Document × Nat × List NodeId}

/-- What was walked over first stays in front of what is walked over behind it. -/
theorem append
    (holds : start.1.Holds ((Context.under outer before after parent).fill (front ++ behind)))
    (first : Walked params (.under outer before (behind ++ after) parent) front start middle left due)
    (second : Walked params (.under outer (before ++ left) after parent) behind middle result others
      more) :
    Walked params (.under outer before after parent) (front ++ behind) start result (left ++ others)
      (due ++ more) where
  copies := by rw [second.copies, first.copies, List.append_assoc]
  holds := by simpa [Context.fill] using second.holds
  due := by
    have kept := Due.of_extends second.grown
      (fun id member => lt_size_of_mem_idsAll first.holds member) first.due
    have sameTrees : Outline.toTrees middle.1 behind = Outline.toTrees start.1 behind := by
      refine first.grown.toTrees fun id member => lt_size_of_mem_idsAll holds ?_
      simp [member]
    have sameRow : inRow middle.1 (.under outer (before ++ left) after parent) =
        inRow start.1 (.under outer before after parent) :=
      inRow_extends (.under outer before after parent) first.grown
        fun id member => lt_size_of_mem_ids holds member
    have further := second.due
    rw [sameTrees, sameRow] at further
    rw [Outline.toTrees_append]
    exact kept.append further
  grown := first.grown.trans second.grown

/-- A node that is no row that repeats stays, with what the walk leaves of its children. -/
theorem within (holds : start.1.Holds (context.fill [.node id children]))
    (settled : listsOfRow params (inRow start.1 context)
      ((Outline.node id children).toTree start.1) = [])
    (inner : Walked params (.under context [] [] id) children start result left due) :
    Walked params context [.node id children] start result [.node id left] due where
  copies := inner.copies
  holds := by simpa [Context.fill] using inner.holds
  due := by
    have here : (result.1.node id).toElement = (start.1.node id).toElement :=
      inner.grown.toElement id (lt_size_of_mem_idsAll holds (by simp [idsAll, Outline.ids]))
    have below := inner.due
    rw [Outline.toTree] at settled
    rw [inRow_under, ← here] at below
    rw [← here] at settled
    have kept := Due.keeps settled below .nil
    rw [here] at kept
    simpa [Outline.toTrees, Outline.toTree] using kept
  grown := inner.grown

end Walked

def WalksNode (params : Params) (depth : Nat) : Prop :=
  ∀ (outer : Context) (before after : List Outline) (parent : NodeId) (outline : Outline)
    (start : Document × Nat × List NodeId),
    start.1.Holds ((Context.under outer before after parent).fill [outline]) →
    outline.height ≤ depth →
    ∃ left due, Walked params (.under outer before after parent) [outline] start
      (Document.walkNode (expandVisited params) depth start outline.id) left due

def WalksNodes (params : Params) (depth : Nat) : Prop :=
  ∀ (outer : Context) (before after : List Outline) (parent : NodeId) (outlines : List Outline)
    (start : Document × Nat × List NodeId),
    start.1.Holds ((Context.under outer before after parent).fill outlines) →
    Outline.heightAll outlines ≤ depth →
    ∃ left due, Walked params (.under outer before after parent) outlines start
      ((outlines.map Outline.id).foldl (Document.walkNode (expandVisited params) depth) start)
      left due

theorem walksNodes_of_walksNode {depth : Nat} (walks : WalksNode params depth) :
    WalksNodes params depth := by
  intro outer before after parent outlines
  induction outlines generalizing before with
  | nil =>
      intro start holds _
      exact ⟨[], [], by simp, holds, .nil, .refl _⟩
  | cons outline rest ih =>
      intro start holds shallow
      simp only [Outline.heightAll] at shallow
      have atFirst : start.1.Holds
          ((Context.under outer before (rest ++ after) parent).fill [outline]) := by
        simpa [Context.fill] using holds
      obtain ⟨left, due, first⟩ := walks outer before (rest ++ after) parent outline start atFirst
        (by omega)
      rw [List.map_cons, List.foldl_cons]
      generalize Document.walkNode (expandVisited params) depth start outline.id = middle at first ⊢
      have atRest : middle.1.Holds
          ((Context.under outer (before ++ left) after parent).fill rest) := by
        simpa [Context.fill] using first.holds
      obtain ⟨others, more, second⟩ := ih (before ++ left) middle atRest (by omega)
      exact ⟨left ++ others, due ++ more, .append holds first second⟩

theorem walksNode (depth : Nat) : WalksNode params depth := by
  induction depth with
  | zero =>
      intro outer before after parent outline start holds shallow
      cases outline
      simp [Outline.height] at shallow
  | succ depth ih =>
      intro outer before after parent outline start holds shallow
      obtain ⟨document, count, copies⟩ := start
      simp only at holds
      have live : document.isLive outline.id = true := (Document.holds_fill_iff.mp holds).top.live
      by_cases settled : listsOfRow params
          (inRow document (.under outer before after parent)) (outline.toTree document) = []
      · have visited := expandVisited_of_settled holds settled (count, copies)
        cases outline with
        | node id children =>
            have atChildren : document.Holds ((Context.under
                (.under outer before after parent) [] [] id).fill children) := by
              simpa [Context.fill] using holds
            simp only [Outline.height] at shallow
            obtain ⟨left, due, walked⟩ := walksNodes_of_walksNode ih _ [] [] id children
              (document, count, copies) atChildren (by omega)
            have childIds : document.children id = children.map Outline.id :=
              (Document.holds_fill_iff.mp holds).top.children
            rw [Outline.id_node] at visited live
            have run : Document.walkNode (expandVisited params) (depth + 1)
                (document, count, copies) (Outline.node id children).id =
                (children.map Outline.id).foldl (Document.walkNode (expandVisited params) depth)
                  (document, count, copies) := by
              simp only [Document.walkNode, Outline.id_node, live, visited, childIds]
              rfl
            rw [run]
            generalize (children.map Outline.id).foldl
              (Document.walkNode (expandVisited params) depth) (document, count, copies) = result
              at walked ⊢
            exact ⟨[.node id left], due, .within holds settled walked⟩
      · obtain ⟨expanded, more, visited, held, trees, grown⟩ :=
          expandVisited_of_due holds settled count copies
        have run : Document.walkNode (expandVisited params) (depth + 1)
            (document, count, copies) outline.id =
            (expanded, count + 1, copies ++ more.map Outline.id) := by
          simp only [Document.walkNode, live, visited]
          rfl
        rw [run]
        refine ⟨more, more.map Outline.id, rfl, held, ?_, grown⟩
        have repeated := Due.repeats trees settled .nil
        simpa [Outline.toTrees] using repeated

end Walk

/-- What is still to be done: the rows below a node, or a copy and the rows below it. -/
inductive Job
  | within (scope : NodeId)
  | copy (row : NodeId)

/-- A run of the expansion without a bound on its steps, job after job. -/
inductive Runs (params : Params) : List Job → Document × Nat → Document × Nat → Prop
  | done {state : Document × Nat} : Runs params [] state state
  | walks {scope : NodeId} {jobs : List Job} {document walked : Document} {count counted : Nat}
      {copies : List NodeId} {middle final : Document × Nat}
      (walk : document.walk scope (expandVisited params) (count, []) = (walked, counted, copies))
      (inner : Runs params (copies.map .copy) (walked, counted) middle)
      (next : Runs params jobs middle final) :
      Runs params (.within scope :: jobs) (document, count) final
  | repeats {row : NodeId} {jobs : List Job} {document expanded : Document} {count : Nat}
      {copies : List NodeId} {middle final : Document × Nat}
      (expand : expandRow? params .own document row = some (expanded, copies))
      (inner : Runs params (copies.map .copy) (expanded, count + 1) middle)
      (next : Runs params jobs middle final) :
      Runs params (.copy row :: jobs) (document, count) final
  | settles {row : NodeId} {jobs : List Job} {document : Document} {count : Nat}
      {middle final : Document × Nat} (expand : expandRow? params .own document row = none)
      (inner : Runs params [.within row] (document, count) middle)
      (next : Runs params jobs middle final) :
      Runs params (.copy row :: jobs) (document, count) final

theorem Runs.append {front back : List Job} {start middle final : Document × Nat}
    (first : Runs params front start middle) (second : Runs params back middle final) :
    Runs params (front ++ back) start final := by
  induction first with
  | done => exact second
  | walks walk inner _ _ ih => exact .walks walk inner (ih second)
  | repeats expand inner _ _ ih => exact .repeats expand inner (ih second)
  | settles expand inner _ _ ih => exact .settles expand inner (ih second)

/-- What expanding comes to: the store holds what the trees expand to, and the run needs no fuel. -/
structure Expanded (params : Params) (context : Context) (sources : List Tree) (jobs : List Job)
    (start result : Document × Nat) (outlines : List Outline) : Prop where
  holds : result.1.Holds (context.fill outlines)
  expands : Expands params (inRow start.1 context) sources (Outline.toTrees result.1 outlines)
  grown : start.1.Extends result.1
  runs : Runs params jobs start result

namespace Expanded

variable {context outer : Context} {before after behind filling outlines others : List Outline}
  {parent id : NodeId} {front back children : List Tree} {tree : Tree} {jobs more : List Job}
  {start middle result : Document × Nat}

theorem holds_behind
    (first : Expanded params (.under outer before (behind ++ after) parent) front jobs start middle
      outlines) :
    middle.1.Holds ((Context.under outer (before ++ outlines) after parent).fill behind) := by
  simpa [Context.fill] using first.holds

theorem inRow_behind (holds : start.1.Holds ((Context.under outer before after parent).fill filling))
    (first : Expanded params (.under outer before (behind ++ after) parent) front jobs start middle
      outlines) :
    inRow middle.1 (.under outer (before ++ outlines) after parent) =
      inRow start.1 (.under outer before after parent) :=
  inRow_extends (.under outer before after parent) first.grown
    fun _ member => lt_size_of_mem_ids holds member

theorem append (holds : start.1.Holds ((Context.under outer before after parent).fill filling))
    (first : Expanded params (.under outer before (behind ++ after) parent) front jobs start middle
      outlines)
    (second : Expanded params (.under outer (before ++ outlines) after parent) back more middle result
      others) :
    Expanded params (.under outer before after parent) (front ++ back) (jobs ++ more) start result
      (outlines ++ others) where
  holds := by simpa [Context.fill] using second.holds
  expands := by
    have kept : Outline.toTrees result.1 outlines = Outline.toTrees middle.1 outlines :=
      second.grown.toTrees fun id member => lt_size_of_mem_idsAll first.holds member
    have further := second.expands
    rw [inRow_behind holds first] at further
    rw [Outline.toTrees_append, kept]
    exact first.expands.append further
  grown := first.grown.trans second.grown
  runs := first.runs.append second.runs

theorem within (bound : id < start.1.size)
    (settled : listsOfRow params (inRow start.1 context) (.node (start.1.node id).toElement children) = [])
    (inner : Expanded params (.under context [] [] id) children jobs start result outlines)
    (runs : Runs params more start result) :
    Expanded params context [.node (start.1.node id).toElement children] more start result
      [.node id outlines] where
  holds := by simpa [Context.fill] using inner.holds
  expands := by
    have below := inner.expands
    rw [inRow_under] at below
    rw [Outline.toTrees, Outline.toTree, inner.grown.toElement id bound]
    exact .keeps settled below .nil
  grown := inner.grown
  runs := runs

theorem repeats (repeating : listsOfRow params (inRow start.1 context) tree ≠ [])
    (copies : Expanded params context (copiesOf params (listsOfRow params (inRow start.1 context) tree) tree)
      jobs start result outlines) : Expanded params context [tree] jobs start result outlines where
  holds := copies.holds
  expands := by
    have repeated := Expands.repeats repeating copies.expands .nil
    rwa [List.append_nil] at repeated
  grown := copies.grown
  runs := copies.runs

end Expanded

def stepsOfLevel (params : Params) : Nat :=
  params.depth + 4

def Fuelled (params : Params) (fuel : Nat) (document : Document) (context : Context)
    (outline : Outline) : Prop :=
  ∃ slack ≤ params.depth + 1,
    Weighty params slack (ownedTexts (inRow document context) (outline.toTree document)) ∧
      outline.height * stepsOfLevel params + slack + 1 ≤ fuel

def ExpandsCopy (params : Params) (fuel : Nat) : Prop :=
  ∀ (outer : Context) (before after : List Outline) (parent : NodeId) (row : Outline)
    (start : Document × Nat),
    start.1.Holds ((Context.under outer before after parent).fill [row]) →
    Fuelled params fuel start.1 (.under outer before after parent) row →
    ∃ outlines, Expanded params (.under outer before after parent)
      [row.toTree start.1] [.copy row.id] start (expandCopy params fuel start row.id) outlines

def ExpandsBelow (params : Params) (fuel : Nat) : Prop :=
  ∀ (context : Context) (id : NodeId) (children : List Outline) (start : Document × Nat),
    start.1.Holds (context.fill [.node id children]) →
    (Outline.node id children).height * stepsOfLevel params ≤ fuel →
    ∃ outlines, Expanded params (.under context [] [] id)
      (Outline.toTrees start.1 children) [.within id] start (expandBelow params fuel start id)
      outlines

/-- Whatever its texts weigh, a row has the fuel it needs where a whole level more is granted. -/
theorem fuelled_of_height {fuel : Nat} {document : Document} {row : Outline} (context : Context)
    (enough : (row.height + 1) * stepsOfLevel params ≤ fuel + 2) :
    Fuelled params fuel document context row := by
  refine ⟨params.depth + 1, Nat.le_refl _, weighty_of_depth_lt (by omega) _, ?_⟩
  rw [Nat.add_mul, Nat.one_mul] at enough
  simp only [stepsOfLevel] at enough ⊢
  omega

/-- Each copy has less slack than the row, which makes up for the step from the row to the copy. -/
theorem fuelled_copies (keyed : params.Keyed) {fuel slack : Nat} {document expanded : Document}
    {context : Context} {row : Outline} {copies : List Outline}
    (weighty : Weighty params slack (ownedTexts (inRow document context) (row.toTree document)))
    (small : slack ≤ params.depth + 1)
    (enough : row.height * stepsOfLevel params + slack + 1 ≤ fuel + 1)
    (sameRow : inRow expanded context = inRow document context)
    (trees : Outline.toTrees expanded copies =
      copiesOf params (listsOfRow params (inRow document context) (row.toTree document))
        (row.toTree document)) : ∀ next ∈ copies, Fuelled params fuel expanded context next := by
  intro next member
  have listed : next.toTree expanded ∈ Outline.toTrees expanded copies := by
    rw [Outline.toTrees_eq]
    exact List.mem_map_of_mem member
  rw [trees, copiesOf, List.mem_map] at listed
  obtain ⟨position, within, tree⟩ := listed
  have height : next.height = row.height := by
    rw [← depth_toTree expanded, ← tree, Tree.depth_map, depth_toTree]
  cases slack with
  | zero =>
      rw [listsOfRow, copyCount_of_weighty keyed weighty] at within
      simp at within
  | succ slack =>
      refine ⟨slack, by omega, ?_, by rw [height]; omega⟩
      rw [sameRow, ← tree, ownedTexts_map]
      exact weighty_indexText keyed weighty position

theorem foldl_expandCopy {fuel : Nat} (copy : ExpandsCopy params fuel) (outer : Context)
    (before after : List Outline) (parent : NodeId) (rows : List Outline)
    (start : Document × Nat)
    (holds : start.1.Holds ((Context.under outer before after parent).fill rows))
    (fuelled : ∀ row ∈ rows,
      Fuelled params fuel start.1 (.under outer before after parent) row) :
    ∃ outlines, Expanded params (.under outer before after parent)
      (Outline.toTrees start.1 rows) ((rows.map Outline.id).map .copy) start
      ((rows.map Outline.id).foldl (expandCopy params fuel) start) outlines := by
  induction rows generalizing before start with
  | nil => exact ⟨[], holds, .nil, .refl _, .done⟩
  | cons row rest ih =>
      have atFirst : start.1.Holds
          ((Context.under outer before (rest ++ after) parent).fill [row]) := by
        simpa [Context.fill] using holds
      obtain ⟨outlines, first⟩ := copy outer before (rest ++ after) parent row start atFirst
        (fuelled row (by simp))
      rw [List.map_cons, List.foldl_cons]
      generalize expandCopy params fuel start row.id = middle at first ⊢
      have restBound : ∀ id : Nat, id ∈ idsAll rest → id < start.1.size := fun id member =>
        lt_size_of_mem_idsAll holds (by simp [idsAll, member])
      have restFuelled : ∀ other ∈ rest, Fuelled params fuel middle.1
          (.under outer (before ++ outlines) after parent) other := by
        intro other member
        have bound : ∀ id : Nat, id ∈ other.ids → id < start.1.size := fun id inside =>
          restBound id (Outline.mem_idsAll.mpr ⟨other, member, inside⟩)
        rw [Fuelled, first.inRow_behind holds, first.grown.toTree bound]
        exact fuelled other (by simp [member])
      obtain ⟨others, second⟩ := ih (before ++ outlines) middle first.holds_behind restFuelled
      rw [first.grown.toTrees restBound] at second
      exact ⟨outlines ++ others, .append holds first second⟩

/-- A row that repeats is expanded by the copies that the walk has left for it. -/
theorem foldl_expandCopy_repeats {fuel : Nat} (copy : ExpandsCopy params fuel) {inside : Bool}
    {tree : Tree} {copies : List Outline} (repeating : listsOfRow params inside tree ≠ [])
    (outer : Context) (before after : List Outline) (parent : NodeId) (start : Document × Nat)
    (trees : Outline.toTrees start.1 copies = copiesOf params (listsOfRow params inside tree) tree)
    (holds : start.1.Holds ((Context.under outer before after parent).fill copies))
    (sameRow : inRow start.1 (.under outer before after parent) = inside)
    (enough : (Outline.heightAll copies + 1) * stepsOfLevel params ≤ fuel + 2) :
    ∃ outlines, Expanded params (.under outer before after parent) [tree]
      ((copies.map Outline.id).map .copy) start
      ((copies.map Outline.id).foldl (expandCopy params fuel) start) outlines := by
  have fuelled : ∀ row ∈ copies, Fuelled params fuel start.1 (.under outer before after parent) row :=
    fun row member => fuelled_of_height _ (Nat.le_trans (Nat.mul_le_mul_right _
      (Nat.succ_le_succ (Outline.height_le_of_mem member))) enough)
  obtain ⟨outlines, expanded⟩ :=
    foldl_expandCopy copy outer before after parent copies start holds fuelled
  refine ⟨outlines, .repeats (sameRow ▸ repeating) ?_⟩
  rw [trees, ← sameRow] at expanded
  exact expanded

/-- Copies that the walk has left are expanded at their places. -/
theorem foldl_expandCopy_due {fuel : Nat} (copy : ExpandsCopy params fuel) {walked : Document}
    {inside : Bool} {sources : List Tree} {left : List Outline} {due : List NodeId}
    (leaves : Due params walked inside sources left due) (outer : Context)
    (before after : List Outline) (parent : NodeId) (start : Document × Nat)
    (grown : walked.Extends start.1) (bound : ∀ id : Nat, id ∈ idsAll left → id < walked.size)
    (holds : start.1.Holds ((Context.under outer before after parent).fill left))
    (sameRow : inRow start.1 (.under outer before after parent) = inside)
    (enough : (Outline.heightAll left + 1) * stepsOfLevel params ≤ fuel + 2) :
    ∃ outlines, Expanded params (.under outer before after parent) sources
      (due.map .copy) start (due.foldl (expandCopy params fuel) start) outlines := by
  -- The store grows behind what the walk has left, so that the trees stay what the walk made them.
  induction leaves generalizing outer before after parent start with
  | nil => exact ⟨[], holds, .nil, .refl _, .done⟩
  | @keeps inside id children rest below others due more settled _ _ innerIH nextIH =>
      rw [List.foldl_append, List.map_append]
      have small : id < walked.size := bound id (by simp [idsAll, Outline.ids])
      have here := grown.toElement id small
      have atBelow : start.1.Holds ((Context.under
          (.under outer before (others ++ after) parent) [] [] id).fill below) := by
        simpa [Context.fill] using holds
      have belowRow : inRow start.1 (.under (.under outer before (others ++ after) parent) [] [] id) =
          entersRow inside (walked.node id).toElement := by
        rw [inRow_under, here, ← sameRow]
        rfl
      have shallow : (Outline.heightAll below + 1) * stepsOfLevel params ≤ fuel + 2 := by
        refine Nat.le_trans (Nat.mul_le_mul_right _ ?_) enough
        simp only [Outline.heightAll, Outline.height]
        omega
      obtain ⟨inner, below⟩ := innerIH (.under outer before (others ++ after) parent) [] [] id
        start grown (fun other member => bound other (by simp [idsAll, Outline.ids, member]))
        atBelow belowRow shallow
      generalize due.foldl (expandCopy params fuel) start = middle at below ⊢
      have first : Expanded params (.under outer before (others ++ after) parent)
          [.node (walked.node id).toElement children] (due.map .copy) start middle [.node id inner] := by
        rw [← here]
        refine .within (Nat.lt_of_lt_of_le small grown.size_le) ?_ below below.runs
        rw [here]
        exact sameRow ▸ settled
      have otherShallow : (Outline.heightAll others + 1) * stepsOfLevel params ≤ fuel + 2 := by
        refine Nat.le_trans (Nat.mul_le_mul_right _ ?_) enough
        simp only [Outline.heightAll]
        omega
      obtain ⟨outlines, second⟩ := nextIH outer (before ++ [.node id inner]) after parent middle
        (grown.trans first.grown) (fun other member => bound other (by simp [idsAll, member]))
        first.holds_behind ((first.inRow_behind holds).trans sameRow) otherShallow
      exact ⟨.node id inner :: outlines, .append holds first second⟩
  | @repeats inside tree rest copies others more trees repeating _ nextIH =>
      rw [List.foldl_append, List.map_append]
      have atCopies : start.1.Holds
          ((Context.under outer before (others ++ after) parent).fill copies) := by
        simpa [Context.fill] using holds
      have copied : Outline.toTrees start.1 copies =
          copiesOf params (listsOfRow params inside tree) tree := by
        rw [← trees]
        exact grown.toTrees fun other member => bound other (by simp [member])
      have copyShallow : (Outline.heightAll copies + 1) * stepsOfLevel params ≤ fuel + 2 := by
        refine Nat.le_trans (Nat.mul_le_mul_right _ ?_) enough
        refine Nat.succ_le_succ (Outline.heightAll_le fun other member => ?_)
        exact Outline.height_le_of_mem (by simp [member])
      obtain ⟨inner, first⟩ := foldl_expandCopy_repeats copy repeating outer before (others ++ after)
        parent start copied atCopies sameRow copyShallow
      generalize (copies.map Outline.id).foldl (expandCopy params fuel) start = middle at first ⊢
      have otherShallow : (Outline.heightAll others + 1) * stepsOfLevel params ≤ fuel + 2 := by
        refine Nat.le_trans (Nat.mul_le_mul_right _ ?_) enough
        refine Nat.succ_le_succ (Outline.heightAll_le fun other member => ?_)
        exact Outline.height_le_of_mem (by simp [member])
      obtain ⟨outlines, second⟩ := nextIH outer (before ++ inner) after parent middle
        (grown.trans first.grown) (fun other member => bound other (by simp [member]))
        first.holds_behind ((first.inRow_behind holds).trans sameRow) otherShallow
      exact ⟨inner ++ outlines, .append holds first second⟩

theorem expandsBelow_succ {fuel : Nat} (copy : ExpandsCopy params fuel) :
    ExpandsBelow params (fuel + 1) := by
  intro context id children start holds enough
  obtain ⟨document, count⟩ := start
  simp only at holds
  have childIds : document.children id = children.map Outline.id :=
    (Document.holds_fill_iff.mp holds).top.children
  have atChildren : document.Holds ((Context.under context [] [] id).fill children) := by
    simpa [Context.fill] using holds
  have height := (Document.holds_fill_iff.mp holds).height_le_size
  simp only [Outline.height] at height enough
  obtain ⟨left, due, walked⟩ := walksNodes_of_walksNode (walksNode document.size) context [] [] id
    children (document, count, []) atChildren (by omega)
  rw [← childIds] at walked
  have below : expandBelow params (fuel + 1) (document, count) id =
      (document.walk id (expandVisited params) (count, [])).2.2.foldl (expandCopy params fuel)
        ((document.walk id (expandVisited params) (count, [])).1,
          (document.walk id (expandVisited params) (count, [])).2.1) := rfl
  rw [below]
  have run : document.walk id (expandVisited params) (count, []) =
      (document.children id).foldl
        (Document.walkNode (expandVisited params) document.size) (document, count, []) := rfl
  rw [← run] at walked
  generalize walk : document.walk id (expandVisited params) (count, []) = result at walked ⊢
  obtain ⟨after, counted, copies⟩ := result
  have same : copies = due := by simpa using walked.copies
  subst same
  have shallow := walked.due.heightAll_le
  rw [depthAll_toTrees] at shallow
  have steps : (Outline.heightAll left + 1) * stepsOfLevel params ≤ fuel + 2 :=
    Nat.le_trans (Nat.mul_le_mul_right _ (Nat.succ_le_succ shallow)) (Nat.le_succ_of_le enough)
  have sameRow : inRow after (.under context [] [] id) = inRow document (.under context [] [] id) :=
    inRow_extends _ walked.grown fun other member => lt_size_of_mem_ids atChildren member
  obtain ⟨outlines, expanded⟩ := foldl_expandCopy_due copy walked.due context [] [] id
    (after, counted) (.refl after) (fun other member => lt_size_of_mem_idsAll walked.holds member)
    walked.holds sameRow steps
  refine ⟨outlines, expanded.holds, ?_, walked.grown.trans expanded.grown, ?_⟩
  · rw [← sameRow]
    exact expanded.expands
  · exact .walks walk expanded.runs .done

theorem expandsCopy_succ {fuel : Nat} (keyed : params.Keyed) (copy : ExpandsCopy params fuel)
    (below : ExpandsBelow params fuel) : ExpandsCopy params (fuel + 1) := by
  intro outer before after parent row start holds fuelled
  obtain ⟨document, count⟩ := start
  obtain ⟨slack, small, weighty, enough⟩ := fuelled
  simp only at holds weighty
  by_cases settled : listsOfRow params (inRow document (.under outer before after parent))
      (row.toTree document) = []
  · have kept := expandRow?_of_settled holds settled
    have same : expandCopy params (fuel + 1) (document, count) row.id =
        expandBelow params fuel (document, count) row.id := by
      simp only [expandCopy, kept]
    rw [same]
    cases row with
    | node id children =>
        obtain ⟨outlines, expanded⟩ := below (.under outer before after parent) id children
          (document, count) holds (by omega)
        have bound : id < document.size :=
          lt_size_of_mem_idsAll holds (by simp [idsAll, Outline.ids])
        rw [Outline.toTree] at settled
        exact ⟨[.node id outlines], .within bound settled expanded (.settles kept expanded.runs .done)⟩
  · obtain ⟨expanded, copies, found, held, trees, grown⟩ := expandRow?_of_due holds settled
    have same : expandCopy params (fuel + 1) (document, count) row.id =
        (copies.map Outline.id).foldl (expandCopy params fuel) (expanded, count + 1) := by
      simp only [expandCopy, found]
    have sameRow : inRow expanded (.under outer before after parent) =
        inRow document (.under outer before after parent) :=
      inRow_extends _ grown fun other member => lt_size_of_mem_ids holds member
    have fuelled := fuelled_copies keyed weighty small enough sameRow trees
    obtain ⟨outlines, final⟩ := foldl_expandCopy copy outer before after parent copies
      (expanded, count + 1) held fuelled
    rw [same]
    refine ⟨outlines, final.holds, ?_, grown.trans final.grown, .repeats found final.runs .done⟩
    have inner := final.expands
    rw [trees, sameRow] at inner
    have repeated := Expands.repeats settled inner .nil
    rw [List.append_nil] at repeated
    exact repeated

/-- Fuel that is enough for the height of a tree and the depth of the parameters is enough. -/
theorem expandsCopy_and_expandsBelow (keyed : params.Keyed) (fuel : Nat) :
    ExpandsCopy params fuel ∧ ExpandsBelow params fuel := by
  induction fuel with
  | zero =>
      constructor
      · intro outer before after parent row start holds fuelled
        obtain ⟨slack, -, -, enough⟩ := fuelled
        omega
      · intro context id children start holds enough
        simp only [Outline.height, stepsOfLevel, Nat.add_mul] at enough
        omega
  | succ fuel ih => exact ⟨expandsCopy_succ keyed ih.1 ih.2, expandsBelow_succ ih.1⟩

/-- Expanding the rows of a document gives what its tree expands to. -/
theorem expandRows_spec (keyed : params.Keyed) {document : Document} {children : List Outline}
    (holds : document.Holds [.node document.root children]) :
    ∃ outlines, Expanded params (.under (.top [] []) [] [] document.root)
      (Outline.toTrees document children) [.within document.root] (document, 0)
      (expandRows document params) outlines := by
  have inside : document.Holds ((Context.top [] []).fill [.node document.root children]) := holds
  have height := (Document.holds_fill_iff.mp inside).height_le_size
  apply (expandsCopy_and_expandsBelow keyed (expansionFuel document params)).2 (.top [] [])
    document.root children (document, 0) inside
  exact Nat.mul_le_mul_right _ (by omega)

end WordTemplate.Filling
