import WordTemplate.Proofs.Markup.Layout

/-! Places in a tree. What stands before and behind the tree that a path leads to, in document order,
and how a place of a tree is a hole among the slots of a document. -/

namespace WordTemplate.Markup

namespace Tree

/-- The text of elements, one after the other. -/
def textOf (elements : List Element) : String :=
  String.join (elements.map Element.text)

/-- All text of a tree, in document order. -/
def allText (tree : Tree) : String :=
  textOf tree.elements

@[simp]
theorem textOf_nil : textOf [] = "" := rfl

@[simp]
theorem textOf_cons (element : Element) (rest : List Element) :
    textOf (element :: rest) = element.text ++ textOf rest :=
  String.join_cons

@[simp]
theorem textOf_append (front back : List Element) :
    textOf (front ++ back) = textOf front ++ textOf back := by
  simp [textOf]

/-- The elements before the tree that a path leads to, those around it included. -/
def before : List Nat → Tree → List Element
  | [], _ => []
  | position :: path, .node element children =>
    element :: (elementsAll (children.take position) ++
      children[position]?.toList.flatMap (before path))

/-- The elements behind the tree that a path leads to. -/
def after : List Nat → Tree → List Element
  | [], _ => []
  | position :: path, .node _ children =>
    children[position]?.toList.flatMap (after path) ++ elementsAll (children.drop (position + 1))

theorem before_cons (path : List Nat) (element : Element) (front : List Tree) (child : Tree)
    (back : List Tree) :
    before (front.length :: path) (.node element (front ++ child :: back)) =
      element :: (elementsAll front ++ before path child) := by
  simp [before]

theorem after_cons (path : List Nat) (element : Element) (front : List Tree) (child : Tree)
    (back : List Tree) :
    after (front.length :: path) (.node element (front ++ child :: back)) =
      after path child ++ elementsAll back := by
  simp [after, List.drop_append, List.drop_of_length_le]

variable {path : List Nat} {tree found : Tree}

theorem elementsAll_splice (leads : at? path tree = some found) (replacement : List Tree) :
    elementsAll (splice replacement path tree) =
      before path tree ++ elementsAll replacement ++ after path tree := by
  induction path generalizing tree with
  | nil => simp [splice, before, after]
  | cons position path ih =>
      cases tree with
      | node element children =>
          obtain ⟨front, child, back, rfl, rfl, below⟩ := at?_cons leads
          rw [splice_cons, before_cons, after_cons]
          simp [elementsAll, elements, elementsAll_append, ih below]

theorem outside_eq (leads : at? path tree = some found) :
    tree.outside path = before path tree ++ after path tree := by
  rw [outside, elementsAll_splice leads]
  simp [elementsAll]

theorem splice_of_length {front : List Tree} {position : Nat} (length : front.length = position)
    (replacement : List Tree) (path : List Nat) (element : Element) (child : Tree)
    (back : List Tree) :
    splice replacement (position :: path) (.node element (front ++ child :: back)) =
      [.node element (front ++ splice replacement path child ++ back)] := by
  rw [← length, splice_cons]

theorem map_splice (change : Element → Element) (leads : at? path tree = some found)
    (replacement : List Tree) :
    (splice replacement path tree).map (map change) =
      splice (replacement.map (map change)) path (tree.map change) := by
  induction path generalizing tree with
  | nil => rfl
  | cons position path ih =>
      cases tree with
      | node element children =>
          obtain ⟨front, child, back, rfl, rfl, below⟩ := at?_cons leads
          simp only [splice_cons, map, mapAll_eq, List.map_append, List.map_cons, List.map_nil,
            splice_of_length (List.length_map (map change)), ih below]

theorem before_map (change : Element → Element) (leads : at? path tree = some found) :
    before path (tree.map change) = (before path tree).map change := by
  induction path generalizing tree with
  | nil => rfl
  | cons position path ih =>
      cases tree with
      | node element children =>
          obtain ⟨front, child, back, rfl, rfl, below⟩ := at?_cons leads
          rw [map, mapAll_eq, List.map_append, List.map_cons, before_cons,
            ← List.length_map (map change), before_cons, ih below, ← mapAll_eq,
            elementsAll_mapAll]
          simp

theorem after_map (change : Element → Element) (leads : at? path tree = some found) :
    after path (tree.map change) = (after path tree).map change := by
  induction path generalizing tree with
  | nil => rfl
  | cons position path ih =>
      cases tree with
      | node element children =>
          obtain ⟨front, child, back, rfl, rfl, below⟩ := at?_cons leads
          rw [map, mapAll_eq, List.map_append, List.map_cons, after_cons,
            ← List.length_map (map change), after_cons, ih below, ← mapAll_eq,
            elementsAll_mapAll]
          simp

theorem tagsAlong_map {change : Element → Element} (same : ∀ element, (change element).tag = element.tag)
    (leads : at? path tree = some found) :
    tagsAlong path (tree.map change) = tagsAlong path tree := by
  induction path generalizing tree with
  | nil => rfl
  | cons position path ih =>
      cases tree with
      | node element children =>
          obtain ⟨front, child, back, rfl, rfl, below⟩ := at?_cons leads
          rw [map, mapAll_eq, List.map_append, List.map_cons, tagsAlong_cons,
            ← List.length_map (map change), tagsAlong_cons, ih below, same]

theorem exists_splice_of_map {change : Element → Element}
    (leads : at? path tree = some (found.map change)) {trees filling : List Tree}
    (same : trees.map (map change) = splice filling path tree) :
    ∃ shell rows, trees = splice rows path shell ∧ rows.map (map change) = filling ∧
      at? path shell = some found ∧ shell.map change = tree := by
  induction path generalizing tree trees with
  | nil =>
      simp only [at?, Option.some.injEq] at leads
      exact ⟨found, trees, rfl, same, rfl, leads.symm⟩
  | cons position path ih =>
      cases tree with
      | node element children =>
          obtain ⟨front, child, back, rfl, rfl, below⟩ := at?_cons leads
          rw [splice_cons] at same
          obtain ⟨top, rfl, top_map⟩ := List.map_eq_singleton_iff.mp same
          cases top with
          | node inner below_ =>
              rw [map, mapAll_eq, Tree.node.injEq] at top_map
              obtain ⟨rfl, parts⟩ := top_map
              obtain ⟨middle, back', rfl, rest, rfl⟩ := List.map_eq_append_iff.mp parts
              obtain ⟨front', middle', rfl, rfl, inside⟩ := List.map_eq_append_iff.mp rest
              obtain ⟨shell, rows, rfl, mapped, leads', shown⟩ := ih below inside
              refine ⟨.node inner (front' ++ shell :: back'), rows, ?_, mapped, ?_, ?_⟩
              · rw [splice_of_length (List.length_map _).symm]
              · simp [at?, leads']
              · simp [map, mapAll_eq, shown]

/-- Where a tree stands among others: the tags of the elements around it, and the text in front of
it and behind it. -/
inductive Located (row : Tree) : List String → String → String → List Tree → Prop
  | here {rest : List Tree} : Located row [] "" (textOf (elementsAll rest)) (row :: rest)
  | inside {tags : List String} {before after : String} {element : Element}
      {children rest : List Tree} (below : Located row tags before after children) :
      Located row (element.tag :: tags) (element.text ++ before)
        (after ++ textOf (elementsAll rest)) (.node element children :: rest)
  | later {tags : List String} {before after : String} {tree : Tree} {rest : List Tree}
      (behind : Located row tags before after rest) :
      Located row tags (tree.allText ++ before) after (tree :: rest)

section Located

variable {row : Tree} {tags : List String} {before after : String} {trees : List Tree}

theorem Located.append (located : Located row tags before after trees) (others : List Tree) :
    Located row tags before (after ++ textOf (elementsAll others)) (trees ++ others) := by
  induction located with
  | here =>
      rw [← textOf_append, ← elementsAll_append]
      exact .here
  | inside below _ =>
      rw [String.append_assoc, ← textOf_append, ← elementsAll_append]
      exact below.inside
  | later _ ih => exact ih.later

theorem Located.behind (located : Located row tags before after trees) (others : List Tree) :
    Located row tags (textOf (elementsAll others) ++ before) after (others ++ trees) := by
  induction others with
  | nil => simpa [elementsAll] using located
  | cons tree rest ih =>
      have whole : Located row tags (tree.allText ++ _) after (tree :: (rest ++ trees)) := ih.later
      rwa [allText, ← String.append_assoc, ← textOf_append] at whole

theorem located_of_at? {path : List Nat} {tree : Tree} (leads : at? path tree = some row) :
    Located row (tagsAlong path tree) (textOf (Tree.before path tree))
      (textOf (Tree.after path tree)) [tree] := by
  induction path generalizing tree with
  | nil =>
      simp only [at?, Option.some.injEq] at leads
      subst leads
      exact (.here : Located tree [] "" (textOf (elementsAll [])) [tree])
  | cons position path ih =>
      cases tree with
      | node element children =>
          obtain ⟨front, child, back, rfl, rfl, below⟩ := at?_cons leads
          have placed : Located row (element.tag :: tagsAlong path child) _ _
              [.node element (front ++ ([child] ++ back))] :=
            (((ih below).append back).behind front).inside
          rw [tagsAlong_cons, before_cons, after_cons]
          simpa [elementsAll] using placed

theorem Located.exists_path (located : Located row tags before after trees) :
    ∃ front tree back path, trees = front ++ tree :: back ∧ at? path tree = some row ∧
      tagsAlong path tree = tags ∧
      textOf (elementsAll front ++ Tree.before path tree) = before ∧
      textOf (Tree.after path tree ++ elementsAll back) = after := by
  induction located with
  | @here rest => exact ⟨[], row, rest, [], rfl, rfl, rfl, rfl, rfl⟩
  | @inside tags before after element children rest _ ih =>
      obtain ⟨front, tree, back, path, rfl, leads, rfl, rfl, rfl⟩ := ih
      refine ⟨[], .node element (front ++ tree :: back), rest, front.length :: path, rfl, ?_, ?_, ?_,
        ?_⟩
      · simp [at?, leads]
      · rw [tagsAlong_cons]
      · rw [before_cons]
        simp [elementsAll]
      · rw [after_cons]
        simp [String.append_assoc]
  | @later tags before after other rest _ ih =>
      obtain ⟨front, tree, back, path, rfl, leads, rfl, rfl, rfl⟩ := ih
      refine ⟨other :: front, tree, back, path, rfl, leads, rfl, ?_, rfl⟩
      simp [elementsAll, allText]

theorem Located.exists_at? {tree : Tree} (located : Located row tags before after [tree]) :
    ∃ path, at? path tree = some row ∧ tagsAlong path tree = tags ∧
      textOf (Tree.before path tree) = before ∧ textOf (Tree.after path tree) = after := by
  obtain ⟨front, top, back, path, whole, leads, along, ahead, behind⟩ := located.exists_path
  obtain ⟨rfl, same⟩ : front = [] ∧ [tree] = top :: back := by
    cases front with
    | nil => exact ⟨rfl, whole⟩
    | cons first rest => simp at whole
  obtain ⟨rfl, rfl⟩ := List.cons.inj same
  exact ⟨path, leads, along, by simpa [elementsAll] using ahead,
    by simpa [elementsAll] using behind⟩

end Located

end Tree

theorem Outline.tag_toTree (document : Document) (outline : Outline) :
    (outline.toTree document).element.tag = document.tag outline.id := by
  cases outline
  rfl

theorem Outline.tagsBelow_toTree (document : Document) (outline : Outline) :
    (outline.toTree document).tagsBelow = (idsAll outline.children).map document.tag := by
  cases outline with
  | node id children =>
      rw [toTree, Tree.tagsBelow, Tree.children, Document.elementsAll_toTrees, List.map_map]
      rfl

theorem Outline.map_toTree_congr {first second : Document} {change : Element → Element}
    {outline : Outline}
    (same : ∀ id ∈ outline.ids,
      change (second.node id).toElement = change (first.node id).toElement) :
    (outline.toTree second).map change = (outline.toTree first).map change := by
  induction outline using Outline.induction with
  | node id children ih =>
      simp only [toTree, toTrees_eq, Tree.map, Tree.mapAll_eq, List.map_map]
      congr 1
      · exact same id (by simp [ids])
      · apply List.map_congr_left
        intro child member
        apply ih child member
        intro inner below
        exact same inner (by simp only [ids, List.mem_cons, mem_idsAll]; exact .inr ⟨child, member, below⟩)

theorem Outline.map_toTrees_congr {first second : Document} {change : Element → Element}
    {outlines : List Outline}
    (same : ∀ id ∈ idsAll outlines,
      change (second.node id).toElement = change (first.node id).toElement) :
    (toTrees second outlines).map (Tree.map change) =
      (toTrees first outlines).map (Tree.map change) := by
  rw [toTrees_eq, toTrees_eq, List.map_map, List.map_map]
  apply List.map_congr_left
  intro outline member
  exact map_toTree_congr fun id below => same id (mem_idsAll.mpr ⟨outline, member, below⟩)

namespace Context

open Outline (idsAll toTrees)

theorem mem_ids_top {before after : List Outline} {id : NodeId} :
    id ∈ (top before after).ids ↔ id ∈ idsAll before ∨ id ∈ idsAll after := by
  simp [ids, frame, rim, Outline.map_id_linksAll]

theorem mem_ids_under {outer : Context} {before after : List Outline} {id other : NodeId} :
    other ∈ (under outer before after id).ids ↔
      other ∈ outer.ids ∨ other = id ∨ other ∈ idsAll before ∨ other ∈ idsAll after := by
  have rims := congrArg (other ∈ ·) (map_id_rim outer [id] [])
  simp only [ids, frame, rim, List.map_append, List.mem_append, Outline.map_id_linksAll, List.map_cons,
    List.map_nil, List.mem_singleton] at rims ⊢
  rw [rims]
  tauto

def trees (document : Document) (filling : List Tree) : Context → List Tree
  | top before after => toTrees document before ++ filling ++ toTrees document after
  | under outer before after id =>
    outer.trees document
      [.node (document.node id).toElement
        (toTrees document before ++ filling ++ toTrees document after)]

theorem toTrees_fill (document : Document) (context : Context) (outlines : List Outline) :
    toTrees document (context.fill outlines) =
      context.trees document (toTrees document outlines) := by
  induction context generalizing outlines with
  | top before after => simp [fill, trees]
  | under outer before after id ih =>
      rw [fill, ih, trees]
      simp [toTrees, Outline.toTree]

/-- A context inside of a node. -/
def within (before after : List Outline) (id : NodeId) : Context → Context
  | top front back => under (top [] []) (before ++ front) (back ++ after) id
  | under outer front back inner => under (outer.within before after id) front back inner

theorem fill_within (context : Context) (before after : List Outline) (id : NodeId)
    (outlines : List Outline) :
    (context.within before after id).fill outlines =
      [.node id (before ++ context.fill outlines ++ after)] := by
  induction context generalizing outlines with
  | top front back => simp [within, fill]
  | under outer front back inner ih => rw [within, fill, ih, fill]

theorem trees_within (document : Document) (context : Context) (before after : List Outline)
    (id : NodeId) (filling : List Tree) :
    (context.within before after id).trees document filling =
      [.node (document.node id).toElement
        (toTrees document before ++ context.trees document filling ++ toTrees document after)] := by
  induction context generalizing filling with
  | top front back => simp [within, trees, toTrees]
  | under outer front back inner ih => rw [within, trees, ih, trees]

theorem map_trees_congr {first second : Document} {change : Element → Element} {context : Context}
    (same : ∀ id ∈ context.ids,
      change (second.node id).toElement = change (first.node id).toElement)
    {filling others : List Tree}
    (inside : filling.map (Tree.map change) = others.map (Tree.map change)) :
    (context.trees second filling).map (Tree.map change) =
      (context.trees first others).map (Tree.map change) := by
  induction context generalizing filling others with
  | top before after =>
      simp only [mem_ids_top] at same
      simp only [trees, List.map_append, inside,
        Outline.map_toTrees_congr fun id below => same id (.inl below),
        Outline.map_toTrees_congr fun id below => same id (.inr below)]
  | under outer before after id ih =>
      simp only [mem_ids_under] at same
      rw [trees, trees]
      refine ih (fun other member => same other (.inl member)) ?_
      simp only [List.map_cons, List.map_nil, Tree.map, Tree.mapAll_eq, List.map_append, inside,
        same id (by simp),
        Outline.map_toTrees_congr fun other below => same other (.inr (.inr (.inl below))),
        Outline.map_toTrees_congr fun other below => same other (.inr (.inr (.inr below)))]

/-- What stands around a hole is shown whatever the hole shows. -/
theorem toElement_mem_trees (document : Document) {context : Context} {id : NodeId}
    (member : id ∈ context.ids) :
    (document.node id).toElement ∈ Tree.elementsAll (context.trees document []) := by
  have whole := toTrees_fill document context []
  rw [toTrees] at whole
  rw [← whole, Document.elementsAll_toTrees]
  refine List.mem_map_of_mem ((Document.idsAll_fill context []).mem_iff.mpr ?_)
  simpa [Outline.idsAll] using member

/-- In a context whose hole is inside of a node, the top stays what it is whatever is in the hole. -/
theorem exists_root {context : Context} (inside : context.parent? ≠ none) {outlines : List Outline}
    {root : Outline} (whole : context.fill outlines = [root]) (others : List Outline) :
    root.id ∈ context.ids ∧ ∃ root', context.fill others = [root'] ∧ root'.id = root.id := by
  induction context generalizing outlines others with
  | top before after => exact absurd rfl inside
  | under outer before after id ih =>
      rw [fill] at whole ⊢
      by_cases further : outer.parent? = none
      · cases outer with
        | under _ _ _ parent => exact absurd further (by simp [parent?])
        | top front back =>
            obtain ⟨rfl, rfl, rfl⟩ : front = [] ∧
                Outline.node id (before ++ outlines ++ after) = root ∧ back = [] := by
              simpa [fill, List.append_eq_singleton_iff] using whole
            exact ⟨parent_mem_ids rfl, _, rfl, rfl⟩
      · obtain ⟨member, root', shown, same⟩ := ih further whole [.node id (before ++ others ++ after)]
        exact ⟨mem_ids_under.mpr (.inl member), root', shown, same⟩

def tagsAbove (document : Document) : Context → List String
  | top _ _ => []
  | under outer _ _ id => outer.tagsAbove document ++ [document.tag id]

theorem tagsAbove_within (document : Document) (context : Context) (before after : List Outline)
    (id : NodeId) :
    (context.within before after id).tagsAbove document =
      document.tag id :: context.tagsAbove document := by
  induction context with
  | top front back => rfl
  | under outer front back inner ih => rw [within, tagsAbove, ih, tagsAbove, List.cons_append]

theorem tagsAbove_beside (document : Document) (context : Context) (before after : List Outline) :
    (context.beside before after).tagsAbove document = context.tagsAbove document := by
  cases context <;> rfl

theorem tagsAbove_congr {first second : Document} (same : ∀ id, second.tag id = first.tag id)
    (context : Context) : context.tagsAbove second = context.tagsAbove first := by
  induction context with
  | top front back => rfl
  | under outer front back inner ih => rw [tagsAbove, tagsAbove, ih, same]

theorem closest?_eq_none {document : Document} {tags : List String} {context : Context}
    (absent : ∀ tag ∈ context.tagsAbove document, tag ∉ tags) :
    context.closest? document tags = none := by
  induction context with
  | top front back => rfl
  | under outer front back inner ih =>
      rw [tagsAbove, List.forall_mem_append] at absent
      have other : document.isAny tags inner = false := by
        simpa [Document.isAny] using absent.2 (document.tag inner) (by simp)
      rw [closest?, if_neg (by simp [other]), ih absent.1]

end Context

/-- Slots that show a splice have a hole where the trees were put in. -/
theorem Outline.exists_context_of_splice {document : Document} {path : List Nat} {tree found : Tree}
    (leads : Tree.at? path tree = some found) {outlines : List Outline} {filling : List Tree}
    (shows : toTrees document outlines = Tree.splice filling path tree) :
    ∃ (context : Context) (inside : List Outline), outlines = context.fill inside ∧
      toTrees document inside = filling ∧
      (∀ others, context.trees document others = Tree.splice others path tree) ∧
      context.tagsAbove document = Tree.tagsAlong path tree := by
  induction path generalizing tree outlines with
  | nil =>
      refine ⟨.top [] [], outlines, by simp [Context.fill], shows, fun others => ?_, rfl⟩
      simp [Context.trees, Tree.splice, toTrees]
  | cons position path ih =>
      cases tree with
      | node element children =>
          obtain ⟨front, child, back, rfl, rfl, below⟩ := Tree.at?_cons leads
          rw [Tree.splice_cons, toTrees_eq] at shows
          obtain ⟨outline, rfl, mapped⟩ := List.map_eq_singleton_iff.mp shows
          cases outline with
          | node id inner =>
              rw [toTree, Tree.node.injEq, toTrees_eq] at mapped
              obtain ⟨rfl, parts⟩ := mapped
              obtain ⟨upTo, back', rfl, ahead, rfl⟩ := List.map_eq_append_iff.mp parts
              obtain ⟨front', middle, rfl, rfl, here⟩ := List.map_eq_append_iff.mp ahead
              rw [← toTrees_eq] at here
              obtain ⟨context, inside, rfl, filled, others, along⟩ := ih below here
              refine ⟨context.within front' back' id, inside, ?_, filled, fun other => ?_, ?_⟩
              · rw [Context.fill_within]
              · rw [Context.trees_within, Tree.splice_cons, others, toTrees_eq, toTrees_eq]
              · rw [Context.tagsAbove_within, Tree.tagsAlong_cons, along]
                rfl

end WordTemplate.Markup
