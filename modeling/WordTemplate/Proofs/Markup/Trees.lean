import Mathlib.Data.List.Basic
import WordTemplate.Markup.Tree

/-! Markup trees: changing all their elements, and putting trees in the place of one that a path leads
to. -/

namespace WordTemplate.Markup.Tree

@[elab_as_elim]
theorem induction {motive : Tree → Prop} (tree : Tree)
    (node : ∀ element children, (∀ child ∈ children, motive child) →
      motive (.node element children)) : motive tree :=
  @Tree.rec motive (fun trees => ∀ child ∈ trees, motive child)
    node (by simp) (fun tree rest first others => by
      intro child member
      rcases List.mem_cons.mp member with same | later
      · exact same ▸ first
      · exact others child later) tree

theorem node_eta (tree : Tree) : node tree.element tree.children = tree := by
  cases tree
  rfl

mutual

/-- The tree with every element changed. -/
def map (change : Element → Element) : Tree → Tree
  | node element children => .node (change element) (mapAll change children)

def mapAll (change : Element → Element) : List Tree → List Tree
  | [] => []
  | tree :: rest => tree.map change :: mapAll change rest

end

theorem mapAll_eq (change : Element → Element) (trees : List Tree) :
    mapAll change trees = trees.map (map change) := by
  induction trees with
  | nil => rfl
  | cons tree rest ih => simp [mapAll, ih]

theorem element_map (change : Element → Element) (tree : Tree) :
    (tree.map change).element = change tree.element := by
  cases tree
  rfl

mutual

theorem depth_map (change : Element → Element) (tree : Tree) :
    (tree.map change).depth = tree.depth := by
  cases tree with
  | node element children => rw [map, depth, depth, depthAll_mapAll]

theorem depthAll_mapAll (change : Element → Element) (trees : List Tree) :
    depthAll (mapAll change trees) = depthAll trees := by
  cases trees with
  | nil => rfl
  | cons tree rest => rw [mapAll, depthAll, depthAll, depth_map, depthAll_mapAll]

end

theorem depthAll_append (front back : List Tree) :
    depthAll (front ++ back) = max (depthAll front) (depthAll back) := by
  induction front with
  | nil => simp [depthAll]
  | cons tree rest ih => simp [depthAll, ih, Nat.max_assoc]

theorem depthAll_le {trees : List Tree} {bound : Nat}
    (bounded : ∀ tree ∈ trees, tree.depth ≤ bound) : depthAll trees ≤ bound := by
  induction trees with
  | nil => simp [depthAll]
  | cons tree rest ih =>
      have first := bounded tree (by simp)
      have others := ih fun other member => bounded other (by simp [member])
      simp only [depthAll]
      omega

/-- The tree that positions among children lead to. -/
def at? : List Nat → Tree → Option Tree
  | [], tree => some tree
  | position :: path, .node _ children => children[position]?.bind (at? path)

/-- What stands in the place of a tree when other trees are put where a path leads to. -/
def splice (replacement : List Tree) : List Nat → Tree → List Tree
  | [], _ => replacement
  | position :: path, .node element children =>
    [.node element (children.take position ++
      (children[position]?.toList.flatMap (splice replacement path)) ++
      children.drop (position + 1))]

mutual

/-- All elements in document order. -/
def elements : Tree → List Element
  | node element children => element :: elementsAll children

def elementsAll : List Tree → List Element
  | [] => []
  | tree :: rest => tree.elements ++ elementsAll rest

end

def tagsBelow (tree : Tree) : List String :=
  (elementsAll tree.children).map Element.tag

theorem elementsAll_eq (trees : List Tree) : elementsAll trees = trees.flatMap elements := by
  induction trees with
  | nil => rfl
  | cons tree rest ih => simp [elementsAll, ih]

theorem elementsAll_append (front back : List Tree) :
    elementsAll (front ++ back) = elementsAll front ++ elementsAll back := by
  induction front with
  | nil => rfl
  | cons tree rest ih => simp [elementsAll, ih]

mutual

theorem elements_map (change : Element → Element) (tree : Tree) :
    (tree.map change).elements = tree.elements.map change := by
  cases tree with
  | node element children => rw [map, elements, elements, elementsAll_mapAll, List.map_cons]

theorem elementsAll_mapAll (change : Element → Element) (trees : List Tree) :
    elementsAll (mapAll change trees) = (elementsAll trees).map change := by
  cases trees with
  | nil => rfl
  | cons tree rest =>
      rw [mapAll, elementsAll, elementsAll, elements_map, elementsAll_mapAll, List.map_append]

end

theorem tagsBelow_map {change : Element → Element} (same : ∀ element, (change element).tag = element.tag)
    (tree : Tree) : (tree.map change).tagsBelow = tree.tagsBelow := by
  cases tree with
  | node element children =>
      have tags : Element.tag ∘ change = Element.tag := funext same
      rw [tagsBelow, tagsBelow, map, Tree.children, Tree.children, elementsAll_mapAll, List.map_map, tags]

mutual

theorem map_congr {first second : Element → Element} {tree : Tree}
    (same : ∀ element ∈ tree.elements, first element = second element) :
    tree.map first = tree.map second := by
  cases tree with
  | node element children =>
      rw [map, map, same element (by simp [elements]),
        mapAll_congr fun other member => same other (by simp [elements, member])]

theorem mapAll_congr {first second : Element → Element} {trees : List Tree}
    (same : ∀ element ∈ elementsAll trees, first element = second element) :
    mapAll first trees = mapAll second trees := by
  cases trees with
  | nil => rfl
  | cons tree rest =>
      rw [mapAll, mapAll, map_congr fun other member => same other (by simp [elementsAll, member]),
        mapAll_congr fun other member => same other (by simp [elementsAll, member])]

end

mutual

theorem map_id (tree : Tree) : tree.map id = tree := by
  cases tree with
  | node element children => rw [map, mapAll_id, id]

theorem mapAll_id (trees : List Tree) : mapAll id trees = trees := by
  cases trees with
  | nil => rfl
  | cons tree rest => rw [mapAll, map_id, mapAll_id]

end

mutual

theorem map_map (first second : Element → Element) (tree : Tree) :
    (tree.map first).map second = tree.map (second ∘ first) := by
  cases tree with
  | node element children => rw [map, map, map, mapAll_mapAll, Function.comp]

theorem mapAll_mapAll (first second : Element → Element) (trees : List Tree) :
    mapAll second (mapAll first trees) = mapAll (second ∘ first) trees := by
  cases trees with
  | nil => rfl
  | cons tree rest => rw [mapAll, mapAll, mapAll, map_map, mapAll_mapAll]

end

/-- The tags of the elements that a path passes, the one it leads to left out. -/
def tagsAlong : List Nat → Tree → List String
  | [], _ => []
  | position :: path, .node element children =>
    element.tag :: (children[position]?.toList.flatMap (tagsAlong path))

theorem at?_cons {position : Nat} {path : List Nat} {element : Element} {children : List Tree}
    {found : Tree} (leads : at? (position :: path) (.node element children) = some found) :
    ∃ front child back, children = front ++ child :: back ∧ front.length = position ∧
      at? path child = some found := by
  simp only [at?, Option.bind_eq_some_iff] at leads
  obtain ⟨child, here, below⟩ := leads
  obtain ⟨bound, same⟩ := List.getElem?_eq_some_iff.mp here
  refine ⟨children.take position, child, children.drop (position + 1), ?_, ?_, below⟩
  · rw [← same, List.getElem_cons_drop, List.take_append_drop]
  · rw [List.length_take]
    omega

theorem splice_cons (replacement : List Tree) (path : List Nat) (element : Element)
    (front : List Tree) (child : Tree) (back : List Tree) :
    splice replacement (front.length :: path) (.node element (front ++ child :: back)) =
      [.node element (front ++ splice replacement path child ++ back)] := by
  simp [splice, List.drop_append]

theorem tagsAlong_cons (path : List Nat) (element : Element) (front : List Tree) (child : Tree)
    (back : List Tree) :
    tagsAlong (front.length :: path) (.node element (front ++ child :: back)) =
      element.tag :: tagsAlong path child := by
  simp [tagsAlong]

theorem elements_of_at? {path : List Nat} {tree found : Tree} (leads : at? path tree = some found) :
    ∃ front back, tree.elements = front ++ found.elements ++ back := by
  induction path generalizing tree with
  | nil =>
      simp only [at?, Option.some.injEq] at leads
      subst leads
      exact ⟨[], [], by simp⟩
  | cons position path ih =>
      cases tree with
      | node element children =>
          obtain ⟨before, child, after, rfl, -, below⟩ := at?_cons leads
          obtain ⟨front, back, whole⟩ := ih below
          refine ⟨element :: (elementsAll before ++ front), back ++ elementsAll after, ?_⟩
          simp [elements, elementsAll_append, elementsAll, whole]

theorem at?_map (change : Element → Element) {path : List Nat} {tree found : Tree}
    (leads : at? path tree = some found) : at? path (tree.map change) = some (found.map change) := by
  induction path generalizing tree with
  | nil =>
      simp only [at?, Option.some.injEq] at leads ⊢
      rw [leads]
  | cons position path ih =>
      cases tree with
      | node element children =>
          obtain ⟨before, child, after, rfl, rfl, below⟩ := at?_cons leads
          simp [map, mapAll_eq, at?, ih below]

def outside (path : List Nat) (tree : Tree) : List Element :=
  elementsAll (splice [] path tree)

theorem outside_cons (path : List Nat) (element : Element) (front : List Tree) (child : Tree)
    (back : List Tree) :
    outside (front.length :: path) (.node element (front ++ child :: back)) =
      element :: (elementsAll front ++ outside path child ++ elementsAll back) := by
  simp [outside, splice_cons, elements, elementsAll, elementsAll_append]

theorem splice_at? {path : List Nat} {tree found : Tree} (leads : at? path tree = some found) :
    splice [found] path tree = [tree] := by
  induction path generalizing tree with
  | nil =>
      simp only [at?, Option.some.injEq] at leads
      rw [leads]
      rfl
  | cons position path ih =>
      cases tree with
      | node element children =>
          obtain ⟨before, child, after, rfl, rfl, below⟩ := at?_cons leads
          rw [splice_cons, ih below]
          simp

theorem elements_splice {path : List Nat} {tree found : Tree} (leads : at? path tree = some found)
    (replacement : List Tree) :
    (elementsAll (splice replacement path tree)).Perm
      (elementsAll replacement ++ tree.outside path) := by
  induction path generalizing tree with
  | nil => simp [outside, splice, elementsAll]
  | cons position path ih =>
      cases tree with
      | node element children =>
          obtain ⟨before, child, after, rfl, rfl, below⟩ := at?_cons leads
          have moved : ([element] ++ elementsAll before ++
              (elementsAll replacement ++ outside path child) ++ elementsAll after).Perm
              (elementsAll replacement ++ ([element] ++ elementsAll before) ++
                (outside path child ++ elementsAll after)) := by
            have swapped : (([element] ++ elementsAll before) ++ elementsAll replacement).Perm
                (elementsAll replacement ++ ([element] ++ elementsAll before)) :=
              List.perm_append_comm
            simpa using swapped.append_right (outside path child ++ elementsAll after)
          have inner := (((ih below).append_left ([element] ++ elementsAll before)).append_right
            (elementsAll after)).trans moved
          rw [outside_cons, splice_cons]
          simpa [elementsAll, elements, elementsAll_append] using inner

theorem elements_perm_of_at? {path : List Nat} {tree found : Tree}
    (leads : at? path tree = some found) :
    tree.elements.Perm (found.elements ++ tree.outside path) := by
  have whole := elements_splice leads [found]
  rw [splice_at? leads] at whole
  simpa [elementsAll] using whole

theorem outside_map (change : Element → Element) {path : List Nat} {tree found : Tree}
    (leads : at? path tree = some found) :
    (tree.map change).outside path = (tree.outside path).map change := by
  induction path generalizing tree with
  | nil => rfl
  | cons position path ih =>
      cases tree with
      | node element children =>
          obtain ⟨before, child, after, rfl, rfl, below⟩ := at?_cons leads
          have length : before.length = (before.map (map change)).length := by simp
          rw [map, mapAll_eq, List.map_append, List.map_cons, outside_cons]
          conv_lhs => rw [length, outside_cons]
          simp [← mapAll_eq, elementsAll_mapAll, ih below]

theorem splice_map_congr {first second : Element → Element} {path : List Nat} {tree found : Tree}
    (leads : at? path tree = some found) (replacement : List Tree)
    (same : ∀ element ∈ tree.outside path, first element = second element) :
    splice replacement path (tree.map first) = splice replacement path (tree.map second) := by
  induction path generalizing tree with
  | nil => rfl
  | cons position path ih =>
      cases tree with
      | node element children =>
          obtain ⟨before, child, after, rfl, rfl, below⟩ := at?_cons leads
          rw [outside_cons] at same
          have shape : ∀ change : Element → Element,
              splice replacement (before.length :: path)
                  ((node element (before ++ child :: after)).map change) =
                [.node (change element) (mapAll change before ++
                  splice replacement path (child.map change) ++ mapAll change after)] := by
            intro change
            have length : before.length = (mapAll change before).length := by simp [mapAll_eq]
            rw [map, mapAll_eq, List.map_append, List.map_cons, ← mapAll_eq, ← mapAll_eq, length,
              splice_cons]
          rw [shape, shape, same element (by simp),
            mapAll_congr fun other member => same other (by simp [member]),
            ih below fun other member => same other (by simp [member]),
            mapAll_congr fun other member => same other (by simp [member])]

end WordTemplate.Markup.Tree
